import StopTheWorld.Machine.Schedule

namespace StopTheWorld

/-! Runs: what can happen to a world, in any order of its threads. -/

/-- What happened, move by move, and what was observed of each. -/
abbrev History := List (Move × List Note)

/-- The observations of a history, each with the thread whose step it is of. -/
def History.notes (history : History) : List (ThreadId × Note) :=
  history.flatMap fun entry =>
    match entry.1 with
    | .run thread => entry.2.map ((thread, ·))
    | _ => []

/-- `Run w history v`: the moves of the history lead from `w` to `v`. -/
inductive Run (w : World) : History → World → Prop
  | nil : Run w [] w
  | snoc {history : History} {v u : World} {move : Move} {notes : List Note} :
      Run w history v → v.move move = some (u, notes) → Run w (history ++ [(move, notes)]) u

namespace Run

theorem single {w v : World} {move : Move} {notes : List Note} (h : w.move move = some (v, notes)) :
    Run w [(move, notes)] v :=
  .snoc .nil h

theorem trans {w v u : World} {first second : History} (h : Run w first v) (k : Run v second u) :
    Run w (first ++ second) u := by
  induction k with
  | nil => simpa using h
  | snoc _ step ih => simpa using ih.snoc step

/-- What every move keeps, every run keeps. -/
theorem keeps {P : World → Prop} (step : ∀ v move u notes, P v → v.move move = some (u, notes) → P u)
    {w v : World} {history : History} (h : Run w history v) (start : P w) : P v := by
  induction h with
  | nil => exact start
  | snoc _ move ih => exact step _ _ _ _ ih move

end Run

theorem History.notes_append (first second : History) :
    (first ++ second : History).notes = first.notes ++ second.notes := by
  simp [History.notes]

/-- A turn is a run. -/
theorem World.run_turn (w : World) (threads : List ThreadId) :
    ∃ history, Run w history (w.turn threads).1 ∧ history.notes = (w.turn threads).2.1 := by
  induction threads generalizing w with
  | nil => exact ⟨[], .nil, rfl⟩
  | cons thread rest ih =>
    unfold World.turn
    cases hstep : w.step thread with
    | none => exact ih w
    | some next =>
      obtain ⟨v, notes⟩ := next
      obtain ⟨history, hrun, hnotes⟩ := ih (v.elapse 1)
      refine ⟨[(.run thread, notes), (.elapse 1, [])] ++ history, ?_, ?_⟩
      · have first : w.move (.run thread) = some (v, notes) := hstep
        exact (Run.single first).trans ((Run.single rfl).trans hrun)
      · rw [History.notes_append, hnotes]
        simp [History.notes]

/-- A turn in which nobody could go on has changed nothing. -/
theorem World.turn_eq_self {w : World} {threads : List ThreadId}
    (h : (w.turn threads).2.2 = false) : w.turn threads = (w, [], false) := by
  induction threads with
  | nil => rfl
  | cons thread rest ih =>
    unfold World.turn at h ⊢
    cases hstep : w.step thread with
    | none =>
      simp only [hstep] at h
      exact ih h
    | some next => simp [hstep] at h

/-- Taking turns until nobody can go on is one of the runs of a world. -/
theorem World.run_settle (threads : List ThreadId) (fuel : Nat) (w : World) :
    ∃ history, Run w history (w.settle threads fuel).1 ∧
      history.notes = (w.settle threads fuel).2 := by
  induction fuel generalizing w with
  | zero => exact ⟨[], .nil, rfl⟩
  | succ fuel ih =>
    obtain ⟨history, hrun, hnotes⟩ := w.run_turn threads
    unfold World.settle
    obtain ⟨⟨v, notes, progress⟩, hturn⟩ : ∃ turned, w.turn threads = turned := ⟨_, rfl⟩
    cases progress with
    | true =>
      obtain ⟨later, hlater, hlaterNotes⟩ := ih v
      simp only [hturn] at hrun hnotes ⊢
      exact ⟨history ++ later, hrun.trans hlater, by
        rw [History.notes_append, hnotes, hlaterNotes]⟩
    | false =>
      rw [World.turn_eq_self (by rw [hturn])]
      cases hnap : (threads.filterMap w.nap?).min? with
      | none => exact ⟨[], by simp only [hnap]; exact .nil, by simp only [hnap]; rfl⟩
      | some deadline =>
        obtain ⟨later, hlater, hlaterNotes⟩ := ih (w.elapse (deadline - w.now))
        simp only [hnap]
        exact ⟨[(.elapse (deadline - w.now), [])] ++ later, (Run.single rfl).trans hlater, by
          rw [History.notes_append, hlaterNotes]; rfl⟩

end StopTheWorld
