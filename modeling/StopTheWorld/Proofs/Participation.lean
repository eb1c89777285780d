import StopTheWorld.Proofs.Underway

namespace StopTheWorld

/-! What becomes of each thread in a pause: it leaves before it arrives, or comes to choose what to
run, once. -/

/-- The note tells that the action of a pause starts. -/
def Note.starts (m : ManagerId) : Note → Bool
  | action n _ _ => n = m
  | _ => false

/-- The starts of actions on one thread. -/
def startsOn (m : ManagerId) (thread : ThreadId) (history : List (ThreadId × Note)) :
    List (ThreadId × Note) :=
  history.filter fun entry => entry.1 = thread && entry.2.starts m

/-- The thread has run the action of the pause, or has found that there is none for it to run. -/
def Scene.HasChosen (pause : Pause) (s : Scene) (thread : ThreadId) : Prop :=
  s.core.phaser.phase = 3 * pause.number + 3 ∨
    s.core.phaser.phase = 3 * pause.number + 2 ∧ ∃ leads point arrival,
      s.posture thread = .meeting leads point arrival ∧
        (point = .finish ∨ point = .third ∧ arrival = none)

/-- How far a thread has come in a pause that is under way. What a thread that has chosen started is
for `chosen` to tell. -/
inductive Scene.Progress (m : ManagerId) (pause : Pause) (history : List (ThreadId × Note))
    (s : Scene) (thread : ThreadId) (chosen : List (ThreadId × Note) → Prop) : Prop
  /-- The thread has no part in the pause. -/
  | left (gone : thread ∉ s.core.identities) (starts : startsOn m thread history = [])
      (noted : pause.entries thread = none ∨
        (thread, .removed (.manager m) thread) ∈ history ∧
          ∀ phase, (thread, .arrived (.registry (.manager m)) phase) ∉ history)
  | waiting (here : thread ∈ s.core.identities) (starts : startsOn m thread history = [])
      (yet : ¬ s.HasChosen pause thread)
      (late : s.core.phaser.phase = 3 * pause.number →
        (s.posture thread).hasArrived s.core.phaser.phase = false →
          ∀ phase, (thread, .arrived (.registry (.manager m)) phase) ∉ history)
  | done (ended : s.HasChosen pause thread) (starts : chosen (startsOn m thread history))

section

variable {m : ManagerId} {pause : Pause} {s s' : Scene} {thread self : ThreadId} {deed : Deed}
  {history first second : List (ThreadId × Note)} {chosen : List (ThreadId × Note) → Prop}

@[simp] theorem startsOn_append :
    startsOn m thread (first ++ second) = startsOn m thread first ++ startsOn m thread second := by
  simp [startsOn]

theorem startsOn_other {notes : List Note} (ne : thread ≠ self) :
    startsOn m thread (notes.map ((self, ·))) = [] := by
  simp [startsOn, ne.symm]

theorem startsOn_notes {core : Core} (idle : ∀ record bound, deed ≠ .start record bound) :
    startsOn m thread ((core.notes m self deed).map ((self, ·))) = [] := by
  cases deed with
  | start record bound => exact absurd rfl (idle record bound)
  | depart | arrive =>
    simp only [Core.notes]
    split <;> simp [startsOn, Note.starts]
  | _ => simp [Core.notes, startsOn, Note.starts]

theorem arrived_notMem {core : Core} {phase : Nat} (away : deed ≠ .arrive) :
    (thread, Note.arrived (.registry (.manager m)) phase) ∉
      (core.notes m self deed).map ((self, ·)) := by
  cases deed with
  | arrive => exact absurd rfl away
  | depart =>
    simp only [Core.notes]
    split <;> simp
  | _ => simp [Core.notes]

/-- A thread has chosen by the time it arrives at the third phase. -/
theorem Scene.HasChosen.of_arrived (underway : s.Underway pause) (lawful : s.Lawful)
    (phase : s.core.phaser.phase = 3 * pause.number + 2)
    (arrived : (s.posture thread).hasArrived s.core.phaser.phase = true) :
    s.HasChosen pause thread := by
  obtain ⟨leads, point, meets⟩ := Posture.hasArrived_iff.mp arrived
  have pace := ((lawful.admits thread).meets meets).pace
  have number := underway.number
  simp only [Phases.Point.passed, if_true] at pace
  refine .inr ⟨phase, leads, point, _, meets, .inl ?_⟩
  cases point with
  | finish => rfl
  | _ => simp only [Phases.Point.rounds] at pace; omega

theorem Scene.HasChosen.other (chose : s.HasChosen pause thread) (underway : s.Underway pause)
    (lawful : s.Lawful) (moves : s.Moves self deed s') (ne : thread ≠ self) :
    s'.HasChosen pause thread := by
  have posture := moves.others thread ne
  have number := underway.number
  unfold Scene.HasChosen at chose ⊢
  rw [posture]
  obtain same | ⟨next, ⟨round, le, phase, -⟩, -⟩ := lawful.phase_cases moves
  · rwa [same]
  · left
    obtain third | ⟨second, -⟩ := chose <;> omega

/-- What others do makes no choice for a thread that is registered. -/
theorem Scene.HasChosen.of_other (chose : s'.HasChosen pause thread) (underway : s.Underway pause)
    (lawful : s.Lawful) (moves : s.Moves self deed s') (ne : thread ≠ self)
    (here : thread ∈ s.core.identities) : s.HasChosen pause thread := by
  have posture := moves.others thread ne
  have number := underway.number
  obtain same | ⟨next, -, all⟩ := lawful.phase_cases moves
  · unfold Scene.HasChosen at chose ⊢
    rwa [same, posture] at chose
  · have arrived := all thread ne (.inl here)
    obtain third | ⟨second, leads, point, arrival, meets, choice⟩ := chose
    · exact .of_arrived underway lawful (by omega) arrived
    · rw [posture] at meets
      obtain ⟨leads', point', meets'⟩ := Posture.hasArrived_iff.mp arrived
      obtain ⟨rfl, rfl, rfl⟩ := Posture.meeting.inj (meets.symm.trans meets')
      have pace := ((lawful.admits thread).meets meets).pace
      obtain rfl | ⟨-, none⟩ := choice
      · simp only [Phases.Point.passed, if_true, Phases.Point.rounds] at pace
        omega
      · simp at none

/-- A thread that has chosen goes on to the end of the phases, and chooses no more. -/
theorem Scene.HasChosen.own (chose : s.HasChosen pause self) (underway : s.Underway pause)
    (lawful : s.Lawful) (moves : s.Moves self deed s') :
    s'.HasChosen pause self ∧ ∀ record bound, deed ≠ .start record bound := by
  have number := underway.number
  have admits := lawful.admits self
  have phases := lawful.phase_cases moves
  have advances := moves.advances
  unfold Scene.HasChosen at chose ⊢
  generalize s.posture self = before at advances admits chose
  generalize s'.posture self = after at advances
  obtain third | ⟨second, leads, point, arrival, rfl, choice⟩ := chose
  · refine ⟨.inl ?_, ?_⟩
    · obtain same | ⟨-, ⟨round, le, phase, -⟩, -⟩ := phases <;> omega
    · intro record bound same
      subst same
      cases advances
      have pace := (admits.meets rfl).pace
      simp only [Phases.Point.passed, Phases.Point.rounds] at pace
      omega
  · have goes (after' : ∃ leads point arrival, after = .meeting leads point arrival ∧
        (point = .finish ∨ point = .third ∧ arrival = none)) :
        s'.core.phaser.phase = 3 * pause.number + 3 ∨
          s'.core.phaser.phase = 3 * pause.number + 2 ∧ ∃ leads point arrival,
            after = .meeting leads point arrival ∧
              (point = .finish ∨ point = .third ∧ arrival = none) := by
      obtain same | ⟨next, -⟩ := phases
      · exact .inr ⟨same.trans second, after'⟩
      · exact .inl (by omega)
    have pace := (admits.meets rfl).pace
    obtain rfl | ⟨rfl, rfl⟩ := choice
    · cases advances with
      | part | close =>
        simp only [Phases.Point.passed, Phases.Point.rounds] at pace
        omega
      | approach arrives => cases arrives
      | _ => exact ⟨goes ⟨_, _, _, rfl, .inl rfl⟩, by simp⟩
    · cases advances with
      | stay => exact ⟨goes ⟨_, _, _, rfl, .inr ⟨rfl, rfl⟩⟩, by simp⟩
      | approach arrives =>
        cases arrives
        exact ⟨goes ⟨_, _, _, rfl, .inl rfl⟩, by simp⟩

/-- A thread chooses by the step that is there for it. -/
theorem Scene.HasChosen.of_own (chose : s'.HasChosen pause self) (underway : s.Underway pause)
    (lawful : s.Lawful) (moves : s.Moves self deed s') (here : self ∈ s.core.identities) :
    s.HasChosen pause self ∨ ∃ leads, s.posture self = .meeting leads .choose none := by
  have number := underway.number
  have admits := lawful.admits self
  have advances := moves.advances
  have core := moves.core
  unfold Scene.HasChosen at chose ⊢
  generalize s.posture self = before at advances admits
  generalize s'.posture self = after at advances chose
  have kept (same : s'.core.phaser.phase = s.core.phaser.phase)
      (choice : ∀ {leads point arrival}, after = .meeting leads point arrival →
        point = .finish ∨ point = .third ∧ arrival = none → ∃ leads' point' arrival',
          before = .meeting leads' point' arrival' ∧
            (point' = .finish ∨ point' = .third ∧ arrival' = none)) :
      s.core.phaser.phase = 3 * pause.number + 3 ∨
        s.core.phaser.phase = 3 * pause.number + 2 ∧ ∃ leads point arrival,
          before = .meeting leads point arrival ∧
            (point = .finish ∨ point = .third ∧ arrival = none) := by
    rw [same] at chose
    refine chose.imp_right (And.imp_right ?_)
    intro ⟨leads, point, arrival, meets, there⟩
    exact choice meets there
  cases advances with
  | stay => exact .inl (kept (by rw [core]; rfl) fun same there => ⟨_, _, _, same, there⟩)
  | start | decline => exact .inr ⟨_, rfl⟩
  | approach arrives =>
    refine .inl (kept (by rw [core]; rfl) fun same there => ?_)
    obtain ⟨rfl, rfl, rfl⟩ := Posture.meeting.inj same
    cases arrives with
    | third => exact ⟨_, _, _, rfl, .inr ⟨rfl, rfl⟩⟩
    | _ => simp at there
  | wait early =>
    refine .inl (kept (by simp [core, Core.after, Phaser.arrive_phase, early]) fun same there => ?_)
    obtain ⟨rfl, rfl, rfl⟩ := Posture.meeting.inj same
    exact ⟨_, _, _, rfl, by simpa using there⟩
  | wake ended =>
    refine .inl (kept (by rw [core]; rfl) fun same there => ?_)
    obtain ⟨rfl, rfl, rfl⟩ := Posture.meeting.inj same
    have begun := (admits.meets rfl).begun (by simp)
    exact ⟨_, _, _, rfl, .inl (there.resolve_right fun third => begun.2 third.1)⟩
  | @complete leads point last =>
    have next : s'.core.phaser.phase = s.core.phaser.phase + 1 := by
      simp [core, Core.after, Phaser.arrive_phase, last]
    have meets := admits.meets rfl
    have begun := meets.begun (by simp)
    have pace := meets.pace
    simp only [Phases.Point.passed] at pace
    left
    obtain third | ⟨second, leads, point, arrival, same, choice⟩ := chose
    · have finish : point = .finish := by
        cases point with
        | finish => rfl
        | _ => simp only [Phases.Point.rounds] at pace; omega
      exact .inr ⟨by omega, _, _, _, rfl, .inl finish⟩
    · obtain ⟨rfl, rfl, rfl⟩ := Posture.meeting.inj same
      obtain rfl | ⟨third, -⟩ := choice
      · simp only [Phases.Point.rounds] at pace
        omega
      · exact absurd third begun.2
  | depart =>
    have gone := admits.halfway rfl
    exact absurd here gone
  | _ => exact .inl (kept (by rw [core]; rfl) (by simp))

theorem Scene.HasChosen.of_start {record : RecordId} {bound : ThreadId}
    (underway : s.Underway pause) (lawful : s.Lawful)
    (moves : s.Moves self (.start record bound) s') : s'.HasChosen pause self := by
  have number := underway.number
  have admits := lawful.admits self
  have advances := moves.advances
  have core := moves.core
  unfold Scene.HasChosen
  generalize s.posture self = before at advances admits
  generalize s'.posture self = after at advances
  cases advances with
  | start =>
    have pace := (admits.meets rfl).pace
    have same : s'.core.phaser.phase = s.core.phaser.phase := by
      rw [core]
      rfl
    simp only [Phases.Point.passed, Phases.Point.rounds] at pace
    exact .inr ⟨by omega, _, _, _, rfl, .inr ⟨rfl, rfl⟩⟩

namespace Scene.Progress

theorem imp {chosen' : List (ThreadId × Note) → Prop}
    (progress : s.Progress m pause history thread chosen)
    (weaken : ∀ starts, chosen starts → chosen' starts) :
    s.Progress m pause history thread chosen' := by
  cases progress with
  | left gone starts noted => exact .left gone starts noted
  | waiting here starts yet late => exact .waiting here starts yet late
  | done ended starts => exact .done ended (weaken _ starts)

/-- What others do keeps a thread as far as it has come. -/
theorem other (progress : s.Progress m pause history thread chosen)
    (underway : s.Underway pause) (lawful : s.Lawful) (moves : s.Moves self deed s')
    (ne : thread ≠ self) :
    s'.Progress m pause (history ++ (s.core.notes m self deed).map ((self, ·))) thread chosen := by
  have posture := moves.others thread ne
  have here : thread ∈ s'.core.identities ↔ thread ∈ s.core.identities := by
    rw [moves.core]
    exact Scene.Lawful.mem_identities_other moves.advances ne
  have round := underway.round lawful
  have quiet : startsOn m thread (history ++ (s.core.notes m self deed).map ((self, ·))) =
      startsOn m thread history := by
    rw [startsOn_append, startsOn_other ne, List.append_nil]
  have silent (phase : Nat) : (thread, Note.arrived (.registry (.manager m)) phase) ∉
      (s.core.notes m self deed).map ((self, ·)) := by
    simp [ne.symm]
  cases progress with
  | left gone starts noted =>
    refine .left (here.not.mpr gone) (quiet.trans starts) (noted.imp_right ?_)
    intro ⟨removed, never⟩
    exact ⟨List.mem_append_left _ removed, fun phase => by simp [never, silent]⟩
  | waiting there starts yet late =>
    refine .waiting (here.mpr there) (quiet.trans starts)
      (fun chose => yet (chose.of_other underway lawful moves ne there)) ?_
    intro first waits phase
    rw [posture] at waits
    have same : s'.core.phaser.phase = s.core.phaser.phase := by
      obtain same | ⟨next, -⟩ := lawful.phase_cases moves
      · exact same
      · omega
    rw [same] at first waits
    simp [late first waits, silent]
  | done ended starts =>
    exact .done (ended.other underway lawful moves ne) (quiet.symm ▸ starts)

theorem own_left (gone : self ∉ s.core.identities) (underway : s.Underway pause)
    (lawful : s.Lawful) (moves : s.Moves self deed s') :
    self ∉ s'.core.identities ∧ (∀ record bound, deed ≠ .start record bound) ∧
      deed ≠ .arrive := by
  have conducts (owns : (s.posture self).owns = true) := underway.conducts_of_owns lawful owns
  have admits := lawful.admits self
  have advances := moves.advances
  have away {P : Prop} (relies : (s.posture self).relies = true) : P :=
    absurd (admits.relies relies) gone
  rw [moves.core]
  generalize s.posture self = before at advances conducts away
  generalize s'.posture self = after at advances
  cases advances with
  | insert => cases conducts rfl
  | start | wait | complete => exact away rfl
  | remove present => exact absurd present gone
  | _ => exact ⟨gone, by simp⟩

/-- A thread that leaves before it has chosen leaves before it has arrived. -/
theorem own_removed (underway : s.Underway pause) (lawful : s.Lawful)
    (moves : s.Moves self .remove s') (yet : ¬ s.HasChosen pause self) :
    self ∉ s'.core.identities ∧ s'.core.phaser.phase = 3 * pause.number ∧
      (s'.posture self).hasArrived s'.core.phaser.phase = false := by
  have number := underway.number
  have admits := lawful.admits self
  have advances := moves.advances
  have core := moves.core
  have first : ¬ s.core.phaser.phase = 3 * pause.number + 3 := fun third => yet (.inl third)
  generalize s.posture self = before at advances admits
  generalize s'.posture self = after at advances
  cases advances with
  | remove present =>
    have absent := admits.absent (.inl present) rfl
    have same : s'.core.phaser.phase = s.core.phaser.phase := by
      rw [core]
      rfl
    refine ⟨?_, by omega, rfl⟩
    rw [core, Scene.Lawful.mem_identities_remove]
    exact fun here => here.1 rfl

/-- A thread that has not arrived at the first phase has not arrived in this pause. -/
theorem late_own (underway : s.Underway pause) (lawful : s.Lawful) (moves : s.Moves self deed s')
    (late : s.core.phaser.phase = 3 * pause.number →
      (s.posture self).hasArrived s.core.phaser.phase = false →
        ∀ phase, (self, Note.arrived (.registry (.manager m)) phase) ∉ history)
    (first : s'.core.phaser.phase = 3 * pause.number)
    (waits : (s'.posture self).hasArrived s'.core.phaser.phase = false) (phase : Nat) :
    (self, Note.arrived (.registry (.manager m)) phase) ∉
      history ++ (s.core.notes m self deed).map ((self, ·)) := by
  have round := underway.round lawful
  have same : s'.core.phaser.phase = s.core.phaser.phase := by
    obtain same | ⟨next, -⟩ := lawful.phase_cases moves
    · exact same
    · omega
  have core := moves.core
  have advances := moves.advances
  rw [same] at first waits
  generalize s.posture self = before at advances late
  generalize s'.posture self = after at advances waits
  rw [List.mem_append, not_or]
  cases advances with
  | stay => exact ⟨late first waits phase, arrived_notMem (by simp)⟩
  | wait => simp [Posture.hasArrived] at waits
  | complete last => simp [core, Core.after, Phaser.arrive_phase, last] at same
  | wake ended =>
    exact ⟨late first (by simp [Posture.hasArrived, ended.symm]) phase, arrived_notMem (by simp)⟩
  | _ => exact ⟨late first rfl phase, arrived_notMem (by simp)⟩

theorem mem_identities_own {core : Core} {before after : Posture}
    (advances : Advances core self before deed after) (here : self ∈ core.identities)
    (stays : deed ≠ .remove) : self ∈ (core.after self deed).identities := by
  cases advances with
  | remove => exact absurd rfl stays
  | insert => simp [Core.after, Core.identities] at here ⊢; exact .inl here
  | _ => exact here

/-- What a thread does takes it no further than to a choice, by the step that is there for it. -/
theorem own (progress : s.Progress m pause history self chosen)
    (underway : s.Underway pause) (lawful : s.Lawful) (moves : s.Moves self deed s')
    (chooses : (∃ leads, s.posture self = .meeting leads .choose none) →
      chosen (startsOn m self ((s.core.notes m self deed).map ((self, ·))))) :
    s'.Progress m pause (history ++ (s.core.notes m self deed).map ((self, ·))) self chosen := by
  have quiet (idle : ∀ record bound, deed ≠ .start record bound) :
      startsOn m self (history ++ (s.core.notes m self deed).map ((self, ·))) =
        startsOn m self history := by
    rw [startsOn_append, startsOn_notes idle, List.append_nil]
  cases progress with
  | left gone starts noted =>
    obtain ⟨gone', idle, away⟩ := own_left gone underway lawful moves
    refine .left gone' ((quiet idle).trans starts) (noted.imp_right ?_)
    intro ⟨removed, never⟩
    refine ⟨List.mem_append_left _ removed, fun phase => ?_⟩
    rw [List.mem_append, not_or]
    exact ⟨never phase, arrived_notMem away⟩
  | waiting here starts yet late =>
    by_cases chose : s'.HasChosen pause self
    · obtain old | choosing := chose.of_own underway lawful moves here
      · exact absurd old yet
      · refine .done chose ?_
        rw [startsOn_append, starts, List.nil_append]
        exact chooses choosing
    · have idle (record : RecordId) (bound : ThreadId) : deed ≠ .start record bound := by
        intro same
        subst same
        exact chose (.of_start underway lawful moves)
      have late' := late_own underway lawful moves late
      by_cases leaves : deed = .remove
      · subst leaves
        obtain ⟨gone, first, waits⟩ := own_removed underway lawful moves yet
        refine .left gone ((quiet idle).trans starts) (.inr ⟨by simp [Core.notes], ?_⟩)
        exact late' first waits
      · refine .waiting ?_ ((quiet idle).trans starts) chose late'
        rw [moves.core]
        exact mem_identities_own moves.advances here leaves
  | done ended starts =>
    obtain ⟨ended', idle⟩ := ended.own underway lawful moves
    exact .done ended' ((quiet idle).symm ▸ starts)

end Scene.Progress

end

end StopTheWorld
