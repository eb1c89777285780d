import StopTheWorld.Machine.Run

namespace StopTheWorld

/-! Courses of events: runs that remember the world each move was made in, and in which user code
keeps to some custom. -/

/-- A move that was made, the world it was made in, and what was observed of it. -/
structure Moment where
  world : World
  move : Move
  notes : List Note

namespace Moment

/-- What was observed, together with the thread whose step it is of. -/
def observed (moment : Moment) : List (ThreadId × Note) :=
  match moment.move with
  | .run thread => moment.notes.map ((thread, ·))
  | _ => []

@[simp] theorem observed_run (w : World) (thread : ThreadId) (notes : List Note) :
    (⟨w, .run thread, notes⟩ : Moment).observed = notes.map ((thread, ·)) := rfl

theorem mem_observed {moment : Moment} {thread : ThreadId} {note : Note} :
    (thread, note) ∈ moment.observed ↔ moment.move = .run thread ∧ note ∈ moment.notes := by
  obtain ⟨world, move, notes⟩ := moment
  cases move with
  | run other =>
    simp only [observed_run, List.mem_map, Prod.mk.injEq, Move.run.injEq]
    constructor
    · intro ⟨note, mem, same, this⟩
      exact ⟨same, this ▸ mem⟩
    · intro ⟨same, mem⟩
      exact ⟨note, mem, same, rfl⟩
  | _ => simp [observed]

end Moment

def observations (moments : List Moment) : List (ThreadId × Note) :=
  moments.flatMap Moment.observed

@[simp] theorem observations_nil : observations [] = [] := rfl

@[simp] theorem observations_append (first second : List Moment) :
    observations (first ++ second) = observations first ++ observations second := by
  simp [observations]

@[simp] theorem observations_cons (moment : Moment) (moments : List Moment) :
    observations (moment :: moments) = moment.observed ++ observations moments := by
  simp [observations]

theorem eq_take_cons_drop {α : Type} {l : List α} {i : Nat} {x : α} (found : l[i]? = some x) :
    l = l.take i ++ x :: l.drop (i + 1) := by
  obtain ⟨lt, rfl⟩ := List.getElem?_eq_some_iff.mp found
  rw [← List.drop_eq_getElem_cons, List.take_append_drop]

/-- Whether the note is that a thread took the lock. -/
def Note.isTaking (lock : LockRef) (owner : ThreadId) : Note → Bool
  | took other thread => other = lock && thread = owner
  | _ => false

/-- Whether the note is that the `k`-th token was invalidated. -/
def Note.isInvalidation (m : ManagerId) (k : Nat) : Note → Bool
  | invalidated n generation => n = m && generation = k
  | _ => false

/-- Whether the note is that a driver, or another thread, went into the phases. -/
def Note.isJoining (m : ManagerId) (drives : Bool) : Note → Bool
  | joined n leads => n = m && leads = drives
  | _ => false

/-- Whether the note is that a driver, or another thread, came out of the phases. -/
def Note.isFinish (m : ManagerId) (drives : Bool) : Note → Bool
  | finished n leads => n = m && leads = drives
  | _ => false

theorem Note.isTaking_iff {lock : LockRef} {owner : ThreadId} {note : Note} :
    note.isTaking lock owner = true ↔ note = .took lock owner := by
  cases note <;> simp [isTaking]

theorem Note.isInvalidation_iff {m : ManagerId} {k : Nat} {note : Note} :
    note.isInvalidation m k = true ↔ note = .invalidated m k := by
  cases note <;> simp [isInvalidation]

theorem Note.isJoining_iff {m : ManagerId} {drives : Bool} {note : Note} :
    note.isJoining m drives = true ↔ note = .joined m drives := by
  cases note <;> simp [isJoining]

theorem Note.isFinish_iff {m : ManagerId} {drives : Bool} {note : Note} :
    note.isFinish m drives = true ↔ note = .finished m drives := by
  cases note <;> simp [isFinish]

/-- Whether something that passes the check was observed of the thread. -/
def shows (thread : ThreadId) (check : Note → Bool) (entries : List (ThreadId × Note)) : Bool :=
  entries.any fun entry => entry.1 = thread && check entry.2

theorem shows_iff {thread : ThreadId} {check : Note → Bool} {note : Note}
    (only : ∀ {other : Note}, check other = true ↔ other = note)
    {entries : List (ThreadId × Note)} :
    shows thread check entries = true ↔ (thread, note) ∈ entries := by
  simp only [shows, List.any_eq_true, Bool.and_eq_true, decide_eq_true_eq, only]
  constructor
  · rintro ⟨⟨self, other⟩, mem, rfl, rfl⟩
    exact mem
  · intro mem
    exact ⟨_, mem, rfl, rfl⟩

/-- What was observed was first observed at some moment. -/
theorem exists_first_observed {moments : List Moment} {entry : ThreadId × Note}
    (mem : entry ∈ observations moments) : ∃ before moment after,
      moments = before ++ moment :: after ∧ entry ∉ observations before ∧
        entry ∈ moment.observed := by
  induction moments with
  | nil => simp at mem
  | cons moment moments ih =>
    by_cases now : entry ∈ moment.observed
    · exact ⟨[], moment, moments, rfl, by simp, now⟩
    · have later : entry ∈ observations moments := by simpa [now] using mem
      obtain ⟨before, first, after, rfl, never, observed⟩ := ih later
      exact ⟨moment :: before, first, after, rfl, by simp [now, never], observed⟩

/-- `Course custom w moments v`: the moves lead from `w` to `v`, and each step of a thread is one
that the custom allows. -/
inductive Course (custom : World → ThreadId → Prop) (w : World) : List Moment → World → Prop
  | nil : Course custom w [] w
  | snoc {moments : List Moment} {v u : World} {move : Move} {notes : List Note} :
      Course custom w moments v → (∀ thread, move = .run thread → custom v thread) →
      v.move move = some (u, notes) → Course custom w (moments ++ [⟨v, move, notes⟩]) u

namespace Course

variable {custom : World → ThreadId → Prop} {w v u : World}

theorem single {move : Move} {notes : List Note}
    (allowed : ∀ thread, move = .run thread → custom w thread)
    (moves : w.move move = some (v, notes)) : Course custom w [⟨w, move, notes⟩] v :=
  .snoc .nil allowed moves

theorem trans {first second : List Moment} (before : Course custom w first v)
    (after : Course custom v second u) : Course custom w (first ++ second) u := by
  induction after with
  | nil => simpa using before
  | snoc _ allowed moves ih => simpa using ih.snoc allowed moves

theorem run {moments : List Moment} (course : Course custom w moments v) :
    Run w (moments.map fun moment => (moment.move, moment.notes)) v := by
  induction course with
  | nil => exact .nil
  | snoc _ _ moves ih => simpa using ih.snoc moves

/-- A custom that allows more has the course too. -/
theorem mono {custom' : World → ThreadId → Prop} {moments : List Moment}
    (allows : ∀ w thread, custom w thread → custom' w thread)
    (course : Course custom w moments v) : Course custom' w moments v := by
  induction course with
  | nil => exact .nil
  | snoc _ allowed moves ih =>
    exact ih.snoc (fun thread runs => allows _ thread (allowed thread runs)) moves

/-- What every move keeps, every course keeps. -/
theorem keeps {P : World → Prop} {moments : List Moment}
    (step : ∀ {x y : World} {move : Move} {notes : List Note}, P x →
      (∀ thread, move = .run thread → custom x thread) → x.move move = some (y, notes) → P y)
    (course : Course custom w moments v) (start : P w) : P v := by
  induction course with
  | nil => exact start
  | snoc _ allowed moves ih => exact step ih allowed moves

/-- A course falls into the part before a moment, the move made then, and the part after it. -/
theorem split {moments pre post : List Moment} {moment : Moment}
    (course : Course custom w moments v) (parts : moments = pre ++ moment :: post) :
    ∃ next, Course custom w pre moment.world ∧
      (∀ thread, moment.move = .run thread → custom moment.world thread) ∧
      moment.world.move moment.move = some (next, moment.notes) ∧ Course custom next post v := by
  induction course generalizing post with
  | nil => simp at parts
  | @snoc moments v u move notes before allowed moves ih =>
    obtain rfl | ⟨rest, last, rfl⟩ := post.eq_nil_or_concat
    · obtain ⟨rfl, same⟩ := List.append_inj' parts rfl
      obtain rfl : (⟨v, move, notes⟩ : Moment) = moment := List.head_eq_of_cons_eq same
      exact ⟨u, before, allowed, moves, .nil⟩
    · rw [List.concat_eq_append, ← List.cons_append, ← List.append_assoc] at parts
      obtain ⟨earlier, same⟩ := List.append_inj' parts rfl
      obtain rfl : (⟨v, move, notes⟩ : Moment) = last := List.head_eq_of_cons_eq same
      obtain ⟨next, first, permitted, made, second⟩ := ih earlier
      rw [List.concat_eq_append]
      exact ⟨next, first, permitted, made, second.snoc allowed moves⟩

theorem nil_eq (course : Course custom w [] v) : v = w := by
  generalize none : ([] : List Moment) = moments at course
  cases course with
  | nil => rfl
  | snoc => simp at none

/-- The last move of a course was made in a world that the moves before it lead to. -/
theorem unsnoc {moments : List Moment} {moment : Moment}
    (course : Course custom w (moments ++ [moment]) v) :
    Course custom w moments moment.world ∧
      (∀ thread, moment.move = .run thread → custom moment.world thread) ∧
      moment.world.move moment.move = some (v, moment.notes) := by
  obtain ⟨next, before, allowed, moved, last⟩ := course.split rfl
  exact ⟨before, allowed, last.nil_eq ▸ moved⟩

theorem cut {moments first second : List Moment} (course : Course custom w moments v)
    (parts : moments = first ++ second) :
    ∃ middle, Course custom w first middle ∧ Course custom middle second v := by
  induction course generalizing second with
  | nil =>
    obtain ⟨rfl, rfl⟩ := List.append_eq_nil_iff.mp parts.symm
    exact ⟨w, .nil, .nil⟩
  | @snoc moments v u move notes before allowed moves ih =>
    obtain rfl | ⟨rest, last, rfl⟩ := second.eq_nil_or_concat
    · rw [List.append_nil] at parts
      exact ⟨u, parts ▸ before.snoc allowed moves, .nil⟩
    · rw [List.concat_eq_append, ← List.append_assoc] at parts
      obtain ⟨earlier, same⟩ := List.append_inj' parts rfl
      obtain rfl : (⟨v, move, notes⟩ : Moment) = last := List.head_eq_of_cons_eq same
      obtain ⟨middle, first, second⟩ := ih earlier
      rw [List.concat_eq_append]
      exact ⟨middle, first, second.snoc allowed moves⟩

theorem between {moments pre mid post : List Moment} {first last : Moment}
    (course : Course custom w moments v)
    (parts : moments = pre ++ first :: (mid ++ last :: post)) :
    Course custom first.world (first :: mid) last.world := by
  obtain ⟨next, -, allowed, moved, after⟩ := course.split parts
  obtain ⟨-, during, -⟩ := after.split rfl
  exact (Course.single allowed moved).trans during

end Course

/-- The moves of a plan, each as many times over as the plan says. -/
def Move.repeated (plan : List (Nat × Move)) : List Move :=
  plan.flatMap fun part => List.replicate part.1 part.2

/-- A step of a thread passes the check; other moves need not. -/
def Move.passes (check : ThreadId → Bool) : Move → Bool
  | run thread => check thread
  | _ => true

/-- Makes the moves one after the other, as long as they are possible and pass the check. -/
def World.follow (check : World → ThreadId → Bool) (w : World) :
    List Move → Option (List Moment × World)
  | [] => some ([], w)
  | move :: moves =>
    if move.passes (check w) then
      (w.move move).bind fun (v, notes) =>
        (v.follow check moves).map fun (moments, u) => (⟨w, move, notes⟩ :: moments, u)
    else none

theorem World.course_of_follow {check : World → ThreadId → Bool}
    {custom : World → ThreadId → Prop}
    (allows : ∀ w thread, check w thread = true → custom w thread) {w v : World}
    {moves : List Move} {moments : List Moment}
    (follows : w.follow check moves = some (moments, v)) : Course custom w moments v := by
  induction moves generalizing w moments with
  | nil =>
    obtain ⟨rfl, rfl⟩ := Prod.mk.inj (Option.some.inj follows)
    exact .nil
  | cons move moves ih =>
    simp only [World.follow] at follows
    split at follows
    · rename_i passes
      obtain ⟨⟨u, notes⟩, moved, rest⟩ := Option.bind_eq_some_iff.mp follows
      obtain ⟨⟨later, v'⟩, followed, same⟩ := Option.map_eq_some_iff.mp rest
      obtain ⟨rfl, rfl⟩ := Prod.mk.inj same
      refine (Course.single ?_ moved).trans (ih followed)
      intro thread runs
      subst runs
      exact allows w thread passes
    · simp at follows

end StopTheWorld
