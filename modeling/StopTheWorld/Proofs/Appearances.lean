import StopTheWorld.Proofs.PauseState
import StopTheWorld.Proofs.Turnout

namespace StopTheWorld

/-! The pauses that a thread goes through, one after the other, and what it tells of them. -/

/-- A thread goes through the phases of a pause, which it may drive. -/
structure Appearance where
  pause : Nat
  drives : Bool

/-- What a thread tells of the pauses it goes through, and of nothing else. -/
def Note.isAppearance (m : ManagerId) : Note → Bool
  | joined n _ => n = m
  | arrived phaser _ => phaser = .registry (.manager m)
  | _ => false

def Appearance.notes (m : ManagerId) (appearance : Appearance) : List Note :=
  [.joined m appearance.drives, .arrived (.registry (.manager m)) (3 * appearance.pause),
    .arrived (.registry (.manager m)) (3 * appearance.pause + 1),
    .arrived (.registry (.manager m)) (3 * appearance.pause + 2)]

/-- What the thread has told of the pauses it goes through. -/
def shown (m : ManagerId) (thread : ThreadId) (history : List (ThreadId × Note)) : List Note :=
  ((history.filter (·.1 = thread)).map (·.2)).filter (·.isAppearance m)

/-- How often the thread has come to the phases of a pause that it does not drive. -/
def joinings (m : ManagerId) (thread : ThreadId) (history : List (ThreadId × Note)) : Nat :=
  history.countP fun entry => entry.1 = thread && entry.2.isJoining m false

/-- At how many phases of its pause a participant has arrived that is to go on from the point. -/
def Phases.Point.arrivals (point : Phases.Point) : Option (Option Nat) → Nat
  | some none => point.rounds - 1
  | _ => point.rounds

/-- What a thread with this posture has told of these appearances. The last of them may be under way. -/
inductive Shows (m : ManagerId) (phase : Nat) : Posture → List Appearance → List Note → Prop
  | away {posture : Posture} {past : List Appearance} (absent : posture.meets = false)
      (behind : ∀ appearance ∈ past, 3 * appearance.pause + 3 ≤ phase) :
      Shows m phase posture past (past.flatMap (·.notes m))
  | within {leads : Option (List Op)} {point : Phases.Point} {arrival : Option (Option Nat)}
      {past : List Appearance} {k : Nat} (behind : ∀ appearance ∈ past, 3 * appearance.pause + 3 ≤ phase)
      (pace : 3 * k + point.passed phase arrival = phase ∨
        point.passed phase arrival = 3 ∧ 3 * k + 3 ≤ phase) :
      Shows m phase (.meeting leads point arrival) (past ++ [⟨k, leads.isSome⟩])
        (past.flatMap (·.notes m) ++
          (Appearance.notes m ⟨k, leads.isSome⟩).take (point.arrivals arrival + 1))

/-- The appearances of a thread, in the order of the pauses. -/
structure Scene.Appears (m : ManagerId) (thread : ThreadId) (history : List (ThreadId × Note))
    (s : Scene) (appearances : List Appearance) : Prop where
  ordered : appearances.Pairwise (·.pause < ·.pause)
  drives : ∀ appearance ∈ appearances,
    appearance.drives = true ↔ (thread, .invalidated m appearance.pause) ∈ history
  shows : Shows m s.core.phaser.phase (s.posture thread) appearances (shown m thread history)

section

variable {m : ManagerId} {self thread : ThreadId} {s s' : Scene} {deed : Deed}
  {history first second : List (ThreadId × Note)} {notes : List Note} {core : Core}
  {appearance : Appearance} {appearances : List Appearance} {posture : Posture} {phase : Nat}

@[simp] theorem shown_nil : shown m thread [] = [] := rfl

@[simp] theorem shown_append :
    shown m thread (first ++ second) = shown m thread first ++ shown m thread second := by
  simp [shown]

theorem shown_self : shown m self (notes.map ((self, ·))) = notes.filter (·.isAppearance m) := by
  simp [shown, List.filter_map, Function.comp_def]

theorem shown_other (ne : thread ≠ self) : shown m thread (notes.map ((self, ·))) = [] := by
  simp [shown, List.filter_map, Function.comp_def, ne.symm]

theorem mem_shown {note : Note} (appears : note.isAppearance m = true) :
    note ∈ shown m thread history ↔ (thread, note) ∈ history := by
  simp [shown, appears]

theorem joinings_eq_countP :
    joinings m thread history = (shown m thread history).countP (·.isJoining m false) := by
  unfold joinings shown
  rw [List.countP_filter, List.countP_map, List.countP_filter]
  refine List.countP_congr ?_
  rintro ⟨other, note⟩ -
  cases note <;> simp [Note.isJoining, Note.isAppearance, and_comm]

theorem countP_joined : (appearances.flatMap (·.notes m)).countP (·.isJoining m false) =
    (appearances.filter (!·.drives)).length := by
  induction appearances with
  | nil => rfl
  | cons appearance appearances ih =>
    rw [List.flatMap_cons, List.countP_append, ih, List.filter_cons]
    cases drives : appearance.drives <;>
      simp [Appearance.notes, Note.isJoining, drives, Nat.add_comm]

theorem Core.isAppearance_notes (joins : ∀ drives, deed ≠ .join drives) (arrives : deed ≠ .arrive) :
    (core.notes m self deed).filter (·.isAppearance m) = [] := by
  cases deed with
  | join drives => exact absurd rfl (joins drives)
  | arrive => exact absurd rfl arrives
  | depart =>
    simp only [Core.notes]
    split <;> simp [Note.isAppearance]
  | _ => simp [Core.notes, Note.isAppearance]

theorem Core.arrived_notes : (core.notes m self .arrive).filter (·.isAppearance m) =
    [.arrived (.registry (.manager m)) core.phaser.phase] := by
  simp only [Core.notes]
  split <;> simp [Note.isAppearance]

theorem invalidated_notMem {k : Nat} (valid : deed ≠ .invalidate) :
    (thread, Note.invalidated m k) ∉ (core.notes m self deed).map ((self, ·)) := by
  cases deed with
  | invalidate => exact absurd rfl valid
  | depart | arrive =>
    simp only [Core.notes]
    split <;> simp
  | _ => simp [Core.notes]

/-- An arrival at the phase whose turn it is goes on with what an appearance tells. -/
theorem Appearance.take_notes {round : Nat} (lt : round < 3) :
    (appearance.notes m).take (round + 1) ++
        [.arrived (.registry (.manager m)) (3 * appearance.pause + round)] =
      (appearance.notes m).take (round + 2) := by
  match round with
  | 0 | 1 | 2 => rfl

theorem Appearance.mem_notes {round : Nat} (lt : round < 3) {k : Nat} :
    .arrived (.registry (.manager m)) (3 * k + round) ∈ appearance.notes m ↔
      appearance.pause = k := by
  simp only [notes, List.mem_cons, reduceCtorEq, Note.arrived.injEq, true_and, List.not_mem_nil,
    or_false, false_or]
  omega

namespace Phases.Point

theorem arrivals_le (point : Phases.Point) (arrival : Option (Option Nat)) :
    point.arrivals arrival ≤ 3 := by
  have := point.rounds_le
  unfold arrivals
  split <;> omega

theorem passed_le_arrivals (point : Phases.Point) (phase : Nat) (arrival : Option (Option Nat)) :
    point.passed phase arrival ≤ point.arrivals arrival := by
  unfold passed arrivals
  repeat' split
  all_goals simp_all

end Phases.Point

/-- Who drives the pause that is about to begin, or has begun, can be read off the history. -/
theorem Core.Turned.invalidated_iff (turned : core.Turned m history)
    (invalid : core.epoch.valid = false) :
    (thread, .invalidated m core.epoch.generation) ∈ history ↔ core.owner = some thread := by
  obtain ⟨drivers, count, ⟨valid, -⟩ | ⟨-, driver, owner, filtered⟩⟩ := turned
  · simp [valid] at invalid
  have earlier : (thread, Note.invalidated m core.epoch.generation) ∉ turnover m drivers := fun mem => by
    have lt := mem_turnover_invalidated.mp ⟨thread, mem⟩
    omega
  have shown : (thread, Note.invalidated m core.epoch.generation) ∈ history ↔
      (thread, Note.invalidated m core.epoch.generation) ∈ history.filter (·.2.turnsToken m) := by
    simp [Note.turnsToken]
  rw [shown, filtered, owner, List.mem_append, List.mem_singleton]
  simp [earlier, eq_comm]

/-- While the epoch is invalidated, its successor is not there. -/
theorem Scene.Lawful.generation_of_stale (lawful : s.Lawful) (stale : s.core.epoch.valid = false) :
    s.core.epoch.generation = s.core.pauses := by
  have owned : s.core.owner ≠ none := fun free => by simp [(lawful.rests free).valid] at stale
  obtain ⟨driver, owner⟩ := Option.ne_none_iff_exists'.mp owned
  have admits := lawful.admits driver
  have demands := admits.demands (admits.owner.mpr owner)
  have of_stands {valid ahead action round} (stands : s.core.Stands valid ahead action round)
      (valid_of : valid = false → ahead = 0) : s.core.epoch.generation = s.core.pauses := by
    rw [stands.generation, valid_of (stands.valid.symm.trans stale), Nat.add_zero]
  generalize s.posture driver = posture at demands
  unfold Posture.Demands at demands
  split at demands <;> refine of_stands demands fun invalid => ?_
  all_goals simp_all

theorem Phases.Point.rounds_pos {point : Phases.Point} (begun : point ≠ .first) : 0 < point.rounds := by
  cases point <;> first | exact absurd rfl begun | decide

namespace Shows

variable {leads : Option (List Op)} {point point' : Phases.Point} {arrival arrival' : Option (Option Nat)}
  {before after : Posture} {log : List Note} {phase' : Nat}

theorem behind (shows : Shows m phase before appearances log) (away : before.meets = false) :
    log = appearances.flatMap (·.notes m) ∧
      ∀ appearance ∈ appearances, 3 * appearance.pause + 3 ≤ phase := by
  cases shows with
  | away _ behind => exact ⟨rfl, behind⟩
  | within => simp [Posture.meets] at away

theorem rest (shows : Shows m phase before appearances log) (away : before.meets = false)
    (away' : after.meets = false) (grows : phase ≤ phase') :
    Shows m phase' after appearances log := by
  obtain ⟨rfl, behind⟩ := shows.behind away
  exact .away away' fun appearance mem => (behind appearance mem).trans grows

theorem enter {k : Nat} (shows : Shows m phase before appearances log) (leads : Option (List Op))
    (away : before.meets = false) (begins : phase = 3 * k) : Shows m phase (.meeting leads .first none)
      (appearances ++ [⟨k, leads.isSome⟩]) (log ++ [.joined m leads.isSome]) := by
  obtain ⟨rfl, behind⟩ := shows.behind away
  exact .within behind (.inl begins.symm)

/-- A participant goes on without arriving. -/
theorem go (shows : Shows m phase (.meeting leads point arrival) appearances log)
    (passed : point'.passed phase arrival' = point.passed phase arrival)
    (arrivals : point'.arrivals arrival' = point.arrivals arrival) :
    Shows m phase (.meeting leads point' arrival') appearances log := by
  cases shows with
  | away away => simp [Posture.meets] at away
  | within behind pace =>
    rw [← arrivals]
    exact .within behind (passed ▸ pace)

theorem arrive (shows : Shows m phase (.meeting leads point (some none)) appearances log)
    (begun : point ≠ .first)
    (goes : phase' = phase ∧ arrival' = some (some phase) ∨ phase' = phase + 1 ∧ arrival' = none) :
    Shows m phase' (.meeting leads point arrival') appearances
      (log ++ [.arrived (.registry (.manager m)) phase]) := by
  have most := point.rounds_le
  obtain ⟨round, rounds⟩ := Nat.exists_eq_succ_of_ne_zero (Nat.ne_of_gt (point.rounds_pos begun))
  cases shows with
  | away away => simp [Posture.meets] at away
  | @within _ _ _ past k behind pace =>
    simp only [Phases.Point.passed, rounds, Nat.succ_sub_one] at pace
    have now : phase = 3 * k + round := by omega
    have arrivals : point.arrivals arrival' = round + 1 := by
      obtain ⟨-, rfl⟩ | ⟨-, rfl⟩ := goes <;> exact rounds
    have told : (Appearance.notes m ⟨k, leads.isSome⟩).take (point.arrivals (some none) + 1) ++
        [.arrived (.registry (.manager m)) phase] =
          (Appearance.notes m ⟨k, leads.isSome⟩).take (point.arrivals arrival' + 1) := by
      simp only [Phases.Point.arrivals, rounds, Nat.succ_sub_one] at arrivals ⊢
      rw [arrivals, now]
      exact Appearance.take_notes (by omega)
    rw [List.append_assoc, told]
    refine .within (fun appearance mem => (behind appearance mem).trans (by omega)) (.inl ?_)
    obtain ⟨rfl, rfl⟩ | ⟨rfl, rfl⟩ := goes
    · simp only [Phases.Point.passed, if_true, rounds]
      omega
    · simp only [Phases.Point.passed, rounds]
      omega

theorem leave (shows : Shows m phase (.meeting leads .finish none) appearances log)
    (away : after.meets = false) : Shows m phase after appearances log := by
  cases shows with
  | away away => simp [Posture.meets] at away
  | @within _ _ _ past k behind pace =>
    have whole : past.flatMap (·.notes m) ++ (Appearance.notes m ⟨k, leads.isSome⟩).take
        (Phases.Point.arrivals .finish none + 1) =
          (past ++ [(⟨k, leads.isSome⟩ : Appearance)]).flatMap (·.notes m) := by
      simp [Phases.Point.arrivals, Phases.Point.rounds, Appearance.notes]
    rw [whole]
    refine .away away fun appearance mem => ?_
    obtain mem | last := List.mem_append.mp mem
    · exact behind appearance mem
    · obtain rfl := List.mem_singleton.mp last
      simp only [Phases.Point.passed, Phases.Point.rounds] at pace
      show 3 * k + 3 ≤ phase
      omega

/-- What others do leaves a thread where it is in its pause. -/
theorem other (shows : Shows m phase before appearances log)
    (turns : phase' = phase ∨ phase' = phase + 1 ∧
      (before.meets = true → before.hasArrived phase = true))
    (begun : ∀ {leads point arrival}, before = .meeting leads point arrival → arrival ≠ none →
      point ≠ .first) : Shows m phase' before appearances log := by
  obtain rfl | ⟨rfl, arrived⟩ := turns
  · exact shows
  cases shows with
  | away away behind => exact .away away fun appearance mem => (behind appearance mem).trans (by omega)
  | @within leads point arrival past k behind pace =>
    obtain ⟨_, _, same⟩ := Posture.hasArrived_iff.mp (arrived rfl)
    obtain ⟨rfl, rfl, rfl⟩ := Posture.meeting.inj same
    have most := point.rounds_le
    have some := point.rounds_pos (begun rfl (by simp))
    refine .within (fun appearance mem => (behind appearance mem).trans (by omega)) (.inl ?_)
    simp only [Phases.Point.passed, if_true] at pace
    simp only [Phases.Point.passed, if_neg (Nat.ne_of_lt (Nat.lt_succ_self phase))]
    omega

/-- A thread that is in no pause may join one, and one that is in a pause goes on with it. -/
theorem own (shows : Shows m core.phaser.phase before appearances log) (admits : core.Admits self before)
    (grows : core.phaser.phase ≤ (core.after self deed).phaser.phase)
    (advances : Advances core self before deed after) :
    (∀ drives, deed ≠ .join drives) ∧ Shows m (core.after self deed).phaser.phase after appearances
        (log ++ (core.notes m self deed).filter (·.isAppearance m)) ∨
      ∃ drives, deed = .join drives ∧ (∀ appearance ∈ appearances, appearance.pause < core.pauses) ∧
        Shows m (core.after self deed).phaser.phase after (appearances ++ [⟨core.pauses, drives⟩])
          (log ++ (core.notes m self deed).filter (·.isAppearance m)) := by
  have told (drives : Bool) :
      (core.notes m self (.join drives)).filter (·.isAppearance m) = [.joined m drives] := by
    simp [Core.notes, Note.isAppearance]
  have past (away : before.meets = false) (begins : core.phaser.phase = 3 * core.pauses) :
      ∀ appearance ∈ appearances, appearance.pause < core.pauses := by
    intro appearance mem
    have := (shows.behind away).2 appearance mem
    omega
  have stays (next : Shows m (core.after self deed).phaser.phase after appearances log)
      (joins : ∀ drives, deed ≠ .join drives) (arrives : deed ≠ .arrive) :
      (∀ drives, deed ≠ .join drives) ∧ Shows m (core.after self deed).phaser.phase after appearances
        (log ++ (core.notes m self deed).filter (·.isAppearance m)) := by
    rw [Core.isAppearance_notes joins arrives, List.append_nil]
    exact ⟨joins, next⟩
  cases advances with
  | join present =>
    obtain ⟨-, begins⟩ := admits.called rfl present
    refine .inr ⟨false, rfl, past rfl begins, ?_⟩
    rw [told]
    exact shows.enter none rfl begins
  | @lead action =>
    have stands : core.Stands false 0 (some action) 0 := admits.demands rfl
    refine .inr ⟨true, rfl, past rfl stands.phase, ?_⟩
    rw [told]
    exact shows.enter (some action) rfl stands.phase
  | wait early =>
    refine .inl ⟨by simp, ?_⟩
    rw [Core.arrived_notes]
    exact shows.arrive ((admits.meets rfl).begun (by simp)).1
      (.inl ⟨by simp [Core.after, Phaser.arrive_phase, early], rfl⟩)
  | complete last =>
    refine .inl ⟨by simp, ?_⟩
    rw [Core.arrived_notes]
    exact shows.arrive ((admits.meets rfl).begun (by simp)).1
      (.inr ⟨by simp [Core.after, Phaser.arrive_phase, last], rfl⟩)
  | approach arrives =>
    refine .inl (stays (shows.go ?_ ?_) (by simp) (by simp)) <;> cases arrives <;> rfl
  | wake ended =>
    exact .inl (stays (shows.go (if_neg (Ne.symm ended)).symm rfl) (by simp) (by simp))
  | republish | start | decline => exact .inl (stays (shows.go rfl rfl) (by simp) (by simp))
  | part | close => exact .inl (stays (shows.leave rfl) (by simp) (by simp))
  | stay => exact .inl (stays shows (by simp) (by simp))
  | _ => exact .inl (stays (shows.rest rfl rfl grows) (by simp) (by simp))

/-- Whoever is in a pause while none is under way has arrived at all of its phases. -/
theorem complete (shows : Shows m core.phaser.phase before appearances log)
    (admits : core.Admits self before) (rests : core.Rests) :
    log = appearances.flatMap (·.notes m) := by
  cases shows with
  | away => rfl
  | @within leads point arrival past k behind pace =>
    have meets := admits.meets rfl
    have phase := rests.phase
    have passed : point.passed core.phaser.phase arrival = 3 := by
      obtain same | ⟨ended, -⟩ := meets.pace
      · have stale := meets.opening (by omega)
        simp [rests.valid] at stale
      · exact ended
    have all : point.arrivals arrival = 3 := by
      have := point.passed_le_arrivals core.phaser.phase arrival
      have := point.arrivals_le arrival
      omega
    simp [all, Appearance.notes]

/-- A pause that is about to begin is none that the thread has been through. -/
theorem pause_ne (shows : Shows m core.phaser.phase before appearances log)
    (admits : core.Admits self before) (advances : Advances core self before .invalidate after) :
    ∀ appearance ∈ appearances, appearance.pause ≠ core.epoch.generation := by
  cases advances with
  | @invalidate action =>
    have stands : core.Stands true 0 (some action) 0 := admits.demands rfl
    have phase := stands.phase
    have generation := stands.generation
    intro appearance mem
    have := (shows.behind rfl).2 appearance mem
    omega

end Shows

/-- Whoever comes to the phases of a pause drives it if it has begun it. -/
theorem Scene.Lawful.drives_iff {drives : Bool} (lawful : s.Lawful) (turned : s.core.Turned m history)
    (moves : s.Moves thread (.join drives) s') :
    drives = true ↔ (thread, .invalidated m s.core.pauses) ∈ history := by
  have admits := lawful.admits thread
  have advances := moves.advances
  generalize s.posture thread = before at admits advances
  generalize s'.posture thread = after at advances
  have stale : s.core.epoch.valid = false := by
    cases advances with
    | join present => exact (admits.called rfl present).1
    | @lead action =>
      have stands : s.core.Stands false 0 (some action) 0 := admits.demands rfl
      exact stands.valid
  rw [← lawful.generation_of_stale stale, turned.invalidated_iff stale, ← admits.owner]
  cases advances <;> simp [Posture.owns]

namespace Scene.Appears

theorem step (appears : s.Appears m thread history appearances) (lawful : s.Lawful)
    (turned : s.core.Turned m history) (moves : s.Moves self deed s') : ∃ appearances,
      s'.Appears m thread (history ++ (s.core.notes m self deed).map ((self, ·))) appearances := by
  obtain ⟨ordered, drives, shows⟩ := appears
  have admits := lawful.admits thread
  have phases := lawful.phase_cases moves
  by_cases same : thread = self
  · subst same
    have grows : s.core.phaser.phase ≤ s'.core.phaser.phase := by
      obtain same | ⟨next, -⟩ := phases <;> omega
    have next := shows.own admits (moves.core ▸ grows) moves.advances
    rw [← moves.core, ← shown_self, ← shown_append] at next
    obtain ⟨joins, shows'⟩ | ⟨leads, rfl, past, shows'⟩ := next
    · refine ⟨appearances, ordered, fun appearance mem => ?_, shows'⟩
      rw [drives appearance mem, List.mem_append]
      refine (or_iff_left fun told => ?_).symm
      by_cases valid : deed = .invalidate
      · subst valid
        have number : appearance.pause = s.core.epoch.generation := by simpa [Core.notes] using told
        exact shows.pause_ne admits moves.advances appearance mem number
      · exact invalidated_notMem valid told
    · refine ⟨_, ?_, fun appearance mem => ?_, shows'⟩
      · refine List.pairwise_append.mpr
          ⟨ordered, List.pairwise_singleton .., fun earlier mem last here => ?_⟩
        obtain rfl := List.mem_singleton.mp here
        exact past earlier mem
      · rw [List.mem_append, or_iff_left (invalidated_notMem (by simp))]
        obtain mem | new := List.mem_append.mp mem
        · exact drives appearance mem
        · obtain rfl := List.mem_singleton.mp new
          exact lawful.drives_iff turned moves
  · refine ⟨appearances, ordered, fun appearance mem => ?_, ?_⟩
    · rw [drives appearance mem, List.mem_append]
      simp [Ne.symm same]
    · rw [shown_append, shown_other same, List.append_nil, moves.others thread same]
      refine shows.other (phases.imp_right ?_) fun meets some => ((admits.meets meets).begun some).1
      rintro ⟨next, -, all⟩
      refine ⟨next, fun meets => all thread same (.inl (admits.relies ?_))⟩
      cases posture : s.posture thread <;> simp [posture, Posture.meets, Posture.relies] at meets ⊢

section

variable (appears : s.Appears m thread history appearances)
  (complete : shown m thread history = appearances.flatMap (·.notes m))

include complete in
theorem goes_through_iff {k : Nat} :
    GoesThrough m k thread history ↔ ∃ appearance ∈ appearances, appearance.pause = k := by
  have arrived {round : Nat} (lt : round < 3) :
      (thread, .arrived (.registry (.manager m)) (3 * k + round)) ∈ history ↔
        ∃ appearance ∈ appearances, appearance.pause = k := by
    rw [← mem_shown (m := m) (by simp [Note.isAppearance]), complete, List.mem_flatMap]
    simp only [Appearance.mem_notes lt]
  exact ⟨fun goes => (arrived (by omega)).mp (goes 0 (by omega)), fun mem round lt =>
    (arrived lt).mpr mem⟩

include appears complete in
/-- As often as a thread joins a pause of another one, it goes through that. -/
theorem joinings_eq : ∃ pauses : Finset Nat, pauses.card = joinings m thread history ∧
    ∀ k, k ∈ pauses ↔ GoesThrough m k thread history ∧ (thread, .invalidated m k) ∉ history := by
  have distinct : ((appearances.filter (!·.drives)).map (·.pause)).Nodup :=
    List.pairwise_map.mpr ((appears.ordered.filter _).imp Nat.ne_of_lt)
  refine ⟨((appearances.filter (!·.drives)).map (·.pause)).toFinset, ?_, fun k => ?_⟩
  · rw [List.toFinset_card_of_nodup distinct, List.length_map, joinings_eq_countP, complete,
      countP_joined]
  · rw [List.mem_toFinset, List.mem_map, goes_through_iff complete]
    constructor
    · rintro ⟨appearance, mem, rfl⟩
      obtain ⟨mem, follows⟩ := List.mem_filter.mp mem
      refine ⟨⟨appearance, mem, rfl⟩, fun drives => ?_⟩
      simp [(appears.drives appearance mem).mpr drives] at follows
    · rintro ⟨⟨appearance, mem, rfl⟩, follows⟩
      refine ⟨appearance, List.mem_filter.mpr ⟨mem, ?_⟩, rfl⟩
      rw [Bool.not_eq_true', Bool.eq_false_iff]
      exact fun drives => follows ((appears.drives appearance mem).mp drives)

end

end Scene.Appears

theorem Course.appears {w v : World} {moments : List Moment} (fresh : w.IsFresh m)
    (course : Course (Orderly m) w moments v) (thread : ThreadId) :
    ∃ appearances, (v.scene m).Appears m thread (told m moments) appearances := by
  have start : (w.scene m).Appears m thread [] [] := by
    refine ⟨.nil, by simp, .away ?_ (by simp)⟩
    simp [World.scene, World.posture, fresh.idle, Posture.meets]
  have turned : (w.core m).Turned m [] := Course.nil.turned fresh
  refine (course.tells (P := fun history s => s.core.Turned m history ∧
    ∃ appearances, s.Appears m thread history appearances) (fun lawful kept moves => ?_) fresh.coherent
    ⟨turned, [], start⟩).2
  obtain ⟨turned, appearances, appears⟩ := kept
  exact ⟨lawful.turned turned moves, appears.step lawful turned moves⟩

/-- When no pause is under way, a thread has joined the pauses of others as often as there are any that
it has gone through. -/
theorem Course.joinings_eq {w v : World} {moments : List Moment} (fresh : w.IsFresh m)
    (course : Course (Orderly m) w moments v) (free : (v.manager m).pauseLock.owner = none)
    (thread : ThreadId) : ∃ pauses : Finset Nat,
      pauses.card = joinings m thread (observations moments) ∧
      ∀ k, k ∈ pauses ↔ GoesThrough m k thread (observations moments) ∧
        (thread, .invalidated m k) ∉ observations moments := by
  obtain ⟨appearances, appears⟩ := course.appears fresh thread
  have lawful := (course.coherent fresh.coherent).lawful
  have complete := appears.shows.complete (lawful.admits thread) (lawful.rests free)
  obtain ⟨pauses, card, mem⟩ := appears.joinings_eq complete
  have mem_told {note : Note} (tells : note.tellsOf m = true) :
      (thread, note) ∈ told m moments ↔ (thread, note) ∈ observations moments := by
    simp [told, tells]
  have arrived (phase : Nat) : (thread, .arrived (.registry (.manager m)) phase) ∈ told m moments ↔
      (thread, .arrived (.registry (.manager m)) phase) ∈ observations moments :=
    mem_told (by simp [Note.tellsOf])
  refine ⟨pauses, ?_, fun k => ?_⟩
  · rw [card, joinings, told, List.countP_filter]
    refine List.countP_congr ?_
    rintro ⟨other, note⟩ -
    cases note <;> simp +contextual [Note.isJoining, Note.tellsOf]
  · rw [mem, mem_told (by simp [Note.tellsOf])]
    unfold GoesThrough
    simp only [arrived]

end

end StopTheWorld
