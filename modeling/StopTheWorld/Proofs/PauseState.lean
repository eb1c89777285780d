import StopTheWorld.Proofs.Coherent

namespace StopTheWorld

/-! The state of a manager between pauses and within one, and the tokens of its epochs. -/

/-- No pause is under way and none is owed. -/
structure Manager.AtRest (manager : Manager) : Prop where
  valid : manager.epoch.valid = true
  action : manager.action = none
  arrived : manager.registry.phaser.arrived = 0
  phase : manager.registry.phaser.phase = 3 * manager.epoch.generation
  pauses : manager.statistics.pauses = manager.epoch.generation

/-- The note tells that a token was invalidated or published. -/
def Note.turnsToken (m : ManagerId) : Note → Bool
  | invalidated n _ | republished n _ => n = m
  | _ => false

/-- The note tells of a step of a registration. -/
def Note.registers (m : ManagerId) : Note → Bool
  | registered phaser => phaser = .registry (.manager m)
  | inserted registry _ => registry = .manager m
  | _ => false

/-- What is told of the tokens when these threads have driven pauses, one after the other. -/
def turnover (m : ManagerId) (drivers : List ThreadId) : List (ThreadId × Note) :=
  drivers.zipIdx.flatMap fun (driver, k) =>
    [(driver, .invalidated m k), (driver, .republished m (k + 1))]

/-- The first token is there from the start. -/
def Published (m : ManagerId) (moments : List Moment) (k : Nat) : Prop :=
  k = 0 ∨ ∃ thread, (thread, Note.republished m k) ∈ observations moments

def Invalidated (m : ManagerId) (moments : List Moment) (k : Nat) : Prop :=
  ∃ thread, (thread, Note.invalidated m k) ∈ observations moments

/-- Each token is invalidated by the driver of a pause, who then publishes its successor, and in
between owns the pause lock. -/
def Core.Turned (m : ManagerId) (core : Core) (history : List (ThreadId × Note)) : Prop :=
  ∃ drivers : List ThreadId, drivers.length = core.epoch.generation ∧
    (core.epoch.valid = true ∧ history.filter (·.2.turnsToken m) = turnover m drivers ∨
      core.epoch.valid = false ∧ ∃ driver, core.owner = some driver ∧
        history.filter (·.2.turnsToken m) =
          turnover m drivers ++ [(driver, .invalidated m core.epoch.generation)])

section

variable {m : ManagerId} {w v : World} {moments : List Moment}

theorem turnover_concat (drivers : List ThreadId) (driver : ThreadId) :
    turnover m (drivers ++ [driver]) =
      turnover m drivers ++ [(driver, .invalidated m drivers.length),
        (driver, .republished m (drivers.length + 1))] := by
  simp [turnover, List.zipIdx_append]

theorem mem_turnover_republished {drivers : List ThreadId} {k : Nat} :
    (∃ thread, (thread, Note.republished m k) ∈ turnover m drivers) ↔
      0 < k ∧ k ≤ drivers.length := by
  induction drivers using List.reverseRecOn with
  | nil => simp [turnover]; omega
  | append_singleton drivers driver ih =>
    simp only [turnover_concat, List.mem_append, exists_or, ih, List.length_append,
      List.length_singleton]
    simp
    omega

theorem mem_turnover_invalidated {drivers : List ThreadId} {k : Nat} :
    (∃ thread, (thread, Note.invalidated m k) ∈ turnover m drivers) ↔ k < drivers.length := by
  induction drivers using List.reverseRecOn with
  | nil => simp [turnover]
  | append_singleton drivers driver ih =>
    simp only [turnover_concat, List.mem_append, exists_or, ih, List.length_append,
      List.length_singleton]
    simp
    omega

theorem Scene.Lawful.turned {s s' : Scene} {thread : ThreadId} {deed : Deed}
    {history : List (ThreadId × Note)} (lawful : s.Lawful) (turned : s.core.Turned m history)
    (moves : s.Moves thread deed s') :
    s'.core.Turned m (history ++ (s.core.notes m thread deed).map ((thread, ·))) := by
  obtain ⟨drivers, count, state⟩ := turned
  have admits := lawful.admits thread
  have advances := moves.advances
  rw [moves.core]
  generalize s.posture thread = before at advances admits
  generalize s'.posture thread = after at advances
  have stale (rests : s.core.Rests) : s.core.epoch.valid ≠ false := by
    simp [rests.valid]
  have kept (epoch : (s.core.after thread deed).epoch = s.core.epoch)
      (silent : ((s.core.notes m thread deed).map ((thread, ·))).filter (·.2.turnsToken m) = [])
      (owner : s.core.epoch.valid = false → (s.core.after thread deed).owner = s.core.owner) :
      (s.core.after thread deed).Turned m
        (history ++ (s.core.notes m thread deed).map ((thread, ·))) := by
    refine ⟨drivers, by rw [epoch, count], ?_⟩
    rw [List.filter_append, silent, List.append_nil, epoch]
    refine state.imp_right ?_
    intro ⟨invalid, held⟩
    rw [owner invalid]
    exact ⟨invalid, held⟩
  cases advances with
  | invalidate =>
    have stands : s.core.Stands true 0 _ 0 := admits.demands rfl
    have filtered := (state.resolve_right (by simp [stands.valid])).2
    refine ⟨drivers, count, .inr ⟨rfl, thread, admits.owner.mp rfl, ?_⟩⟩
    rw [List.filter_append, filtered]
    simp [Core.notes, Core.after, Note.turnsToken]
  | republish =>
    have stands : s.core.Stands false 0 _ 1 := admits.demands rfl
    obtain ⟨-, driver, owner, filtered⟩ := state.resolve_left (by simp [stands.valid])
    have owned : s.core.owner = some thread := admits.owner.mp rfl
    obtain rfl : driver = thread := Option.some.inj (owner.symm.trans owned)
    refine ⟨drivers ++ [driver], by simp [Core.after, count], .inl ⟨rfl, ?_⟩⟩
    rw [List.filter_append, filtered, turnover_concat, count]
    simp [Core.notes, Note.turnsToken]
  | drive free | own free =>
    exact kept rfl (by simp [Core.notes, Note.turnsToken])
      fun invalid => absurd invalid (stale (lawful.rests free))
  | free =>
    exact kept rfl (by simp [Core.notes, Note.turnsToken])
      fun invalid => absurd invalid (stale (admits.demands rfl))
  | wait early =>
    exact kept rfl (by simp [Core.notes, Note.turnsToken, early]) fun _ => rfl
  | complete last =>
    exact kept rfl (by simp [Core.notes, Note.turnsToken, last]) fun _ => rfl
  | depart =>
    refine kept rfl ?_ fun _ => rfl
    simp only [Core.notes]
    split <;> simp [Note.turnsToken]
  | _ => exact kept rfl (by simp [Core.notes, Note.turnsToken]) fun _ => rfl

theorem Course.turned (course : Course (Orderly m) w moments v) (fresh : w.IsFresh m) :
    (v.core m).Turned m (told m moments) := by
  refine course.tells (P := fun history s => s.core.Turned m history)
    (fun lawful turned moves => lawful.turned turned moves) fresh.coherent ?_
  refine ⟨[], ?_, .inl ⟨?_, rfl⟩⟩ <;>
    simp [World.scene, World.core, Manager.core, fresh.new.epoch, Epoch.first]

theorem published_iff {k : Nat} : Published m moments k ↔
    k = 0 ∨ ∃ thread, (thread, Note.republished m k) ∈
      (told m moments).filter (·.2.turnsToken m) := by
  simp [Published, told, Note.turnsToken, Note.tellsOf]

theorem invalidated_iff {k : Nat} : Invalidated m moments k ↔
    ∃ thread, (thread, Note.invalidated m k) ∈
      (told m moments).filter (·.2.turnsToken m) := by
  simp [Invalidated, told, Note.turnsToken, Note.tellsOf]

/-- A token is valid as long as it is published and not invalidated, and only the one at hand can
be. -/
theorem Core.Turned.valid_iff {core : Core} (turned : core.Turned m (told m moments)) (k : Nat) :
    Published m moments k ∧ ¬ Invalidated m moments k ↔
      k = core.epoch.generation ∧ core.epoch.valid = true := by
  rw [published_iff, invalidated_iff]
  obtain ⟨drivers, count, ⟨valid, filtered⟩ | ⟨invalid, driver, -, filtered⟩⟩ := turned
  · rw [filtered, mem_turnover_republished, mem_turnover_invalidated, count]
    simp only [valid, and_true]
    omega
  · have last : (∃ thread, (thread, Note.invalidated m k) ∈
        turnover m drivers ++ [(driver, .invalidated m core.epoch.generation)]) ↔
        k ≤ core.epoch.generation := by
      simp only [List.mem_append, exists_or, mem_turnover_invalidated, count]
      simp
      omega
    have earlier : (∃ thread, (thread, Note.republished m k) ∈
        turnover m drivers ++ [(driver, .invalidated m core.epoch.generation)]) ↔
        0 < k ∧ k ≤ core.epoch.generation := by
      simp only [List.mem_append, exists_or, mem_turnover_republished, count]
      simp
    rw [filtered, last, earlier]
    simp only [invalid, Bool.false_eq_true, and_false, iff_false]
    omega

theorem World.Coherent.atRest (coherent : v.Coherent m) (free : (v.manager m).pauseLock.IsFree) :
    (v.manager m).AtRest := by
  have rests : (v.core m).Rests := coherent.lawful.rests free
  have generation : (v.manager m).epoch.generation = (v.manager m).statistics.pauses :=
    rests.generation
  have phase : (v.manager m).registry.phaser.phase = 3 * (v.manager m).statistics.pauses :=
    rests.phase
  refine ⟨rests.valid, rests.action, ?_, by rw [phase, generation], generation.symm⟩
  cases arrived : (v.manager m).registry.phaser.arrived with
  | zero => rfl
  | succ n =>
    have some : 0 < (v.scene m).core.phaser.arrived := arrived ▸ Nat.succ_pos n
    exact absurd rests (coherent.lawful.gathers_of_arrived some).not_rests

theorem Scene.Lawful.generation {s : Scene} (lawful : s.Lawful) :
    s.core.epoch.generation = s.core.pauses ∨ s.core.epoch.generation = s.core.pauses + 1 := by
  have of_stands {valid ahead action round} (stands : s.core.Stands valid ahead action round)
      (le : ahead ≤ 1) : s.core.epoch.generation = s.core.pauses ∨
        s.core.epoch.generation = s.core.pauses + 1 := by
    have := stands.generation
    omega
  cases owner : s.core.owner with
  | none => exact of_stands (lawful.rests owner) (by omega)
  | some driver =>
    have admits := lawful.admits driver
    have demands := admits.demands (admits.owner.mpr owner)
    generalize s.posture driver = posture at demands
    unfold Posture.Demands at demands
    split at demands
    case h_9 => exact of_stands demands (by split <;> omega)
    all_goals exact of_stands demands (by omega)

theorem Scene.Lawful.valid_of_registers {s s' : Scene} {thread : ThreadId} {deed : Deed}
    {note : Note} (lawful : s.Lawful) (moves : s.Moves thread deed s')
    (mem : note ∈ s.core.notes m thread deed) (registers : note.registers m = true) :
    s.core.epoch.valid = true := by
  have admits := lawful.admits thread
  have advances := moves.advances
  generalize s.posture thread = before at advances admits
  generalize s'.posture thread = after at advances
  cases advances with
  | claim | insert =>
    have rests : s.core.Rests := admits.demands rfl
    exact rests.valid
  | depart =>
    simp only [Core.notes, List.mem_cons] at mem
    rcases mem with rfl | mem
    · simp [Note.registers] at registers
    · split at mem <;> simp_all [Note.registers]
  | wait early => simp_all [Core.notes, Note.registers]
  | complete last =>
    simp only [Core.notes, last, if_true, List.mem_cons, List.not_mem_nil, or_false] at mem
    rcases mem with rfl | rfl <;> simp [Note.registers] at registers
  | _ => simp_all [Core.notes, Note.registers]

theorem World.Coherent.valid_of_registers {move : Move} {notes : List Note} {note : Note}
    (coherent : w.Coherent m) (orderly : ∀ thread, move = .run thread → Orderly m w thread)
    (moves : w.move move = some (v, notes)) (mem : note ∈ notes)
    (registers : note.registers m = true) : (w.manager m).epoch.valid = true := by
  have tells : note.tellsOf m = true := by
    cases note <;> simp_all [Note.registers, Note.tellsOf]
  obtain ⟨thread, deed, -, moves, told⟩ := coherent.telling orderly moves mem tells
  exact coherent.lawful.valid_of_registers moves told registers

/-- The state of a manager and the life of its tokens, in every world that its threads can come
to. -/
theorem pause_state (fresh : w.IsFresh m) (course : Course (Orderly m) w moments v) :
    ((v.manager m).pauseLock.IsFree → (v.manager m).AtRest) ∧
    ((v.manager m).epoch.generation = (v.manager m).statistics.pauses ∨
      (v.manager m).epoch.generation = (v.manager m).statistics.pauses + 1) ∧
    (∃ drivers : List ThreadId, drivers.length = (v.manager m).epoch.generation ∧
      ((v.manager m).epoch.valid = true ∧
          (observations moments).filter (·.2.turnsToken m) = turnover m drivers ∨
        (v.manager m).epoch.valid = false ∧ ∃ driver, (v.manager m).pauseLock.owner = some driver ∧
          (observations moments).filter (·.2.turnsToken m) =
            turnover m drivers ++
              [(driver, .invalidated m (v.manager m).epoch.generation)])) ∧
    (∀ moment ∈ moments, ∀ note ∈ moment.notes, note.registers m = true →
      (moment.world.manager m).epoch.valid = true) ∧
    ∀ k, Published m moments k ∧ ¬ Invalidated m moments k ↔
      k = (v.manager m).epoch.generation ∧ (v.manager m).epoch.valid = true := by
  have coherent := course.coherent fresh.coherent
  have turned := course.turned fresh
  refine ⟨coherent.atRest, coherent.lawful.generation, ?_, ?_, turned.valid_iff⟩
  · have filtered : (told m moments).filter (·.2.turnsToken m) =
        (observations moments).filter (·.2.turnsToken m) := by
      refine told_filter fun entry turns => ?_
      obtain ⟨thread, note⟩ := entry
      cases note <;> simp_all [Note.turnsToken, Note.tellsOf]
    rw [← filtered]
    exact turned
  · intro moment mem note noted registers
    obtain ⟨pre, post, parts⟩ := List.append_of_mem mem
    obtain ⟨next, before, orderly, moved, -⟩ := course.split parts
    exact (before.coherent fresh.coherent).valid_of_registers orderly moved noted registers

/-- After the pause of two threads, the second token is the valid one. -/
theorem pause_state_pauseOfTwo : ∃ moments v,
    World.pair.IsFresh 0 ∧ Course (Orderly 0) World.pair moments v ∧ (v.manager 0).AtRest ∧
      Published 0 moments 1 ∧ ¬ Invalidated 0 moments 1 := by
  have made : (World.pair.follow (World.isOrderly 0) pauseOfTwo).any (fun made =>
      (made.2.manager 0).pauseLock.owner.isNone && (made.2.manager 0).epoch = ⟨1, true⟩) =
        true := by
    decide +kernel
  obtain ⟨⟨moments, v⟩, follows, state⟩ := (Option.any_eq_true _ _).mp made
  simp only [Bool.and_eq_true, Option.isNone_iff_eq_none, decide_eq_true_eq] at state
  have course := World.course_of_follow (World.orderly_of_isOrderly 0) follows
  obtain ⟨rest, -, -, -, token⟩ := pause_state World.pair_isFresh course
  have valid := (token 1).mpr (by simp [state.2])
  exact ⟨moments, v, World.pair_isFresh, course, rest state.1, valid⟩

end

end StopTheWorld
