import StopTheWorld.Proofs.Protocol

namespace StopTheWorld

/-! The invariant of the protocol: what the posture of each thread says about the manager. -/

namespace Phases.Point

/-- How many phases of its pause are over for a participant that stands at the point. -/
def rounds : Phases.Point → Nat
  | first => 0
  | republish | second => 1
  | choose | third => 2
  | finish => 3

/-- The fresh epoch is there once the driver has come to the point. -/
def isFresh : Phases.Point → Bool
  | first | republish => false
  | _ => true

/-- How many phases are over for a participant that is to go on from the point, in a given phase of
the phaser. One that is still arriving has one less behind it. -/
def passed (phase : Nat) (point : Phases.Point) : Option (Option Nat) → Nat
  | none => point.rounds
  | some none => point.rounds - 1
  | some (some recorded) => if recorded = phase then point.rounds - 1 else point.rounds

theorem rounds_le (point : Phases.Point) : point.rounds ≤ 3 := by
  cases point <;> decide

theorem passed_le (phase : Nat) (point : Phases.Point) (arrival : Option (Option Nat)) :
    point.passed phase arrival ≤ point.rounds := by
  unfold passed
  split <;> try split
  all_goals omega

end Phases.Point

/-- The epoch, its lead over the number of pauses, the action, and how far the phaser has come since
the last pause. -/
structure Core.Stands (core : Core) (valid : Bool) (ahead : Nat) (action : Option (List Op))
    (round : Nat) : Prop where
  valid : core.epoch.valid = valid
  generation : core.epoch.generation = core.pauses + ahead
  action : core.action = action
  phase : core.phaser.phase = 3 * core.pauses + round

/-- No pause is under way. -/
abbrev Core.Rests (core : Core) : Prop := core.Stands true 0 none 0

namespace Posture

def owns : Posture → Bool
  | owning | claiming | driving _ _ | meeting (some _) _ _ => true
  | _ => false

/-- The thread has a party and no entry. -/
def isHalfway : Posture → Bool
  | claiming | departing => true
  | _ => false

def meets : Posture → Bool
  | meeting _ _ _ => true
  | _ => false

/-- The thread counts on being registered. -/
def relies : Posture → Bool
  | meeting _ _ _ => true
  | driving _ point => point.relies
  | _ => false

/-- The thread has arrived at the phase and waits for it to be over. -/
def hasArrived (phase : Nat) : Posture → Bool
  | meeting _ _ (some (some recorded)) => recorded = phase
  | _ => false

theorem hasArrived_iff {posture : Posture} {phase : Nat} :
    posture.hasArrived phase = true ↔
      ∃ leads point, posture = .meeting leads point (some (some phase)) := by
  unfold Posture.hasArrived
  split <;> simp_all

/-- What the manager is like while the thread that owns the pause lock has this posture. -/
def Demands (core : Core) : Posture → Prop
  | driving action .invalidate => core.Stands true 0 (some action) 0
  | driving action .wakeWaiters | driving action .interrupt | driving action .leaveGlobal
  | driving action .enterPhases => core.Stands false 0 (some action) 0
  | driving action .exitPhases | driving action .clear => core.Stands true 1 (some action) 3
  | driving _ .account => core.Stands true 1 none 3
  | meeting (some action) point arrival =>
    core.Stands point.isFresh (if point.isFresh then 1 else 0) (some action)
      (point.passed core.phaser.phase arrival)
  | _ => core.Rests

end Posture

/-- A participant keeps pace with the phaser, except that the next pause may begin before it has
come back from the third phase. -/
structure Core.Meets (core : Core) (point : Phases.Point) (arrival : Option (Option Nat)) :
    Prop where
  begun : arrival ≠ none → point ≠ .first ∧ point ≠ .third
  pace : core.phaser.phase = 3 * core.pauses + point.passed core.phaser.phase arrival ∨
    point.passed core.phaser.phase arrival = 3 ∧ core.phaser.phase = 3 * core.pauses
  opening : point.passed core.phaser.phase arrival = 0 → core.epoch.valid = false
  recorded : ∀ phase, arrival = some (some phase) →
    phase = core.phaser.phase ∨ phase + 1 = core.phaser.phase

/-- What holds of a manager and one thread with this posture. -/
structure Core.Admits (core : Core) (thread : ThreadId) (posture : Posture) : Prop where
  owner : posture.owns = true ↔ core.owner = some thread
  demands : posture.owns = true → posture.Demands core
  relies : posture.relies = true → thread ∈ core.identities
  halfway : posture.isHalfway = true → thread ∉ core.identities
  meets : ∀ {leads point arrival}, posture = .meeting leads point arrival →
    core.Meets point arrival
  absent : thread ∈ core.identities ∨ posture.isHalfway = true → posture.meets = false →
    core.phaser.phase = 3 * core.pauses ∨ core.phaser.phase = 3 * core.pauses + 3
  called : posture = .called → thread ∈ core.identities →
    core.epoch.valid = false ∧ core.phaser.phase = 3 * core.pauses

/-- The thread has a party in the phaser. -/
def Scene.Counts (s : Scene) (thread : ThreadId) : Prop :=
  thread ∈ s.core.identities ∨ (s.posture thread).isHalfway = true

/-- The invariant of the protocol. -/
structure Scene.Lawful (s : Scene) : Prop where
  admits : ∀ thread, s.core.Admits thread (s.posture thread)
  rests : s.core.owner = none → s.core.Rests
  distinct : s.core.identities.Nodup
  parties : ∃ parties : Finset ThreadId, parties.card = s.core.phaser.parties ∧
    ∀ thread, thread ∈ parties ↔ s.Counts thread
  arrived : ∃ arrived : Finset ThreadId, arrived.card = s.core.phaser.arrived ∧
    ∀ thread, thread ∈ arrived ↔ (s.posture thread).hasArrived s.core.phaser.phase = true

namespace Core

variable {core core' : Core} {thread : ThreadId} {posture : Posture}

/-- Somebody has yet to see the end of the present phase. -/
def Gathers (core : Core) : Prop :=
  ∃ round ≤ 2, core.phaser.phase = 3 * core.pauses + round ∧
    (round = 0 → core.epoch.valid = false)

theorem Meets.gathers {point : Phases.Point} {arrival : Option (Option Nat)}
    (meets : core.Meets point arrival)
    (waits : arrival = some none ∨ arrival = some (some core.phaser.phase)) : core.Gathers := by
  have ended := point.rounds_le
  have behind : point.passed core.phaser.phase arrival = point.rounds - 1 := by
    obtain rfl | rfl := waits <;> simp [Phases.Point.passed]
  refine ⟨point.rounds - 1, by omega, ?_, fun none => meets.opening (behind.trans none)⟩
  have pace := meets.pace
  rw [behind] at pace
  omega

/-- A thread notices no change of the owner among others, of their entries, or of the counts of the
phaser. -/
theorem Admits.transfer (admits : core.Admits thread posture)
    (owner : core'.owner = some thread ↔ core.owner = some thread)
    (members : thread ∈ core'.identities ↔ thread ∈ core.identities)
    (epoch : core'.epoch = core.epoch) (action : core'.action = core.action)
    (pauses : core'.pauses = core.pauses) (phase : core'.phaser.phase = core.phaser.phase) :
    core'.Admits thread posture := by
  have stands {valid ahead action round} :
      core'.Stands valid ahead action round ↔ core.Stands valid ahead action round := by
    constructor <;> intro h <;> constructor <;> grind [Stands]
  have demands : posture.Demands core' ↔ posture.Demands core := by
    unfold Posture.Demands
    split <;> simp only [stands, phase]
  refine ⟨admits.owner.trans owner.symm, fun owns => demands.mpr (admits.demands owns),
    fun relies => members.mpr (admits.relies relies),
    fun halfway => members.not.mpr (admits.halfway halfway), ?_, ?_, ?_⟩
  · intro leads point arrival same
    have meets := admits.meets same
    exact ⟨meets.begun, by simpa only [phase, pauses] using meets.pace,
      by simpa only [phase, epoch] using meets.opening,
      by simpa only [phase] using meets.recorded⟩
  · simpa only [members, phase, pauses] using admits.absent
  · simpa only [members, epoch, phase, pauses] using admits.called

theorem Gathers.not_rests (gathers : core.Gathers) : ¬ core.Rests := by
  intro rests
  obtain ⟨round, le, pace, opening⟩ := gathers
  have phase := rests.phase
  have none : round = 0 := by omega
  have invalid := opening none
  simp [rests.valid] at invalid

/-- While somebody has yet to see the end of a phase, only those in it own the pause lock. -/
theorem Admits.relies_of_gathers (admits : core.Admits thread posture) (gathers : core.Gathers)
    (owns : posture.owns = true) : posture.relies = true := by
  have demands := admits.demands owns
  have rests := gathers.not_rests
  obtain ⟨round, le, pace, opening⟩ := gathers
  have third {valid ahead action} : ¬ core.Stands valid ahead action 3 := by
    intro stands
    have := stands.phase
    omega
  cases posture with
  | outside | called | departing => simp [Posture.owns] at owns
  | owning | claiming => exact absurd demands rests
  | meeting => rfl
  | driving action point =>
    cases point <;> first
      | rfl
      | exact absurd demands rests
      | exact absurd demands third

/-- A phase comes to its end when everybody with a party has arrived at it. -/
theorem Admits.advance (admits : core.Admits thread posture) (gathers : core.Gathers)
    (all : thread ∈ core.identities ∨ posture.isHalfway = true →
      posture.hasArrived core.phaser.phase = true)
    {phaser : Phaser} (phase : phaser.phase = core.phaser.phase + 1) :
    ({ core with phaser } : Core).Admits thread posture := by
  by_cases counts : thread ∈ core.identities ∨ posture.isHalfway = true
  · obtain ⟨leads, point, rfl⟩ := Posture.hasArrived_iff.mp (all counts)
    have meets := admits.meets rfl
    have begun : point ≠ .first := (meets.begun (by simp)).1
    have ended : point.rounds ≤ 3 ∧ 0 < point.rounds := by cases point <;> simp_all [Phases.Point.rounds]
    have pace := meets.pace
    simp only [Phases.Point.passed, if_pos] at pace
    have behind : point.passed (core.phaser.phase + 1) (some (some core.phaser.phase)) =
        point.rounds := by
      simp [Phases.Point.passed]
    refine ⟨admits.owner, fun owns => ?_, admits.relies, admits.halfway, ?_, by simp [Posture.meets],
      by simp⟩
    · have demands := admits.demands owns
      cases leads with
      | none => simp [Posture.owns] at owns
      | some action =>
        exact ⟨demands.valid, demands.generation, demands.action, by
          show phaser.phase = 3 * core.pauses + point.passed phaser.phase _
          rw [phase, behind]
          omega⟩
    · rintro _ _ _ ⟨⟩
      exact ⟨meets.begun, by simp only [phase, behind]; omega, by simp only [phase, behind]; omega,
        by simp [phase]⟩
  · rw [not_or] at counts
    have unbound : posture.relies = false := by
      rw [← Bool.not_eq_true]
      exact fun relies => counts.1 (admits.relies relies)
    have disowned : posture.owns = false := by
      rw [← Bool.not_eq_true]
      intro owns
      have relies := admits.relies_of_gathers gathers owns
      simp [unbound] at relies
    refine ⟨admits.owner, by simp [disowned], admits.relies, admits.halfway, ?_,
      fun here => absurd here (not_or.mpr counts), fun _ here => absurd here counts.1⟩
    intro leads point arrival same
    subst same
    simp [Posture.relies] at unbound

/-- What a thread that does not own the pause lock notices of its owner. -/
theorem Admits.spectate (admits : core.Admits thread posture) (disowned : posture.owns = false)
    (owner : core'.owner = core.owner) (members : core'.members = core.members)
    (meets : ∀ {point arrival}, core.Meets point arrival → core'.Meets point arrival)
    (absent : core.phaser.phase = 3 * core.pauses ∨ core.phaser.phase = 3 * core.pauses + 3 →
      core'.phaser.phase = 3 * core'.pauses ∨ core'.phaser.phase = 3 * core'.pauses + 3)
    (called : core.epoch.valid = false ∧ core.phaser.phase = 3 * core.pauses →
      core'.epoch.valid = false ∧ core'.phaser.phase = 3 * core'.pauses) :
    core'.Admits thread posture := by
  have identities : core'.identities = core.identities := by
    unfold identities
    rw [members]
  refine ⟨owner ▸ admits.owner, by simp [disowned], by simpa only [identities] using admits.relies,
    by simpa only [identities] using admits.halfway, fun same => meets (admits.meets same), ?_, ?_⟩
  · intro here away
    exact absent (admits.absent (identities ▸ here) away)
  · intro same here
    exact called (admits.called same (identities ▸ here))

theorem Admits.of_free (disowned : core.owner ≠ some thread) (owns : posture.owns = false)
    (relies : posture.relies = false)
    (halfway : posture.isHalfway = true → thread ∉ core.identities)
    (absent : thread ∈ core.identities ∨ posture.isHalfway = true →
      core.phaser.phase = 3 * core.pauses ∨ core.phaser.phase = 3 * core.pauses + 3)
    (called : posture = .called → thread ∈ core.identities →
      core.epoch.valid = false ∧ core.phaser.phase = 3 * core.pauses) :
    core.Admits thread posture := by
  refine ⟨by simp [owns, disowned], by simp [owns], by simp [relies], halfway, ?_,
    fun here _ => absent here, called⟩
  intro leads point arrival same
  subst same
  simp [Posture.relies] at relies

/-- Out of the phases, the owner of the pause lock has none of them behind it or all three. -/
theorem round_of_demands (demands : posture.Demands core) (away : posture.meets = false) :
    core.phaser.phase = 3 * core.pauses ∨ core.phaser.phase = 3 * core.pauses + 3 := by
  cases posture with
  | meeting => simp [Posture.meets] at away
  | driving action point =>
    cases point <;> first
      | exact .inl demands.phase
      | exact .inr demands.phase
  | _ => exact .inl demands.phase

theorem Admits.of_owner (owner : core.owner = some thread) (owns : posture.owns = true)
    (away : posture.meets = false) (demands : posture.Demands core)
    (relies : posture.relies = true → thread ∈ core.identities)
    (halfway : posture.isHalfway = true → thread ∉ core.identities) :
    core.Admits thread posture := by
  refine ⟨by simp [owns, owner], fun _ => demands, relies, halfway, ?_,
    fun _ _ => round_of_demands demands away, ?_⟩
  · intro leads point arrival same
    subst same
    simp [Posture.meets] at away
  · intro same
    subst same
    simp [Posture.owns] at owns

theorem Admits.goes_on {leads : Option (List Op)} {point point' : Phases.Point}
    {arrival arrival' : Option (Option Nat)}
    (admits : core.Admits thread (.meeting leads point arrival))
    (begun : arrival' ≠ none → point' ≠ .first ∧ point' ≠ .third)
    (fresh : leads.isSome → point'.isFresh = point.isFresh)
    (passed : point'.passed core.phaser.phase arrival' = point.passed core.phaser.phase arrival)
    (recorded : ∀ phase, arrival' = some (some phase) →
      phase = core.phaser.phase ∨ phase + 1 = core.phaser.phase) :
    core.Admits thread (.meeting leads point' arrival') := by
  have meets := admits.meets rfl
  refine ⟨?_, ?_, admits.relies, admits.halfway, ?_, by simp [Posture.meets], by simp⟩
  · rw [← admits.owner]
    cases leads <;> rfl
  · cases leads with
    | none => simp [Posture.owns]
    | some action =>
      intro owns
      have demands := admits.demands rfl
      simp only [Posture.Demands, fresh rfl, passed] at demands ⊢
      exact demands
  · rintro _ _ _ ⟨⟩
    exact ⟨begun, by rw [passed]; exact meets.pace, by rw [passed]; exact meets.opening, recorded⟩

end Core

theorem Phaser.depart_cases (phaser : Phaser) :
    (0 < phaser.arrived ∧ phaser.IsLast ∧ phaser.depart.arrived = 0 ∧
      phaser.depart.phase = phaser.phase + 1) ∨
    (phaser.depart.arrived = phaser.arrived ∧ phaser.depart.phase = phaser.phase) := by
  unfold depart IsLast advance
  dsimp only
  split
  · left
    refine ⟨by omega, by omega, rfl, rfl⟩
  · exact .inr ⟨rfl, rfl⟩

namespace Scene.Lawful

variable {s s' : Scene} {self : ThreadId} {deed : Deed} {posture : Posture}

theorem counts_of_hasArrived (lawful : s.Lawful) {thread : ThreadId} {phase : Nat}
    (arrived : (s.posture thread).hasArrived phase = true) : s.Counts thread := by
  obtain ⟨leads, point, same⟩ := Posture.hasArrived_iff.mp arrived
  exact .inl ((lawful.admits thread).relies (by rw [same]; rfl))

/-- When one more arrival or one party less completes a phase, all other parties have arrived. -/
theorem others_arrived (lawful : s.Lawful) (here : s.Counts self)
    (late : (s.posture self).hasArrived s.core.phaser.phase = false) (last : s.core.phaser.IsLast)
    {thread : ThreadId} (other : thread ≠ self) (counts : s.Counts thread) :
    (s.posture thread).hasArrived s.core.phaser.phase = true := by
  obtain ⟨parties, partiesCard, partiesMem⟩ := lawful.parties
  obtain ⟨arrived, arrivedCard, arrivedMem⟩ := lawful.arrived
  have sub : arrived ⊆ parties.erase self := by
    intro u hu
    have uArrived := (arrivedMem u).mp hu
    refine Finset.mem_erase.mpr ⟨?_, (partiesMem u).mpr (lawful.counts_of_hasArrived uArrived)⟩
    intro same
    subst same
    simp [late] at uArrived
  have card : (parties.erase self).card ≤ arrived.card := by
    rw [Finset.card_erase_of_mem ((partiesMem self).mpr here), arrivedCard, partiesCard]
    have := last
    unfold Phaser.IsLast at this
    omega
  have all := Finset.eq_of_subset_of_card_le sub card
  rw [← arrivedMem, all]
  exact Finset.mem_erase.mpr ⟨other, (partiesMem thread).mpr counts⟩

theorem gathers_of_arrived (lawful : s.Lawful) (some : 0 < s.core.phaser.arrived) :
    s.core.Gathers := by
  obtain ⟨arrived, card, mem⟩ := lawful.arrived
  obtain ⟨thread, here⟩ := Finset.card_pos.mp (card ▸ some)
  obtain ⟨leads, point, same⟩ := Posture.hasArrived_iff.mp ((mem thread).mp here)
  exact ((lawful.admits thread).meets same).gathers (.inr rfl)

theorem others_disowned (lawful : s.Lawful) (owns : (s.posture self).owns = true)
    {thread : ThreadId} (other : thread ≠ self) : (s.posture thread).owns = false := by
  rw [← Bool.not_eq_true]
  intro owns'
  have mine := (lawful.admits self).owner.mp owns
  have theirs := (lawful.admits thread).owner.mp owns'
  rw [mine] at theirs
  exact other (Option.some.inj theirs).symm

theorem mem_identities_insert {core : Core} {entry : Registration} {thread : ThreadId}
    (other : thread ≠ entry.identity) :
    thread ∈ (core.after self (.insert entry)).identities ↔ thread ∈ core.identities := by
  simp [Core.after, Core.identities, other]

theorem mem_identities_remove {core : Core} {thread : ThreadId} :
    thread ∈ (core.after self .remove).identities ↔ thread ≠ self ∧ thread ∈ core.identities := by
  simp only [Core.after, Core.identities, List.mem_map, List.mem_filter, decide_eq_true_eq]
  constructor
  · rintro ⟨entry, ⟨mem, ne⟩, rfl⟩
    exact ⟨ne, entry, mem, rfl⟩
  · rintro ⟨ne, entry, mem, rfl⟩
    exact ⟨entry, ⟨mem, ne⟩, rfl⟩

theorem admits_others (lawful : s.Lawful)
    (advances : Advances s.core self (s.posture self) deed posture) {thread : ThreadId}
    (other : thread ≠ self) : (s.core.after self deed).Admits thread (s.posture thread) := by
  have admits := lawful.admits thread
  have mine := lawful.admits self
  have disowned (owns : (s.posture self).owns = true) := lawful.others_disowned owns other
  generalize same : s.posture self = before at advances mine disowned
  cases advances with
  | drive free _ | own free =>
    exact admits.transfer (by simp [Core.after, free, other.symm]) .rfl rfl rfl rfl rfl
  | free =>
    have owner := mine.owner.mp rfl
    exact admits.transfer (by simp [Core.after, owner, other.symm]) .rfl rfl rfl rfl rfl
  | claim => exact admits.transfer .rfl .rfl rfl rfl rfl rfl
  | insert own =>
    exact admits.transfer .rfl (mem_identities_insert (own.symm ▸ other)) rfl rfl rfl rfl
  | remove =>
    exact admits.transfer .rfl (mem_identities_remove.trans (and_iff_right other)) rfl rfl rfl rfl
  | store | clear =>
    exact admits.spectate (disowned rfl) rfl rfl (fun meets => ⟨meets.1, meets.2, meets.3, meets.4⟩)
      id id
  | invalidate =>
    exact admits.spectate (disowned rfl) rfl rfl
      (fun meets => ⟨meets.begun, meets.pace, fun _ => rfl, meets.recorded⟩) id
      fun called => ⟨rfl, called.2⟩
  | republish =>
    have phase : s.core.phaser.phase = 3 * s.core.pauses + 1 := (mine.demands rfl).phase
    refine admits.spectate (disowned rfl) rfl rfl (fun {point arrival} meets => ?_) id (by omega)
    have pace := meets.pace
    have behind : point.passed s.core.phaser.phase arrival ≠ 0 := by omega
    exact ⟨meets.begun, pace, fun none => absurd none behind, meets.recorded⟩
  | account =>
    have stands : s.core.Stands true 1 none 3 := mine.demands rfl
    have phase := stands.phase
    refine admits.spectate (disowned rfl) rfl rfl (fun {point arrival} meets => ?_) ?_ ?_
    · have pace := meets.pace
      have behind : point.passed s.core.phaser.phase arrival = 3 := by omega
      exact ⟨meets.begun, .inr ⟨behind, by simp only [Core.after]; omega⟩,
        fun none => by simp only [Core.after] at none; omega, meets.recorded⟩
    · simp only [Core.after]
      omega
    · simp [stands.valid]
  | wait early =>
    exact admits.transfer .rfl .rfl rfl rfl rfl (by simp [Core.after, Phaser.arrive_phase, early])
  | complete last =>
    have here : s.Counts self := .inl (mine.relies rfl)
    have late : (s.posture self).hasArrived s.core.phaser.phase = false := by rw [same]; rfl
    exact admits.advance ((mine.meets rfl).gathers (.inl rfl))
      (lawful.others_arrived here late last other) (by simp [Phaser.arrive_phase, last])
  | depart =>
    have here : s.Counts self := .inr (by rw [same]; rfl)
    have late : (s.posture self).hasArrived s.core.phaser.phase = false := by rw [same]; rfl
    rcases s.core.phaser.depart_cases with ⟨arrived, last, -, phase⟩ | ⟨-, phase⟩
    · exact admits.advance (lawful.gathers_of_arrived arrived)
        (lawful.others_arrived here late last other) phase
    · exact admits.transfer .rfl .rfl rfl rfl rfl phase
  | _ => exact admits

/-- The epoch is not invalid past the first phase. -/
theorem phase_of_stale (lawful : s.Lawful) (stale : s.core.epoch.valid = false) :
    s.core.phaser.phase ≤ 3 * s.core.pauses + 1 := by
  cases owner : s.core.owner with
  | none => simp [(lawful.rests owner).valid] at stale
  | some driver =>
    have admits := lawful.admits driver
    have owns := admits.owner.mpr owner
    have demands := admits.demands owns
    generalize s.posture driver = posture at demands owns
    have valid {ahead action round} : ¬ s.core.Stands true ahead action round := by
      intro stands
      simp [stands.valid] at stale
    cases posture with
    | outside | called | departing => simp [Posture.owns] at owns
    | owning | claiming => exact absurd demands valid
    | driving action point =>
      cases point <;> first
        | exact absurd demands valid
        | exact demands.phase.le.trans (by omega)
    | meeting leads point arrival =>
      cases leads with
      | none => simp [Posture.owns] at owns
      | some action =>
        have fresh : point.isFresh = false := by rw [← demands.valid, stale]
        have passed := point.passed_le s.core.phaser.phase arrival
        have ended : point.rounds ≤ 1 := by cases point <;> simp_all [Phases.Point.isFresh, Phases.Point.rounds]
        have phase := demands.phase
        omega

/-- Between the second phase and the third, the fresh epoch is there and the action still is. -/
theorem stands_of_second (lawful : s.Lawful)
    (second : s.core.phaser.phase = 3 * s.core.pauses + 2) :
    ∃ action, s.core.Stands true 1 (some action) 2 := by
  cases owner : s.core.owner with
  | none =>
    have phase := (lawful.rests owner).phase
    omega
  | some driver =>
    have admits := lawful.admits driver
    have owns := admits.owner.mpr owner
    have demands := admits.demands owns
    generalize s.posture driver = posture at demands owns
    cases away : posture.meets with
    | false =>
      have round := Core.round_of_demands demands away
      omega
    | true =>
      cases posture with
      | meeting leads point arrival =>
        cases leads with
        | none => simp [Posture.owns] at owns
        | some action =>
          have phase := demands.phase
          have passed := point.passed_le s.core.phaser.phase arrival
          have late : 2 ≤ point.rounds := by omega
          have fresh : point.isFresh = true := by
            cases point <;> first | rfl | simp [Phases.Point.rounds] at late
          have valid := demands.valid
          have generation := demands.generation
          simp only [fresh, if_true] at valid generation
          exact ⟨action, valid, generation, demands.action, second⟩
      | _ => simp [Posture.meets] at away

theorem admits_self (lawful : s.Lawful)
    (advances : Advances s.core self (s.posture self) deed posture) :
    (s.core.after self deed).Admits self posture := by
  have admits := lawful.admits self
  generalize same : s.posture self = before at advances admits
  have disowned (owns : before.owns = false) : s.core.owner ≠ some self := by
    simp [← admits.owner, owns]
  cases advances with
  | stay | announce | count | finish | announceEntry => exact admits
  | heed stale =>
    have absent := admits.absent
    have phase := lawful.phase_of_stale stale
    show s.core.Admits self .called
    exact .of_free (disowned rfl) rfl rfl (by simp [Posture.isHalfway]) (absent · rfl) fun _ here =>
      ⟨stale, by have := absent (.inl here) rfl; omega⟩
  | pass absent =>
    exact .of_free (disowned rfl) rfl rfl (by simp [Posture.isHalfway]) (admits.absent · rfl)
      (by simp)
  | part =>
    have pace := (admits.meets rfl).pace
    have done : Phases.Point.finish.passed s.core.phaser.phase none = 3 := rfl
    show s.core.Admits self .outside
    exact .of_free (disowned rfl) rfl rfl (by simp [Posture.isHalfway]) (fun _ => by omega)
      (by simp)
  | join present =>
    obtain ⟨stale, phase⟩ := admits.called rfl present
    show s.core.Admits self _
    refine ⟨by simpa [Posture.owns] using disowned rfl, by simp [Posture.owns], fun _ => present,
      by simp [Posture.isHalfway], ?_, by simp [Posture.meets], by simp⟩
    rintro _ _ _ ⟨⟩
    exact ⟨by simp, .inl phase, fun _ => stale, by simp⟩
  | lead =>
    have stands : s.core.Stands false 0 _ 0 := admits.demands rfl
    refine ⟨admits.owner, fun _ => stands, fun _ => admits.relies rfl, by simp [Posture.isHalfway],
      ?_, by simp [Posture.meets], by simp⟩
    rintro _ _ _ ⟨⟩
    exact ⟨by simp, .inl stands.phase, fun _ => stands.valid, by simp⟩
  | approach arrives =>
    refine admits.goes_on ?_ ?_ ?_ (by simp)
    · cases arrives <;> simp
    · cases arrives <;> simp_all [Phases.Point.isFresh]
    · cases arrives <;> rfl
  | wait early =>
    have phase : s.core.phaser.arrive.phase = s.core.phaser.phase := by
      simp [Phaser.arrive_phase, early]
    have there : (s.core.after self .arrive).Admits self _ :=
      admits.transfer .rfl .rfl rfl rfl rfl phase
    exact there.goes_on (fun _ => (admits.meets rfl).begun (by simp)) (fun _ => rfl)
      (by simp [Phases.Point.passed, Core.after, phase]) (by simp [Core.after, phase])
  | complete last =>
    have phase : s.core.phaser.arrive.phase = s.core.phaser.phase + 1 := by
      simp [Phaser.arrive_phase, last]
    have arrived : s.core.Admits self (.meeting _ _ (some (some s.core.phaser.phase))) :=
      admits.goes_on (fun _ => (admits.meets rfl).begun (by simp)) (fun _ => rfl)
        (by simp [Phases.Point.passed]) (by simp)
    have advanced := arrived.advance ((admits.meets rfl).gathers (.inl rfl))
      (by simp [Posture.hasArrived]) phase
    exact advanced.goes_on (by simp) (fun _ => rfl) (by simp [Phases.Point.passed, phase]) (by simp)
  | wake ended =>
    exact admits.goes_on (by simp) (fun _ => rfl)
      (by simp [Phases.Point.passed, ended.symm]) (by simp)
  | republish =>
    have stands : s.core.Stands false 0 _ 1 := admits.demands rfl
    refine ⟨admits.owner, fun _ => ?_, admits.relies, by simp [Posture.isHalfway], ?_,
      by simp [Posture.meets], by simp⟩
    · exact ⟨rfl, by simp [Core.after, Phases.Point.isFresh, stands.generation], stands.action,
        stands.phase⟩
    · rintro _ _ _ ⟨⟩
      exact ⟨by simp, .inl stands.phase, by simp [Phases.Point.passed, Phases.Point.rounds], by simp⟩
  | start | decline => exact admits.goes_on (by simp) (fun _ => rfl) rfl (by simp)
  | close =>
    have stands : s.core.Stands true 1 _ 3 := admits.demands rfl
    exact .of_owner (admits.owner.mp rfl) rfl rfl stands (fun _ => admits.relies rfl)
      (by simp [Posture.isHalfway])
  | drive free present =>
    have rests := lawful.rests free
    exact .of_owner rfl rfl rfl ⟨rests.1, rests.2, rests.3, rests.4⟩ (fun _ => present)
      (by simp [Posture.isHalfway])
  | proceed passes =>
    refine .of_owner (admits.owner.mp rfl) rfl rfl ?_ ?_ (by simp [Posture.isHalfway])
    · cases passes <;> exact admits.demands rfl
    · cases passes <;> exact fun _ => admits.relies rfl
  | announceStart =>
    exact .of_owner (admits.owner.mp rfl) rfl rfl (admits.demands rfl) (fun _ => admits.relies rfl)
      (by simp [Posture.isHalfway])
  | store =>
    have rests : s.core.Rests := admits.demands rfl
    exact .of_owner (admits.owner.mp rfl) rfl rfl ⟨rests.valid, rests.generation, rfl, rests.phase⟩
      (fun _ => admits.relies rfl) (by simp [Posture.isHalfway])
  | invalidate =>
    have stands : s.core.Stands true 0 _ 0 := admits.demands rfl
    exact .of_owner (admits.owner.mp rfl) rfl rfl
      ⟨rfl, stands.generation, stands.action, stands.phase⟩ (fun _ => admits.relies rfl)
      (by simp [Posture.isHalfway])
  | conclude =>
    have stands : s.core.Stands true 1 _ 3 := admits.demands rfl
    exact .of_owner (admits.owner.mp rfl) rfl rfl stands (by simp [Posture.relies, Pausing.Point.relies])
      (by simp [Posture.isHalfway])
  | clear =>
    have stands : s.core.Stands true 1 _ 3 := admits.demands rfl
    exact .of_owner (admits.owner.mp rfl) rfl rfl
      ⟨stands.valid, stands.generation, rfl, stands.phase⟩
      (by simp [Posture.relies, Pausing.Point.relies]) (by simp [Posture.isHalfway])
  | account =>
    have stands : s.core.Stands true 1 none 3 := admits.demands rfl
    exact .of_owner (admits.owner.mp rfl) rfl rfl
      ⟨stands.valid, stands.generation, stands.action, stands.phase⟩
      (by simp [Posture.relies, Pausing.Point.relies]) (by simp [Posture.isHalfway])
  | unlock =>
    exact .of_owner (admits.owner.mp rfl) rfl rfl (admits.demands rfl) (by simp [Posture.relies])
      (by simp [Posture.isHalfway])
  | own free =>
    have rests := lawful.rests free
    exact .of_owner rfl rfl rfl ⟨rests.1, rests.2, rests.3, rests.4⟩ (by simp [Posture.relies])
      (by simp [Posture.isHalfway])
  | free =>
    exact .of_free (by simp [Core.after]) rfl rfl (by simp [Posture.isHalfway])
      (admits.absent · rfl) (by simp)
  | claim absent =>
    have rests : s.core.Rests := admits.demands rfl
    exact .of_owner (admits.owner.mp rfl) rfl rfl ⟨rests.1, rests.2, rests.3, rests.4⟩
      (by simp [Posture.relies]) (fun _ => absent)
  | insert own =>
    have rests : s.core.Rests := admits.demands rfl
    exact .of_owner (admits.owner.mp rfl) rfl rfl ⟨rests.1, rests.2, rests.3, rests.4⟩
      (by simp [Posture.relies]) (by simp [Posture.isHalfway])
  | remove present =>
    exact .of_free (disowned rfl) rfl rfl (fun _ here => (mem_identities_remove.mp here).1 rfl)
      (fun _ => admits.absent (.inl present) rfl) (by simp)
  | depart =>
    have gone := admits.halfway rfl
    exact .of_free (disowned rfl) rfl rfl (by simp [Posture.isHalfway])
      (fun here => absurd (here.resolve_right (by simp [Posture.isHalfway])) gone) (by simp)

theorem rests_after (lawful : s.Lawful)
    (advances : Advances s.core self (s.posture self) deed posture)
    (free : (s.core.after self deed).owner = none) : (s.core.after self deed).Rests := by
  have admits := lawful.admits self
  generalize s.posture self = before at advances admits
  have idle (owns : before.owns = true) : s.core.owner ≠ none := by
    simp [admits.owner.mp owns]
  cases advances with
  | free =>
    have rests : s.core.Rests := admits.demands rfl
    exact ⟨rests.1, rests.2, rests.3, rests.4⟩
  | drive | own => simp [Core.after] at free
  | store | invalidate | republish | clear | account | claim | insert => exact absurd free (idle rfl)
  | wait | complete =>
    have gathers := (admits.meets rfl).gathers (.inl rfl)
    exact absurd (lawful.rests free) gathers.not_rests
  | depart =>
    have rests := lawful.rests free
    rcases s.core.phaser.depart_cases with ⟨arrived, -⟩ | ⟨-, phase⟩
    · exact absurd rests (lawful.gathers_of_arrived arrived).not_rests
    · exact ⟨rests.1, rests.2, rests.3, phase.trans rests.4⟩
  | remove =>
    have rests := lawful.rests free
    exact ⟨rests.1, rests.2, rests.3, rests.4⟩
  | _ => exact lawful.rests free

theorem distinct_after (lawful : s.Lawful)
    (advances : Advances s.core self (s.posture self) deed posture) :
    (s.core.after self deed).identities.Nodup := by
  have distinct := lawful.distinct
  have admits := lawful.admits self
  generalize s.posture self = before at advances admits
  cases advances with
  | @insert entry own =>
    have absent := admits.halfway rfl
    have appended : (s.core.after self (.insert entry)).identities = s.core.identities ++ [self] := by
      simp [Core.after, Core.identities, own]
    rw [appended, List.nodup_append]
    refine ⟨distinct, List.nodup_singleton self, fun identity here other there => ?_⟩
    intro same
    subst same
    exact absent (List.mem_singleton.mp there ▸ here)
  | remove =>
    exact distinct.sublist (List.filter_sublist.map _)
  | _ => exact distinct

/-- A thread changes no entry but its own. -/
theorem mem_identities_other {core : Core} {before after : Posture}
    (advances : Advances core self before deed after) {thread : ThreadId} (other : thread ≠ self) :
    thread ∈ (core.after self deed).identities ↔ thread ∈ core.identities := by
  cases advances with
  | insert own => exact mem_identities_insert (own.symm ▸ other)
  | remove => exact mem_identities_remove.trans (and_iff_right other)
  | _ => exact .rfl

theorem counts_other (moves : s.Moves self deed s') {thread : ThreadId} (other : thread ≠ self) :
    s'.Counts thread ↔ s.Counts thread := by
  unfold Scene.Counts
  rw [moves.core, moves.others thread other, mem_identities_other moves.advances other]

theorem parties_after (lawful : s.Lawful) (moves : s.Moves self deed s') :
    ∃ parties : Finset ThreadId, parties.card = s'.core.phaser.parties ∧
      ∀ thread, thread ∈ parties ↔ s'.Counts thread := by
  obtain ⟨parties, card, mem⟩ := lawful.parties
  have kept (same : s'.Counts self ↔ s.Counts self)
      (count : s'.core.phaser.parties = s.core.phaser.parties) :
      ∃ parties : Finset ThreadId, parties.card = s'.core.phaser.parties ∧
        ∀ thread, thread ∈ parties ↔ s'.Counts thread := by
    refine ⟨parties, card.trans count.symm, fun thread => ?_⟩
    by_cases self? : thread = self
    · rw [self?, same, mem]
    · rw [counts_other moves self?, mem]
  have admits := lawful.admits self
  have counts : s.Counts self ↔ self ∈ s.core.identities ∨ (s.posture self).isHalfway = true := .rfl
  have counts' : s'.Counts self ↔
      self ∈ (s.core.after self deed).identities ∨ (s'.posture self).isHalfway = true := by
    rw [← moves.core]
    exact .rfl
  have advances := moves.advances
  have core := moves.core
  generalize s.posture self = before at advances admits counts
  generalize s'.posture self = after at advances counts'
  cases advances with
  | claim absent =>
    refine ⟨insert self parties, ?_, fun thread => ?_⟩
    · rw [Finset.card_insert_of_notMem (by rw [mem, counts]; simp [absent, Posture.isHalfway]), card,
        core]
      rfl
    · by_cases self? : thread = self
      · simp [self?, counts', Posture.isHalfway]
      · rw [Finset.mem_insert, or_iff_right self?, mem, counts_other moves self?]
  | depart =>
    have here : self ∈ parties := (mem self).mpr (counts.mpr (.inr rfl))
    have gone := admits.halfway rfl
    refine ⟨parties.erase self, ?_, fun thread => ?_⟩
    · rw [Finset.card_erase_of_mem here, card, core]
      simp [Core.after]
    · by_cases self? : thread = self
      · rw [self?, counts']
        simp [Posture.isHalfway]
        exact gone
      · rw [Finset.mem_erase, and_iff_right self?, mem, counts_other moves self?]
  | insert own =>
    exact kept (by simp [counts, counts', Posture.isHalfway, Core.after, Core.identities, own])
      (by rw [core]; rfl)
  | remove present =>
    exact kept (by simp [counts, counts', Posture.isHalfway, present]) (by rw [core]; rfl)
  | wait | complete =>
    exact kept (counts'.trans counts.symm) (by rw [core]; simp [Core.after])
  | _ => exact kept (counts'.trans counts.symm) (by rw [core]; rfl)

theorem arrived_after (lawful : s.Lawful) (moves : s.Moves self deed s') :
    ∃ arrived : Finset ThreadId, arrived.card = s'.core.phaser.arrived ∧
      ∀ thread, thread ∈ arrived ↔
        (s'.posture thread).hasArrived s'.core.phaser.phase = true := by
  obtain ⟨arrived, card, mem⟩ := lawful.arrived
  have kept (same : (s'.posture self).hasArrived s.core.phaser.phase =
        (s.posture self).hasArrived s.core.phaser.phase)
      (phase : s'.core.phaser.phase = s.core.phaser.phase)
      (count : s'.core.phaser.arrived = s.core.phaser.arrived) :
      ∃ arrived : Finset ThreadId, arrived.card = s'.core.phaser.arrived ∧
        ∀ thread, thread ∈ arrived ↔
          (s'.posture thread).hasArrived s'.core.phaser.phase = true := by
    refine ⟨arrived, card.trans count.symm, fun thread => ?_⟩
    by_cases self? : thread = self
    · rw [self?, phase, same, mem]
    · rw [moves.others thread self?, phase, mem]
  have advanced (late : ∀ phase, (s'.posture self).hasArrived phase = false)
      (phase : s'.core.phaser.phase = s.core.phaser.phase + 1)
      (count : s'.core.phaser.arrived = 0) :
      ∃ arrived : Finset ThreadId, arrived.card = s'.core.phaser.arrived ∧
        ∀ thread, thread ∈ arrived ↔
          (s'.posture thread).hasArrived s'.core.phaser.phase = true := by
    refine ⟨∅, by simp [count], fun thread => ?_⟩
    by_cases self? : thread = self
    · simp [self?, late]
    · simp only [Finset.notMem_empty, false_iff, moves.others thread self?]
      intro here
      obtain ⟨leads, point, same⟩ := Posture.hasArrived_iff.mp here
      have recorded := ((lawful.admits thread).meets same).recorded _ rfl
      omega
  have advances := moves.advances
  have core := moves.core
  generalize before? : s.posture self = before at advances kept
  generalize after? : s'.posture self = after at advances kept advanced
  cases advances with
  | wait early =>
    have phase : s'.core.phaser.phase = s.core.phaser.phase := by
      simp [core, Core.after, Phaser.arrive_phase, early]
    have late : self ∉ arrived := by
      rw [mem, before?]
      simp [Posture.hasArrived]
    refine ⟨insert self arrived, ?_, fun thread => ?_⟩
    · rw [Finset.card_insert_of_notMem late, card, core]
      simp [Core.after, Phaser.arrive, early]
    · by_cases self? : thread = self
      · simp [self?, after?, phase, Posture.hasArrived]
      · rw [Finset.mem_insert, or_iff_right self?, mem, moves.others thread self?, phase]
  | complete last =>
    exact advanced (fun _ => rfl) (by simp [core, Core.after, Phaser.arrive_phase, last])
      (by simp [core, Core.after, Phaser.arrive, last, Phaser.advance])
  | depart =>
    rcases s.core.phaser.depart_cases with ⟨-, -, count, phase⟩ | ⟨count, phase⟩
    · exact advanced (fun _ => rfl) (by rw [core]; exact phase) (by rw [core]; exact count)
    · exact kept rfl (by rw [core]; exact phase) (by rw [core]; exact count)
  | wake ended =>
    exact kept (by simp [Posture.hasArrived, ended.symm]) (by rw [core]; rfl) (by rw [core]; rfl)
  | _ => exact kept rfl (by rw [core]; rfl) (by rw [core]; rfl)

theorem preserved (lawful : s.Lawful) (moves : s.Moves self deed s') : s'.Lawful := by
  refine ⟨fun thread => ?_, ?_, ?_, lawful.parties_after moves, lawful.arrived_after moves⟩
  · rw [moves.core]
    by_cases same : thread = self
    · subst same
      exact lawful.admits_self moves.advances
    · rw [moves.others thread same]
      exact lawful.admits_others moves.advances same
  · rw [moves.core]
    exact lawful.rests_after moves.advances
  · rw [moves.core]
    exact lawful.distinct_after moves.advances

/-- The phaser moves on when all that have a party have arrived, save one that arrives last or that
leaves. -/
theorem phase_cases (lawful : s.Lawful) (moves : s.Moves self deed s') :
    s'.core.phaser.phase = s.core.phaser.phase ∨
      s'.core.phaser.phase = s.core.phaser.phase + 1 ∧ s.core.Gathers ∧
        ∀ other, other ≠ self → s.Counts other →
          (s.posture other).hasArrived s.core.phaser.phase = true := by
  have admits := lawful.admits self
  have advances := moves.advances
  have counts : s.Counts self ↔
      self ∈ s.core.identities ∨ (s.posture self).isHalfway = true := .rfl
  have others (here : s.Counts self)
      (late : (s.posture self).hasArrived s.core.phaser.phase = false)
      (last : s.core.phaser.IsLast) (other : ThreadId) (ne : other ≠ self)
      (there : s.Counts other) : (s.posture other).hasArrived s.core.phaser.phase = true :=
    lawful.others_arrived here late last ne there
  rw [moves.core]
  generalize s.posture self = before at advances admits counts others
  generalize s'.posture self = after at advances
  cases advances with
  | wait early => exact .inl (by simp [Core.after, Phaser.arrive_phase, early])
  | complete last =>
    exact .inr ⟨by simp [Core.after, Phaser.arrive_phase, last], (admits.meets rfl).gathers (.inl rfl),
      others (counts.mpr (.inl (admits.relies rfl))) rfl last⟩
  | depart =>
    rcases s.core.phaser.depart_cases with ⟨some, last, -, next⟩ | ⟨-, same⟩
    · exact .inr ⟨next, lawful.gathers_of_arrived some, others (counts.mpr (.inr rfl)) rfl last⟩
    · exact .inl same
  | _ => exact .inl rfl

end Scene.Lawful

end StopTheWorld
