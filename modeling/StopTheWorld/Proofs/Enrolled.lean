import StopTheWorld.Proofs.Roll
import StopTheWorld.Proofs.Rounds

namespace StopTheWorld

/-! A registry and its phaser, which are written one after the other, by any threads at the same
time. -/

namespace World

/-- A registration with the registry, or a deregistration from it, of this thread is half done. -/
def isHalfway (w : World) (ref : RegistryRef) (thread : ThreadId) : Bool :=
  w.isAt (Frame.isHalfway ref) thread

/-- A registration of the identity by this thread is half done. -/
def isClaiming (w : World) (ref : RegistryRef) (identity thread : ThreadId) : Bool :=
  w.isAt (Frame.isClaiming ref identity) thread

end World

/-- The registry, its phaser, and the threads that are half done with either agree. -/
structure Enrolled (ref : RegistryRef) (w : World) : Prop where
  distinct : (w.registry ref).identities.Nodup
  claimed : ∀ identity, identity ∈ (w.registry ref).claimed ↔
    ∃ thread, w.isClaiming ref identity thread = true
  alone : ∀ {identity thread other}, w.isClaiming ref identity thread = true →
    w.isClaiming ref identity other = true → thread = other
  absent : ∀ {identity thread}, w.isClaiming ref identity thread = true →
    identity ∉ (w.registry ref).identities
  /-- There is a party for each member, and one for each thread that is half done. -/
  parties : ∃ halfway : List ThreadId, halfway.Nodup ∧
    (∀ thread, thread ∈ halfway ↔ w.isHalfway ref thread = true) ∧
    (w.registry ref).phaser.parties = (w.registry ref).size + halfway.length

/-- By a step of this moment the entry goes into the registry. -/
def Moment.Adds (ref : RegistryRef) (entry : Registration) (moment : Moment) : Prop :=
  ∃ thread rest, moment.move = .run thread ∧ moment.world.stack thread =
    .enrolment { registry := ref, entry := entry, point := .insert } :: rest

/-- The entry went in at one of the moments, and none of its identity has been taken out since. -/
def Listed (ref : RegistryRef) (moments : List Moment) (entry : Registration) : Prop :=
  ∃ pre moment post, moments = pre ++ moment :: post ∧ moment.Adds ref entry ∧
    ∀ thread, (thread, .removed ref entry.identity) ∉ observations post

section

variable {ref : RegistryRef} {w v : World} {self thread : ThreadId} {frame : Frame}
  {rest : List Frame} {effect : Effect} {notes : List Note}

namespace Registry

variable {registry registry' : Registry}

theorem roll_eq_iff : registry.roll = registry'.roll ↔ registry.members = registry'.members ∧
    registry.claimed = registry'.claimed ∧ registry.phaser.parties = registry'.phaser.parties := by
  simp [roll]

theorem identities_insert (entry : Registration) :
    (registry.insert entry).identities = registry.identities ++ [entry.identity] := by
  simp [identities, insert]

theorem identities_remove (identity : ThreadId) :
    (registry.remove identity).identities = registry.identities.filter (· ≠ identity) := by
  simp [identities, remove, List.filter_map, Function.comp_def]

theorem not_mem_identities {identity : ThreadId} (absent : registry.contains identity = false) :
    identity ∉ registry.identities := fun mem => by
  simp [(registry.contains_iff identity).mpr mem] at absent

/-- Taking out an identity takes out one member. -/
theorem size_remove {identity : ThreadId} (distinct : registry.identities.Nodup)
    (present : registry.contains identity = true) :
    (registry.remove identity).size + 1 = registry.size := by
  have mem := (registry.contains_iff identity).mp present
  have size (registry : Registry) : registry.size = registry.identities.length :=
    (List.length_map _).symm
  have erased : registry.identities.filter (· ≠ identity) = registry.identities.erase identity := by
    rw [distinct.erase_eq_filter]
    exact List.filter_congr fun other _ => by by_cases same : other = identity <;> simp [same]
  rw [size, size, identities_remove, erased, List.length_erase_of_mem mem]
  have := List.length_pos_of_mem mem
  omega

/-- If no identity occurs twice, an entry is found exactly if it is a member. -/
theorem get?_eq_some_iff {identity : ThreadId} {entry : Registration}
    (distinct : registry.identities.Nodup) :
    registry.get? identity = some entry ↔ entry.identity = identity ∧ entry ∈ registry.members := by
  constructor
  · exact fun found => ⟨get?_identity found, List.mem_of_find?_eq_some found⟩
  · rintro ⟨rfl, mem⟩
    obtain ⟨other, found⟩ : ∃ other, registry.get? entry.identity = some other := by
      rw [← Option.isSome_iff_exists, ← contains_eq_isSome, contains_iff]
      exact List.mem_map_of_mem mem
    have same := List.inj_on_of_nodup_map distinct (List.mem_of_find?_eq_some found) mem
      (get?_identity found)
    rw [found, same]

end Registry

namespace Frame

theorem isLeaf_of_isHalfway (halfway : frame.isHalfway ref = true) : frame.isLeaf = true := by
  cases frame <;> first | rfl | simp [isHalfway] at halfway

theorem isHalfway_of_isClaiming {identity : ThreadId}
    (claiming : frame.isClaiming ref identity = true) : frame.isHalfway ref = true := by
  cases frame with
  | enrolment e =>
    simp only [isClaiming, Bool.and_eq_true] at claiming
    simpa [isHalfway] using claiming.1
  | _ => simp [isClaiming] at claiming

theorem isClaiming_eq_false (identity : ThreadId) (away : frame.isHalfway ref = false) :
    frame.isClaiming ref identity = false :=
  Bool.eq_false_iff.mpr fun claiming => by simp [isHalfway_of_isClaiming claiming] at away

end Frame

theorem Control.not_enters_isClaiming {control : Control} (identity : ThreadId)
    (away : control.enters (Frame.isHalfway ref) = false) :
    control.enters (Frame.isClaiming ref identity) = false := by
  unfold Control.enters at away ⊢
  cases top : control.top? with
  | none => rfl
  | some frame =>
    rw [top] at away
    exact Frame.isClaiming_eq_false identity away

namespace World

theorem isAt_top {check : Frame → Bool} (stack : w.stack thread = frame :: rest) :
    w.isAt check thread = check frame := by
  simp [isAt, stack]

theorem isHalfway_step (laid : Laid (frame :: rest)) (step : frame.advance self w = some effect)
    (thread : ThreadId) :
    (effect.world.setStack self (effect.control.stack rest)).isHalfway ref thread =
      if thread = self then effect.control.enters (Frame.isHalfway ref)
      else w.isHalfway ref thread :=
  isAt_step Frame.isLeaf_of_isHalfway laid step thread

theorem isClaiming_step (laid : Laid (frame :: rest)) (step : frame.advance self w = some effect)
    (identity thread : ThreadId) :
    (effect.world.setStack self (effect.control.stack rest)).isClaiming ref identity thread =
      if thread = self then effect.control.enters (Frame.isClaiming ref identity)
      else w.isClaiming ref identity thread :=
  isAt_step (fun claims => Frame.isLeaf_of_isHalfway (Frame.isHalfway_of_isClaiming claims)) laid step
    thread

end World

namespace Enrolled

theorem of_empty (idle : ∀ thread, w.stack thread = []) (empty : w.registry ref = {}) :
    Enrolled ref w := by
  have nobody (check : Frame → Bool) (thread : ThreadId) : w.isAt check thread = false :=
    World.isAt_nil (idle thread)
  refine ⟨?_, ?_, ?_, ?_, [], List.nodup_nil, fun thread => ?_, ?_⟩
  · rw [empty]
    exact List.nodup_nil
  · simp [empty, World.isClaiming, nobody]
  · simp [World.isClaiming, nobody]
  · simp [World.isClaiming, nobody]
  · simp [World.isHalfway, nobody]
  · rw [empty]
    rfl

/-- A world in which nobody is half done with anything else, and the roll is the same. -/
theorem transfer (enrolled : Enrolled ref w) (roll : (v.registry ref).roll = (w.registry ref).roll)
    (halfway : ∀ thread, v.isHalfway ref thread = w.isHalfway ref thread)
    (claiming : ∀ identity thread,
      v.isClaiming ref identity thread = w.isClaiming ref identity thread) : Enrolled ref v := by
  obtain ⟨distinct, claimed, alone, absent, busy, nodup, busy_iff, parties⟩ := enrolled
  obtain ⟨members, claims, same⟩ := Registry.roll_eq_iff.mp roll
  have identities : (v.registry ref).identities = (w.registry ref).identities := by
    rw [Registry.identities, members, Registry.identities]
  refine ⟨identities ▸ distinct, fun identity => ?_, fun {identity thread other} => ?_,
    fun {identity thread} => ?_, busy, nodup, fun thread => ?_, ?_⟩
  · simpa only [claims, claiming] using claimed identity
  · simpa only [claiming] using alone
  · simpa only [claiming, identities] using absent
  · rw [halfway]
    exact busy_iff thread
  · rw [same, parties, Registry.size, Registry.size, members]

section Step

variable (laid : Laid (frame :: rest)) (stack : w.stack self = frame :: rest)
  (step : frame.advance self w = some effect)

include laid stack step

variable (ref) in
/-- The threads that are half done after a step by which the thread itself gets half done. -/
theorem halfway_cons (off : frame.isHalfway ref = false)
    (on : effect.control.enters (Frame.isHalfway ref) = true) {busy : List ThreadId}
    (nodup : busy.Nodup) (busy_iff : ∀ thread, thread ∈ busy ↔ w.isHalfway ref thread = true) :
    (self :: busy).Nodup ∧ ∀ thread, thread ∈ self :: busy ↔
      (effect.world.setStack self (effect.control.stack rest)).isHalfway ref thread = true := by
  refine ⟨List.nodup_cons.mpr ⟨fun mem => ?_, nodup⟩, fun thread => ?_⟩
  · have before := (busy_iff self).mp mem
    rw [World.isHalfway, World.isAt_top stack, off] at before
    exact Bool.false_ne_true before
  · rw [World.isHalfway_step laid step, List.mem_cons, busy_iff]
    by_cases same : thread = self <;> simp [same, on]

variable (ref) in
/-- The threads that are half done after a step by which the thread itself gets done. -/
theorem halfway_erase (off : frame.isHalfway ref = true)
    (on : effect.control.enters (Frame.isHalfway ref) = false) {busy : List ThreadId}
    (nodup : busy.Nodup) (busy_iff : ∀ thread, thread ∈ busy ↔ w.isHalfway ref thread = true) :
    (busy.erase self).Nodup ∧ (∀ thread, thread ∈ busy.erase self ↔
      (effect.world.setStack self (effect.control.stack rest)).isHalfway ref thread = true) ∧
      (busy.erase self).length + 1 = busy.length := by
  have mem : self ∈ busy := (busy_iff self).mpr (by rw [World.isHalfway, World.isAt_top stack, off])
  refine ⟨nodup.erase self, fun thread => ?_, ?_⟩
  · rw [World.isHalfway_step laid step, nodup.mem_erase_iff, busy_iff]
    by_cases same : thread = self <;> simp [same, on]
  · rw [List.length_erase_of_mem mem]
    have := List.length_pos_of_mem mem
    omega

variable (ref) in
/-- A step that begins no registration and ends none leaves the claims as they are. -/
theorem claiming_same (identity : ThreadId) (off : frame.isClaiming ref identity = false)
    (on : effect.control.enters (Frame.isClaiming ref identity) = false) (thread : ThreadId) :
    (effect.world.setStack self (effect.control.stack rest)).isClaiming ref identity thread =
      w.isClaiming ref identity thread := by
  rw [World.isClaiming_step laid step]
  split
  · rename_i same
    rw [on, same]
    exact ((World.isAt_top stack).trans off).symm
  · rfl

variable (enrolled : Enrolled ref w)

include enrolled

theorem step_keeps (roll : (effect.world.registry ref).roll = (w.registry ref).roll)
    (off : frame.isHalfway ref = false)
    (on : effect.control.enters (Frame.isHalfway ref) = false) :
    Enrolled ref (effect.world.setStack self (effect.control.stack rest)) := by
  refine enrolled.transfer (by rw [World.registry_setStack, roll]) (fun thread => ?_)
    fun identity => claiming_same ref laid stack step identity (Frame.isClaiming_eq_false identity off)
      (Control.not_enters_isClaiming identity on)
  rw [World.isHalfway_step laid step]
  split
  · rename_i same
    rw [on, same]
    exact ((World.isAt_top stack).trans off).symm
  · rfl

theorem step_claims {entry : Registration}
    (top : frame = .enrolment { registry := ref, entry := entry })
    (unlocked : (w.registry ref).isLocked entry.identity = false)
    (missing : (w.registry ref).contains entry.identity = false)
    (world : effect.world = w.modifyRegistry ref (·.claim entry.identity))
    (control : effect.control =
      .goto (.enrolment { registry := ref, entry := entry, point := .insert })) :
    Enrolled ref (effect.world.setStack self (effect.control.stack rest)) := by
  obtain ⟨distinct, claimed, alone, absent, busy, nodup, busy_iff, parties⟩ := enrolled
  have unclaimed (thread : ThreadId) : w.isClaiming ref entry.identity thread = false :=
    Bool.eq_false_iff.mpr fun claiming => by
      have mem := (claimed _).mpr ⟨thread, claiming⟩
      simp [Registry.isLocked, mem] at unlocked
  have idle (identity : ThreadId) : w.isClaiming ref identity self = false := by
    rw [World.isClaiming, World.isAt_top stack, top]
    simp [Frame.isClaiming]
  have claims (identity thread : ThreadId) :
      (effect.world.setStack self (effect.control.stack rest)).isClaiming ref identity thread = true ↔
        thread = self ∧ entry.identity = identity ∨ w.isClaiming ref identity thread = true := by
    rw [World.isClaiming_step laid step, control]
    by_cases same : thread = self
    · simp [same, idle, Control.enters, Frame.isClaiming]
    · simp [same]
  have registry : (effect.world.setStack self (effect.control.stack rest)).registry ref =
      (w.registry ref).claim entry.identity := by
    rw [World.registry_setStack, world, World.registry_modifyRegistry, if_pos rfl]
  obtain ⟨nodup', busy_iff'⟩ := halfway_cons ref laid stack step (by simp [top, Frame.isHalfway])
    (by simp [control, Control.enters, Frame.isHalfway]) nodup busy_iff
  refine ⟨?_, fun identity => ?_, fun {identity thread other} one two => ?_,
    fun {identity thread} claiming => ?_, self :: busy, nodup', busy_iff', ?_⟩
  · rw [registry]
    exact distinct
  · rw [registry]
    simp only [claims, Registry.claim, List.mem_append, List.mem_singleton, claimed]
    constructor
    · rintro (⟨thread, claiming⟩ | rfl)
      · exact ⟨thread, .inr claiming⟩
      · exact ⟨self, .inl ⟨rfl, rfl⟩⟩
    · rintro ⟨thread, ⟨-, rfl⟩ | claiming⟩
      · exact .inr rfl
      · exact .inl ⟨thread, claiming⟩
  · obtain ⟨first, same⟩ | one := (claims _ _).mp one <;>
      obtain ⟨second, same'⟩ | two := (claims _ _).mp two
    · rw [first, second]
    · simp [← same, unclaimed] at two
    · simp [← same', unclaimed] at one
    · exact alone one two
  · rw [registry]
    obtain ⟨-, rfl⟩ | claiming := (claims _ _).mp claiming
    · exact Registry.not_mem_identities missing
    · exact absent claiming
  · rw [registry]
    simp only [Registry.claim, Phaser.register_parties, parties, Registry.size, List.length_cons]
    omega

theorem step_inserts {entry : Registration}
    (top : frame = .enrolment { registry := ref, entry := entry, point := .insert })
    (world : effect.world = w.modifyRegistry ref (·.insert entry))
    (control : effect.control = .reply (.truth true)) :
    Enrolled ref (effect.world.setStack self (effect.control.stack rest)) := by
  obtain ⟨distinct, claimed, alone, absent, busy, nodup, busy_iff, parties⟩ := enrolled
  have own : w.isClaiming ref entry.identity self = true := by
    rw [World.isClaiming, World.isAt_top stack, top]
    simp [Frame.isClaiming]
  have claims (identity thread : ThreadId) :
      (effect.world.setStack self (effect.control.stack rest)).isClaiming ref identity thread = true ↔
        thread ≠ self ∧ w.isClaiming ref identity thread = true := by
    rw [World.isClaiming_step laid step, control]
    by_cases same : thread = self <;> simp [same, Control.enters]
  have registry : (effect.world.setStack self (effect.control.stack rest)).registry ref =
      (w.registry ref).insert entry := by
    rw [World.registry_setStack, world, World.registry_modifyRegistry, if_pos rfl]
  obtain ⟨nodup', busy_iff', length⟩ := halfway_erase ref laid stack step
    (by simp [top, Frame.isHalfway]) (by rw [control]; rfl) nodup busy_iff
  refine ⟨?_, fun identity => ?_, fun {identity thread other} one two => ?_,
    fun {identity thread} claiming => ?_, busy.erase self, nodup', busy_iff', ?_⟩
  · rw [registry, Registry.identities_insert]
    exact List.nodup_append.mpr ⟨distinct, List.nodup_singleton _, fun other mem another same => by
      rw [List.mem_singleton.mp same]
      rintro rfl
      exact absent own mem⟩
  · rw [registry]
    simp only [claims, Registry.insert, List.mem_filter, claimed, decide_eq_true_eq]
    constructor
    · rintro ⟨⟨thread, claiming⟩, other⟩
      refine ⟨thread, ?_, claiming⟩
      rintro rfl
      rw [World.isClaiming, World.isAt_top stack, top] at claiming
      exact other (by simpa [Frame.isClaiming, eq_comm] using claiming)
    · rintro ⟨thread, away, claiming⟩
      refine ⟨⟨thread, claiming⟩, ?_⟩
      rintro rfl
      exact away (alone claiming own)
  · exact alone ((claims _ _).mp one).2 ((claims _ _).mp two).2
  · obtain ⟨away, claiming⟩ := (claims _ _).mp claiming
    rw [registry, Registry.identities_insert, List.mem_append, List.mem_singleton]
    rintro (mem | rfl)
    · exact absent claiming mem
    · exact away (alone claiming own)
  · rw [registry, Registry.insert_phaser, parties]
    simp only [Registry.size, Registry.insert, List.length_append, List.length_singleton]
    omega

theorem step_removes {identity : ThreadId} {before : Option RegistrationView}
    {view : RegistrationView}
    (top : frame =
      .withdrawal { registry := ref, identity := identity, removed := before, point := .remove })
    (present : (w.registry ref).contains identity = true)
    (world : effect.world = w.modifyRegistry ref (·.remove identity))
    (control : effect.control = .goto (.withdrawal
      { registry := ref, identity := identity, removed := some view, point := .depart })) :
    Enrolled ref (effect.world.setStack self (effect.control.stack rest)) := by
  obtain ⟨distinct, claimed, alone, absent, busy, nodup, busy_iff, parties⟩ := enrolled
  have claiming (other thread : ThreadId) := claiming_same ref laid stack step
    other (by rw [top]; rfl) (by rw [control]; rfl) thread
  have registry : (effect.world.setStack self (effect.control.stack rest)).registry ref =
      (w.registry ref).remove identity := by
    rw [World.registry_setStack, world, World.registry_modifyRegistry, if_pos rfl]
  obtain ⟨nodup', busy_iff'⟩ := halfway_cons ref laid stack step (by simp [top, Frame.isHalfway])
    (by simp [control, Control.enters, Frame.isHalfway]) nodup busy_iff
  refine ⟨?_, fun other => ?_, fun {other thread another} => ?_, fun {other thread} claims => ?_,
    self :: busy, nodup', busy_iff', ?_⟩
  · rw [registry, Registry.identities_remove]
    exact distinct.filter _
  · rw [registry]
    simpa only [claiming, Registry.remove] using claimed other
  · simpa only [claiming] using alone
  · rw [claiming] at claims
    rw [registry, Registry.identities_remove]
    exact fun mem => absent claims (List.mem_of_mem_filter mem)
  · rw [registry, Registry.remove_phaser, parties, List.length_cons,
      ← Registry.size_remove distinct present]
    omega

theorem step_departs {x : Withdrawal} (top : frame = .withdrawal x) (at_ref : x.registry = ref)
    (point : x.point = .depart)
    (roll : (effect.world.registry ref).roll =
      ((w.registry ref).members, (w.registry ref).claimed, (w.registry ref).phaser.parties - 1))
    (finished : effect.control.top? = none) :
    Enrolled ref (effect.world.setStack self (effect.control.stack rest)) := by
  obtain ⟨distinct, claimed, alone, absent, busy, nodup, busy_iff, parties⟩ := enrolled
  have claiming (other thread : ThreadId) := claiming_same ref laid stack step
    other (by rw [top]; rfl) (by rw [Control.enters, finished]; rfl) thread
  have registry : ((effect.world.setStack self (effect.control.stack rest)).registry ref).roll =
      _ := (congrArg Registry.roll (World.registry_setStack _ _)).trans roll
  simp only [Registry.roll, Prod.mk.injEq] at registry
  obtain ⟨members, claims, left⟩ := registry
  obtain ⟨nodup', busy_iff', length⟩ := halfway_erase ref laid stack step
    (by simp [top, Frame.isHalfway, at_ref, point]) (by rw [Control.enters, finished]; rfl) nodup busy_iff
  refine ⟨?_, fun other => ?_, fun {other thread another} => ?_, fun {other thread} => ?_,
    busy.erase self, nodup', busy_iff', ?_⟩
  · rw [Registry.identities, members]
    exact distinct
  · rw [claims]
    simpa only [claiming] using claimed other
  · simpa only [claiming] using alone
  · rw [Registry.identities, members, claiming]
    exact absent
  · rw [left, parties, Registry.size, Registry.size, members]
    omega

end Step

theorem step (enrolled : Enrolled ref w) (laid : w.IsLaid) (stack : w.stack self = frame :: rest)
    (step : frame.advance self w = some effect) :
    Enrolled ref (effect.world.setStack self (effect.control.stack rest)) := by
  have laid : Laid (frame :: rest) := stack ▸ laid self
  cases Frame.enrols ref step with
  | keeps roll _ off on => exact step_keeps laid stack step enrolled roll off on
  | claims top unlocked absent world _ control =>
    exact step_claims laid stack step enrolled top unlocked absent world control
  | inserts top world _ control => exact step_inserts laid stack step enrolled top world control
  | removes top present world _ control =>
    exact step_removes laid stack step enrolled top present world control
  | departs top registry point roll _ finished =>
    exact step_departs laid stack step enrolled top registry point roll finished

end Enrolled

theorem World.roll_other {move : Move} (moves : w.move move = some (v, notes))
    (other : ∀ thread, move ≠ .run thread) :
    (v.registry ref).roll = (w.registry ref).roll := by
  cases move with
  | run thread => exact absurd rfl (other thread)
  | submit thread op =>
    obtain ⟨u, submit, same⟩ := Option.map_eq_some_iff.mp moves
    obtain ⟨rfl, rfl⟩ := Prod.mk.inj same
    unfold World.submit at submit
    split at submit
    · obtain rfl := Option.some.inj submit
      rw [World.registry_setStack]
    · simp at submit
  | elapse span =>
    obtain ⟨rfl, rfl⟩ := Prod.mk.inj (Option.some.inj moves)
    cases ref <;> rfl
  | rouse thread =>
    obtain ⟨rfl, rfl⟩ := Prod.mk.inj (Option.some.inj moves)
    unfold World.rouse
    split
    · exact World.roll_modifyLock _ _
    · rw [World.registry_setStack]
    · split
      · rw [World.registry_setStack]
      · rfl
    · rfl

theorem Enrolled.move {move : Move} (enrolled : Enrolled ref w) (laid : w.IsLaid)
    (moves : w.move move = some (v, notes)) : Enrolled ref v := by
  by_cases runs : ∃ self, move = .run self
  · obtain ⟨self, rfl⟩ := runs
    obtain ⟨frame, rest, effect, stack, step, rfl, -⟩ := World.step_eq_some moves
    exact enrolled.step laid stack step
  · have other (self : ThreadId) : move ≠ .run self := fun same => runs ⟨self, same⟩
    exact enrolled.transfer (World.roll_other moves other)
      (fun thread => World.isAt_other (fun _ => rfl) (fun rouses => by cases rouses <;> rfl) moves
        (other thread))
      fun _ thread => World.isAt_other (fun _ => rfl) (fun rouses => by cases rouses <;> rfl) moves
        (other thread)

theorem Course.enrolled {custom : World → ThreadId → Prop} {moments : List Moment}
    (idle : ∀ thread, w.stack thread = []) (empty : w.registry ref = {})
    (course : Course custom w moments v) : Enrolled ref v := by
  have both : v.IsLaid ∧ Enrolled ref v :=
    course.keeps (P := fun w => w.IsLaid ∧ Enrolled ref w)
      (fun holds _ moves => ⟨holds.1.move moves, holds.2.move holds.1 moves⟩)
      ⟨fun thread => by rw [idle]; trivial, .of_empty idle empty⟩
  exact both.2

theorem listed_snoc {moments : List Moment} {moment : Moment} {entry : Registration} :
    Listed ref (moments ++ [moment]) entry ↔ moment.Adds ref entry ∨ Listed ref moments entry ∧
      ∀ thread, (thread, .removed ref entry.identity) ∉ moment.observed := by
  constructor
  · rintro ⟨pre, first, post, parts, adds, stays⟩
    obtain rfl | ⟨later, last, rfl⟩ := post.eq_nil_or_concat
    · obtain ⟨rfl, same⟩ := List.append_inj' parts rfl
      obtain rfl := List.head_eq_of_cons_eq same
      exact .inl adds
    · rw [List.concat_eq_append] at parts stays
      rw [← List.cons_append, ← List.append_assoc] at parts
      obtain ⟨rfl, same⟩ := List.append_inj' parts rfl
      obtain rfl := List.head_eq_of_cons_eq same
      simp only [observations_append, observations_cons, observations_nil, List.append_nil,
        List.mem_append, not_or] at stays
      exact .inr ⟨⟨pre, first, later, rfl, adds, fun thread => (stays thread).1⟩,
        fun thread => (stays thread).2⟩
  · rintro (adds | ⟨⟨pre, first, post, rfl, adds, stays⟩, last⟩)
    · exact ⟨moments, moment, [], rfl, adds, by simp⟩
    · refine ⟨pre, first, post ++ [moment], by simp, adds, fun thread => ?_⟩
      simpa using ⟨stays thread, last thread⟩

/-- An entry goes in at a moment only if the thread that takes the step is about to put it in. -/
theorem Moment.adds_iff {entry : Registration} (stack : w.stack self = frame :: rest) :
    (⟨w, .run self, notes⟩ : Moment).Adds ref entry ↔
      frame = .enrolment { registry := ref, entry := entry, point := .insert } := by
  constructor
  · rintro ⟨thread, below, runs, stands⟩
    obtain rfl := Move.run.inj runs
    exact (List.cons.inj (stack.symm.trans stands)).1
  · rintro rfl
    exact ⟨self, rest, rfl, stack⟩

theorem Control.not_mem_completion {note : Note} (control : Control)
    (other : ∀ reply, note ≠ .completed reply) : note ∉ control.completion rest := by
  cases control with
  | goto | call => simp [Control.completion]
  | reply value =>
    simp only [Control.completion]
    split <;> simp [other]
  | unwind message =>
    simp only [Control.completion]
    split <;> simp [other]

/-- The members after a step are the entry that it puts in, and those before that it does not take
out. -/
theorem World.mem_members_step (stack : w.stack self = frame :: rest)
    (step : frame.advance self w = some effect) (entry : Registration) :
    entry ∈ (effect.world.registry ref).members ↔
      (⟨w, .run self, effect.notes ++ effect.control.completion rest⟩ : Moment).Adds ref entry ∨
        entry ∈ (w.registry ref).members ∧ .removed ref entry.identity ∉
          effect.notes ++ effect.control.completion rest := by
  have ends : .removed ref entry.identity ∉ effect.control.completion rest :=
    effect.control.not_mem_completion (by simp)
  rw [Moment.adds_iff stack, List.mem_append, or_iff_left ends]
  cases Frame.enrols ref step with
  | keeps roll quiet off _ =>
    have none : frame ≠ .enrolment { registry := ref, entry := entry, point := .insert } := by
      rintro rfl
      simp [Frame.isHalfway] at off
    simp [(Registry.roll_eq_iff.mp roll).1, none, quiet]
  | claims top _ _ world notes _ =>
    rw [world, World.registry_modifyRegistry, if_pos rfl]
    simp [top, notes, Registry.claim]
  | @inserts added top world notes _ =>
    rw [world, World.registry_modifyRegistry, if_pos rfl]
    simp [top, notes, Registry.insert, or_comm, eq_comm (a := entry)]
  | removes top _ world notes _ =>
    rw [world, World.registry_modifyRegistry, if_pos rfl]
    simp [top, notes, Registry.remove]
  | departs top _ _ roll quiet _ =>
    simp only [Registry.roll, Prod.mk.injEq] at roll
    simp [roll.1, top, quiet]

/-- The members are the entries that have gone in and have not been taken out since. -/
theorem Course.mem_members_iff {custom : World → ThreadId → Prop} {moments : List Moment}
    (empty : w.registry ref = {}) (course : Course custom w moments v) (entry : Registration) :
    entry ∈ (v.registry ref).members ↔ Listed ref moments entry := by
  induction course with
  | nil => simp [empty, Listed]
  | @snoc moments x y move notes _ _ moves ih =>
    rw [listed_snoc, ← ih]
    by_cases runs : ∃ self, move = .run self
    · obtain ⟨self, rfl⟩ := runs
      obtain ⟨frame, rest, effect, stack, step, rfl, rfl⟩ := World.step_eq_some moves
      rw [World.registry_setStack, World.mem_members_step stack step]
      simp only [Moment.mem_observed, Move.run.injEq, not_and, forall_eq']
    · have other (self : ThreadId) : move ≠ .run self := fun same => runs ⟨self, same⟩
      have silent : ¬ (⟨x, move, notes⟩ : Moment).Adds ref entry := by
        rintro ⟨self, -, same, -⟩
        exact other self same
      rw [(Registry.roll_eq_iff.mp (World.roll_other moves other)).1]
      simp [silent, Moment.mem_observed, other]

/-- What those who use a registry can rely on, after these moments. -/
structure Roster (ref : RegistryRef) (moments : List Moment) (v : World) : Prop where
  /-- No member is without a party. -/
  covers : (v.registry ref).size ≤ (v.phaser (.registry ref)).parties
  settles : (∀ thread, v.isHalfway ref thread = false) →
    (v.phaser (.registry ref)).parties = (v.registry ref).size
  /-- A deregistration that has taken out its entry finds a party to take away, and returns. -/
  departs : ∀ {thread x rest}, v.stack thread = .withdrawal x :: rest → x.registry = ref →
    x.point = .depart → 0 < (v.phaser (.registry ref)).parties ∧ ∃ next notes,
      v.move (.run thread) = some (next, notes) ∧
        (⟨v, .run thread, notes⟩ : Moment).Replies thread rest (.registration x.removed)
  distinct : (v.registry ref).identities.Nodup
  /-- A registration returns whether the identity is absent. -/
  returns : ∀ {thread e rest notes value}, v.stack thread = .enrolment e :: rest →
    e.registry = ref → (⟨v, .run thread, notes⟩ : Moment).Replies thread rest value →
    value = .truth (!(v.registry ref).contains e.entry.identity)
  /-- While a registration that found the identity absent is half done, it stays absent. -/
  reserves : ∀ {thread e rest}, v.stack thread = .enrolment e :: rest → e.registry = ref →
    e.point = .insert → (v.registry ref).contains e.entry.identity = false
  /-- What is found is the entry that the last successful registration of the identity put in, as long
  as nobody has taken it out. -/
  finds : ∀ identity entry, (v.registry ref).get? identity = some entry ↔
    entry.identity = identity ∧ Listed ref moments entry

namespace Enrolled

variable {x : Withdrawal} {e : Enrolment}

theorem covers (enrolled : Enrolled ref w) :
    (w.registry ref).size ≤ (w.registry ref).phaser.parties := by
  obtain ⟨busy, -, -, parties⟩ := enrolled.parties
  omega

theorem settles (enrolled : Enrolled ref w) (settled : ∀ thread, w.isHalfway ref thread = false) :
    (w.registry ref).phaser.parties = (w.registry ref).size := by
  obtain ⟨busy, -, busy_iff, parties⟩ := enrolled.parties
  obtain rfl : busy = [] := List.eq_nil_iff_forall_not_mem.mpr fun thread mem => by
    simpa [settled] using (busy_iff thread).mp mem
  exact parties

theorem departs (enrolled : Enrolled ref w) (stack : w.stack thread = .withdrawal x :: rest)
    (registry : x.registry = ref) (point : x.point = .depart) :
    0 < (w.phaser (.registry ref)).parties ∧ ∃ next notes,
      w.move (.run thread) = some (next, notes) ∧
        (⟨w, .run thread, notes⟩ : Moment).Replies thread rest (.registration x.removed) := by
  obtain ⟨busy, -, busy_iff, parties⟩ := enrolled.parties
  have own : thread ∈ busy := (busy_iff thread).mpr (by
    rw [World.isHalfway, World.isAt_top stack]
    simp [Frame.isHalfway, registry, point])
  have some_party : 0 < (w.phaser (.registry ref)).parties := by
    have length := List.length_pos_of_mem own
    have same : (w.phaser (.registry ref)).parties = _ := parties
    omega
  obtain ⟨next, phase, notes, departed⟩ : ∃ next phase notes,
      w.depart (.registry x.registry) = .ok (next, phase, notes) := by
    unfold World.depart
    rw [registry]
    simp [Nat.ne_of_gt some_party]
  have step : (Frame.withdrawal x).advance thread w =
      some ⟨next, .reply (.registration x.removed), notes⟩ := by
    simp only [Frame.advance, Withdrawal.advance, point, departed]
    rfl
  exact ⟨some_party, _, _, World.move_of_advance stack step, rfl, _, _, stack, step, rfl⟩

theorem reserves (enrolled : Enrolled ref w) (stack : w.stack thread = .enrolment e :: rest)
    (registry : e.registry = ref) (point : e.point = .insert) :
    (w.registry ref).contains e.entry.identity = false := by
  have claiming : w.isClaiming ref e.entry.identity thread = true := by
    rw [World.isClaiming, World.isAt_top stack]
    simp [Frame.isClaiming, registry, point]
  have absent := enrolled.absent claiming
  rw [← Registry.contains_iff] at absent
  exact Bool.eq_false_iff.mpr absent

theorem returns {value : Reply} (enrolled : Enrolled ref w)
    (stack : w.stack thread = .enrolment e :: rest) (registry : e.registry = ref)
    (replies : (⟨w, .run thread, notes⟩ : Moment).Replies thread rest value) :
    value = .truth (!(w.registry ref).contains e.entry.identity) := by
  obtain ⟨-, frame, effect, stack', step, control⟩ := replies
  obtain ⟨rfl, -⟩ := List.cons.inj (stack.symm.trans stack')
  simp only [Frame.advance, Enrolment.advance] at step
  cases point : e.point with
  | claim =>
    simp only [point] at step
    split at step
    · simp at step
    · split at step <;> obtain rfl := Option.some.inj step
      · rename_i present
        rw [← registry, present]
        exact (Control.reply.inj control).symm
      · simp at control
  | insert =>
    simp only [point] at step
    obtain rfl := Option.some.inj step
    rw [enrolled.reserves stack registry point]
    exact (Control.reply.inj control).symm

end Enrolled

/-- A registry that was empty when nobody did anything agrees with its phaser ever after, whoever
registers and deregisters, in whatever order. -/
theorem registry_agrees {custom : World → ThreadId → Prop} {moments : List Moment}
    (idle : ∀ thread, w.stack thread = []) (empty : w.registry ref = {})
    (course : Course custom w moments v) : Roster ref moments v := by
  have enrolled := course.enrolled idle empty
  refine ⟨enrolled.covers, enrolled.settles, enrolled.departs, enrolled.distinct, enrolled.returns,
    enrolled.reserves, fun identity entry => ?_⟩
  rw [Registry.get?_eq_some_iff enrolled.distinct, course.mem_members_iff empty]

/-- The second thread registers for the first, which has registered before, and then for itself. -/
def twoRegistrations : List Move :=
  Move.repeated [
    (1, .submit 0 (.register 0 none (some 0) true)), (3, .run 0),
    (1, .submit 1 (.register 0 (some 0) none false)), (2, .run 1),
    (1, .submit 1 (.register 0 none none false)), (2, .run 1)]

def Note.isAnswer (answer : Bool) : Note → Bool
  | completed (.truth value) => value = answer
  | _ => false

theorem Note.isAnswer_iff {answer : Bool} {note : Note} :
    note.isAnswer answer = true ↔ note = .completed (.truth answer) := by
  unfold isAnswer
  split
  · simp
  · rename_i other
    simpa using other answer

/-- The duplicate is turned away and changes nothing. The last registration is half done, which shows
in one party more than there are members. -/
theorem registry_agrees_twoRegistrations : ∃ moments v, (∀ thread, World.pair.stack thread = []) ∧
    World.pair.registry (.loose 0) = {} ∧ Course (fun _ _ => True) World.pair moments v ∧
    (0, .completed (.truth true)) ∈ observations moments ∧
    (1, .completed (.truth false)) ∈ observations moments ∧
    v.isHalfway (.loose 0) 1 = true ∧ (v.phaser (.registry (.loose 0))).parties = 2 ∧
    (v.registry (.loose 0)).members = [{ identity := 0, record := some 0, interruptible := true }] ∧
    Roster (.loose 0) moments v := by
  have made : (World.pair.follow (fun _ _ => true) twoRegistrations).any (fun made =>
      shows 0 (·.isAnswer true) (observations made.1) &&
      shows 1 (·.isAnswer false) (observations made.1) && made.2.isHalfway (.loose 0) 1 &&
      decide ((made.2.phaser (.registry (.loose 0))).parties = 2) &&
      decide ((made.2.registry (.loose 0)).members =
        [{ identity := 0, record := some 0, interruptible := true }])) = true := by
    decide +kernel
  obtain ⟨⟨moments, v⟩, follows, state⟩ := (Option.any_eq_true _ _).mp made
  simp only [Bool.and_eq_true, decide_eq_true_eq] at state
  obtain ⟨⟨⟨⟨first, duplicate⟩, halfway⟩, parties⟩, members⟩ := state
  have course : Course (fun _ _ => True) World.pair moments v :=
    World.course_of_follow (fun _ _ _ => trivial) follows
  exact ⟨moments, v, World.pair_isFresh.idle, rfl, course,
    (shows_iff Note.isAnswer_iff).mp first, (shows_iff Note.isAnswer_iff).mp duplicate, halfway,
    parties, members, registry_agrees World.pair_isFresh.idle rfl course⟩

end

end StopTheWorld
