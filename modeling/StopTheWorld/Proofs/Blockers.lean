import StopTheWorld.Proofs.Batches
import StopTheWorld.Proofs.Keepsakes
import StopTheWorld.Proofs.Wakeups

namespace StopTheWorld

/-! Which callback an interrupt runs. A guard that installs a callback keeps the one found in its place, and
puts it back when it is dropped, whatever has been installed or dropped meanwhile. -/

/-- Who keeps the guard of a callback: user code, or a thread that waits for a lock. -/
inductive Keeper
  | user (tag : Tag)
  | waiter (thread : ThreadId)
  deriving DecidableEq

/-- The guard of a callback, with the callback found in its place. -/
structure Blocker where
  keeper : Keeper
  wake : Wake
  saved : Option Wake

/-- What is called to run a callback. -/
def Wake.frame : Wake → Frame
  | notify lock => .notify lock
  | script _ ops => .script { rest := ops }

/-- The guard that the step creates on the interrupter of the target. -/
def Frame.creates? (target self : ThreadId) (w : World) : Frame → Option Blocker
  | start (.blockOn whom tag ops) =>
    if whom.getD self = target then
      some ⟨.user tag, .script tag ops, (w.interrupter target).callback⟩
    else none
  | acquisition a =>
    if a.patience.target? = some target ∧ a.point = .install then
      some ⟨.waiter self, .notify a.lock, (w.interrupter target).callback⟩
    else none
  | _ => none

/-- Whose guard on the interrupter of the target the step drops. -/
def Frame.drops? (target self : ThreadId) (w : World) : Frame → Option Keeper
  | start (.access (.unblock tag)) =>
    if (w.blockers.find? (·.tag = tag)).any (·.target = target) then some (.user tag) else none
  | acquisition a =>
    match a.point with
    | .restore _ => if a.patience.target? = some target then some (.waiter self) else none
    | _ => none
  | _ => none

/-- The thread whose step it is, and the procedure that takes it. -/
def Moment.actor? (moment : Moment) : Option (ThreadId × Frame) :=
  match moment.move with
  | .run self => (moment.world.stack self).head?.map (self, ·)
  | _ => none

def Moment.creates? (target : ThreadId) (moment : Moment) : Option Blocker :=
  moment.actor?.bind fun actor => actor.2.creates? target actor.1 moment.world

def Moment.drops? (target : ThreadId) (moment : Moment) : Option Keeper :=
  moment.actor?.bind fun actor => actor.2.drops? target actor.1 moment.world

/-- The guards that are alive after the moment. A keeper that has several drops the oldest. -/
def Moment.blockers (target : ThreadId) (blockers : List Blocker) (moment : Moment) : List Blocker :=
  ((moment.drops? target).elim blockers fun keeper => blockers.eraseP (·.keeper = keeper)) ++
    (moment.creates? target).toList

/-- The guards on the interrupter of the target that are alive, the youngest last. -/
def blockersOf (target : ThreadId) (moments : List Moment) : List Blocker :=
  moments.foldl (Moment.blockers target) []

/-- The guard that the keeper drops is the youngest. -/
def isYoungest (keeper : Keeper) (blockers : List Blocker) : Bool :=
  blockers.findIdx (·.keeper = keeper) + 1 = blockers.length

/-- Every guard is dropped while it is the youngest. -/
def Nested (target : ThreadId) (moments : List Moment) : Prop :=
  ∀ pre moment post, moments = pre ++ moment :: post → ∀ keeper, moment.drops? target = some keeper →
    isYoungest keeper (blockersOf target pre) = true

/-- The callback of the youngest guard. -/
def youngest? (blockers : List Blocker) : Option Wake := blockers.getLast?.map (·.wake)

/-- The guard as it is kept for user code. -/
def Blocker.kept? (target : ThreadId) (blocker : Blocker) : Option KeptBlocker :=
  match blocker.keeper with
  | .user tag => some { tag := tag, target := target, saved := blocker.saved }
  | .waiter _ => none

/-- The guard of a thread that waits for a lock. -/
def Frame.blocker? (target self : ThreadId) : Frame → Option Blocker
  | acquisition a =>
    if a.patience.target? = some target ∧ a.point ≠ .install then
      some ⟨.waiter self, .notify a.lock, a.saved⟩
    else none
  | _ => none

/-- These are the guards that users and waiting threads have, each with what it found. -/
structure World.Hosts (target : ThreadId) (blockers : List Blocker) (w : World) : Prop where
  kept : blockers.filterMap (·.kept? target) = w.blockers.filter (·.target = target)
  waiters : ∀ thread, blockers.filter (·.keeper = .waiter thread) =
    ((w.stack thread).head?.bind (·.blocker? target thread)).toList

/-- Nobody waits, and nobody has a guard on the interrupter of the target. -/
structure World.IsBare (target : ThreadId) (w : World) : Prop where
  idle : ∀ thread, w.stack thread = []
  callback : (w.interrupter target).callback = none
  kept : ∀ guard ∈ w.blockers, guard.target ≠ target

/-- What the moment makes of the callback of the target. -/
inductive Moment.Writes (target : ThreadId) (blockers : List Blocker) (moment : Moment)
    (after : Option Wake) : Prop
  /-- The guard that is created keeps what it finds. -/
  | creates {blocker : Blocker} (creates : moment.creates? target = some blocker)
      (drops : moment.drops? target = none)
      (found : blocker.saved = (moment.world.interrupter target).callback)
      (installed : after = some blocker.wake)
  /-- The guard that is dropped puts back what it found. -/
  | drops {keeper : Keeper} {blocker : Blocker} (creates : moment.creates? target = none)
      (drops : moment.drops? target = some keeper)
      (alive : blockers.find? (·.keeper = keeper) = some blocker) (restored : after = blocker.saved)
  | keeps (creates : moment.creates? target = none) (drops : moment.drops? target = none)
      (same : after = (moment.world.interrupter target).callback)

/-- Each guard has found the callback of the one that is next in age. -/
def Stacked (blockers : List Blocker) : Prop :=
  ∀ older blocker younger, blockers = older ++ blocker :: younger → blocker.saved = youngest? older

section

variable {target self thread : ThreadId} {w v : World} {frame : Frame} {rest : List Frame}
  {effect : Effect} {notes : List Note} {moments : List Moment} {moment : Moment}
  {blockers : List Blocker} {blocker : Blocker} {keeper : Keeper}

section Lists

variable {α : Type} {p q : α → Bool}

theorem filter_eraseP_of_disjoint (disjoint : ∀ a, p a = true → q a = false) (l : List α) :
    (l.eraseP p).filter q = l.filter q := by
  induction l with
  | nil => rfl
  | cons a l ih =>
    cases here : p a with
    | true => simp [here, disjoint a here]
    | false => simp [here, List.filter_cons, ih]

theorem filter_eraseP_of_find?_neg {a : α} {l : List α} (found : l.find? p = some a) (other : q a = false) :
    (l.eraseP p).filter q = l.filter q := by
  induction l with
  | nil => rfl
  | cons b l ih =>
    cases here : p b with
    | true =>
      obtain rfl : b = a := by simpa [here] using found
      simp [here, other]
    | false =>
      rw [List.find?_cons_of_neg (by simp [here])] at found
      simp [here, List.filter_cons, ih found]

theorem find?_filter_of_find? {a : α} {l : List α} (found : l.find? p = some a) (fits : q a = true) :
    (l.filter q).find? p = some a := by
  obtain ⟨passes, before, after, rfl, none⟩ := List.find?_eq_some_iff_append.mp found
  refine List.find?_eq_some_iff_append.mpr ⟨passes, before.filter q, after.filter q, ?_, fun b mem =>
    none b (List.mem_of_mem_filter mem)⟩
  rw [List.filter_append, List.filter_cons_of_pos fits]

theorem filter_eraseP_of_find? {a : α} {l : List α} (found : l.find? p = some a) (fits : q a = true) :
    (l.eraseP p).filter q = (l.filter q).eraseP p := by
  induction l with
  | nil => rfl
  | cons b l ih =>
    cases here : p b with
    | true =>
      obtain rfl : b = a := by simpa [here] using found
      simp [here, fits]
    | false =>
      rw [List.find?_cons_of_neg (by simp [here])] at found
      cases passes : q b <;> simp [here, passes, ih found]

end Lists

theorem youngest?_append (blockers : List Blocker) (blocker : Blocker) :
    youngest? (blockers ++ [blocker]) = some blocker.wake := by
  simp [youngest?]

theorem Stacked.nil : Stacked [] := by
  intro older blocker younger parts
  simp at parts

theorem Stacked.snoc (stacked : Stacked blockers) (found : blocker.saved = youngest? blockers) :
    Stacked (blockers ++ [blocker]) := by
  intro older other younger parts
  obtain rfl | ⟨before, last, rfl⟩ := younger.eq_nil_or_concat
  · obtain ⟨rfl, same⟩ := List.append_inj' parts rfl
    exact List.head_eq_of_cons_eq same ▸ found
  · rw [List.concat_eq_append, ← List.cons_append, ← List.append_assoc] at parts
    obtain ⟨rfl, -⟩ := List.append_inj' parts rfl
    exact stacked _ _ _ rfl

theorem Stacked.of_append {younger : List Blocker} (stacked : Stacked (blockers ++ younger)) :
    Stacked blockers := by
  intro older blocker later parts
  exact stacked older blocker (later ++ younger) (by rw [parts, List.append_assoc, List.cons_append])

/-- The youngest guard leaves the others as they are. -/
theorem isYoungest.parts (youngest : isYoungest keeper blockers = true) : ∃ older blocker,
    blockers = older ++ [blocker] ∧ blockers.find? (·.keeper = keeper) = some blocker ∧
      blockers.eraseP (·.keeper = keeper) = older := by
  simp only [isYoungest, decide_eq_true_eq] at youngest
  induction blockers with
  | nil => simp at youngest
  | cons first blockers ih =>
    rw [List.findIdx_cons] at youngest
    cases here : decide (first.keeper = keeper) with
    | true =>
      obtain rfl : blockers = [] := by
        rw [here, cond_true, Nat.zero_add, List.length_cons] at youngest
        exact List.length_eq_zero_iff.mp (by omega)
      exact ⟨[], first, rfl, by simp [of_decide_eq_true here], by simp [of_decide_eq_true here]⟩
    | false =>
      have other : first.keeper ≠ keeper := of_decide_eq_false here
      obtain ⟨older, blocker, rfl, found, erased⟩ := ih (by simpa [here] using youngest)
      exact ⟨first :: older, blocker, rfl, by simpa [other] using found, by simpa [other] using erased⟩

theorem Frame.isLeaf_of_blocker? (some : (frame.blocker? target self).isSome = true) :
    frame.isLeaf = true := by
  cases frame <;> first | rfl | simp [blocker?] at some

/-- What is read off the innermost procedure, if only of one that calls no other, is read off the step. -/
theorem Control.bind_stack {α : Type} {f : Frame → Option α} {control : Control}
    (leaf : ∀ {frame}, (f frame).isSome = true → frame.isLeaf = true)
    (hosted : frame.isHosted rest = true) :
    (control.stack rest).head?.bind f = control.top?.bind f := by
  cases stack : control.stack rest with
  | nil => cases control <;> simp [Control.stack] at stack ⊢
  | cons top below =>
    cases reads : f top with
    | some value =>
      rw [control.top_of_stack hosted stack (leaf (by simp [reads]))]
      rfl
    | none =>
      cases control with
      | goto | call =>
        obtain ⟨rfl, -⟩ := List.cons.inj stack
        rfl
      | reply | unwind => simp [reads]

theorem Blocker.kept?_eq_some {guard : KeptBlocker} (kept : blocker.kept? target = some guard) :
    blocker.keeper = .user guard.tag ∧ guard.target = target ∧ guard.saved = blocker.saved := by
  obtain ⟨keeper, wake, saved⟩ := blocker
  cases keeper with
  | user tag =>
    obtain rfl := Option.some.inj kept
    exact ⟨rfl, rfl, rfl⟩
  | waiter => simp [kept?] at kept

theorem Blocker.filterMap_kept?_eraseP :
    (blockers.eraseP (·.keeper = .waiter thread)).filterMap (·.kept? target) =
      blockers.filterMap (·.kept? target) := by
  induction blockers with
  | nil => rfl
  | cons first blockers ih =>
    by_cases mine : first.keeper = .waiter thread
    · simp [mine, kept?]
    · simp only [mine, decide_false, Bool.false_eq_true, not_false_eq_true, List.eraseP_cons_of_neg,
        List.filterMap_cons, ih]

theorem Moment.blockers_run (stack : w.stack self = frame :: rest) :
    Moment.blockers target blockers ⟨w, .run self, notes⟩ =
      ((frame.drops? target self w).elim blockers fun keeper =>
        blockers.eraseP (·.keeper = keeper)) ++ (frame.creates? target self w).toList := by
  simp [Moment.blockers, Moment.drops?, Moment.creates?, Moment.actor?, stack]

theorem Moment.blockers_other {move : Move} (other : ∀ self, move ≠ .run self) :
    Moment.blockers target blockers ⟨w, move, notes⟩ = blockers := by
  have none : (⟨w, move, notes⟩ : Moment).actor? = none := by
    cases move with
    | run self => exact absurd rfl (other self)
    | _ => rfl
  simp [Moment.blockers, Moment.drops?, Moment.creates?, none]

/-- Only two operations have to do with what users keep. -/
theorem Frame.blockers_of_step (step : frame.advance self w = some effect) :
    effect.world.blockers =
      match frame with
      | start (.blockOn whom tag _) => w.blockers ++
          [{ tag := tag, target := whom.getD self, saved := (w.interrupter (whom.getD self)).callback }]
      | start (.access (.unblock tag)) => w.blockers.eraseP (·.tag = tag)
      | _ => w.blockers := by
  have keeps (apart : frame.keepsGuards = false) : effect.world.blockers = w.blockers :=
    congrArg Prod.snd (Frame.keeps_kept step apart)
  cases frame with
  | start op =>
    cases op with
    | access access =>
      cases access with
      | unblock tag =>
        simp only [advance, Op.advance, Access.advance] at step
        split at step <;> obtain rfl := Option.some.inj step
        · exact (List.eraseP_of_forall_not fun guard mem => List.find?_eq_none.mp ‹_› guard mem).symm
        · rfl
      | _ => exact keeps rfl
    | blockOn whom tag ops =>
      obtain rfl := Option.some.inj step
      rfl
    | unlock =>
      simp only [advance, Op.advance] at step
      split at step <;> obtain rfl := Option.some.inj step <;> rfl
    | _ => exact keeps rfl
  | keepGuard =>
    obtain rfl := Option.some.inj step
    rfl
  | _ => exact keeps rfl

/-- Only a thread that waits for a lock has to do with the guard of a wait, and only with its own. -/
theorem Frame.waits_of_drops? (drops : frame.drops? target self w = some (.waiter thread)) :
    thread = self ∧ ∃ a, frame = .acquisition a := by
  unfold drops? at drops
  split at drops
  · split at drops <;> simp at drops
  · split at drops
    · split at drops
      · exact ⟨(Keeper.waiter.inj (Option.some.inj drops)).symm, _, rfl⟩
      · simp at drops
    · simp at drops
  · simp at drops

theorem Frame.waits_of_creates? (creates : frame.creates? target self w = some blocker)
    (waits : blocker.keeper = .waiter thread) : thread = self ∧ ∃ a, frame = .acquisition a := by
  unfold creates? at creates
  split at creates
  · split at creates
    · obtain rfl := Option.some.inj creates
      simp at waits
    · simp at creates
  · split at creates
    · obtain rfl := Option.some.inj creates
      exact ⟨(Keeper.waiter.inj waits).symm, _, rfl⟩
    · simp at creates
  · simp at creates

theorem World.callback_modifyInterrupter {callback : Option Wake} :
    ((w.modifyInterrupter target (·.install callback)).interrupter target).callback = callback := by
  rw [World.interrupter_modifyInterrupter, if_pos rfl]
  rfl

/-- A guard that is created keeps what it finds. -/
theorem Frame.saved_of_creates? (step : frame.advance self w = some effect)
    (creates : frame.creates? target self w = some blocker) :
    blocker.saved = (w.interrupter target).callback ∧
      (effect.world.interrupter target).callback = some blocker.wake := by
  unfold creates? at creates
  split at creates
  · split at creates
    · rename_i own
      obtain rfl := Option.some.inj creates
      obtain rfl := Option.some.inj step
      subst own
      exact ⟨rfl, World.callback_modifyInterrupter⟩
    · simp at creates
  · split at creates
    · obtain rfl := Option.some.inj creates
      rename_i a installs
      obtain ⟨own, point⟩ := installs
      cases Acquisition.goes step with
      | installs patience =>
        simp only [patience, Patience.target?, Option.some.injEq] at own
        subst own
        exact ⟨rfl, World.callback_modifyInterrupter⟩
      | takes here | enters _ here | obeys _ here | looks _ here | yields _ here | stays _ here
      | awaits _ here | sleeps _ here | restores _ here => simp [point] at here
    · simp at creates
  · simp at creates

/-- Whoever creates a guard drops none. -/
theorem Frame.drops?_of_creates? (creates : frame.creates? target self w = some blocker) :
    frame.drops? target self w = none := by
  unfold creates? at creates
  split at creates
  · rfl
  · split at creates
    · rename_i installs
      simp [drops?, installs.2]
    · simp at creates
  · simp at creates

/-- Nothing else changes a callback. -/
theorem Frame.installs_of_none (creates : frame.creates? target self w = none)
    (drops : frame.drops? target self w = none) : frame.installs target self w = false := by
  cases frame with
  | acquisition a =>
    by_cases own : a.patience.target? = some target
    · cases point : a.point <;> simp [creates?, drops?, installs, own, point] at creates drops ⊢
    · simp [installs, own]
  | start op =>
    cases op with
    | access access => 
      cases access with
      | unblock tag => simpa [drops?, installs] using drops
      | _ => rfl
    | blockOn whom => simpa [creates?, installs] using creates
    | _ => rfl
  | _ => rfl

namespace World.Hosts

/-- Users have the guards that they have not dropped. -/
theorem kept_of_step (hosts : w.Hosts target blockers) (step : frame.advance self w = some effect) :
    (((frame.drops? target self w).elim blockers fun keeper =>
        blockers.eraseP (·.keeper = keeper)) ++ (frame.creates? target self w).toList).filterMap
          (·.kept? target) = effect.world.blockers.filter (·.target = target) := by
  rw [Frame.blockers_of_step step]
  cases frame with
  | start op =>
    cases op with
    | access access =>
      cases access with
      | unblock tag =>
        simp only [Frame.creates?, Option.toList_none, List.append_nil]
        cases found : w.blockers.find? (·.tag = tag) with
        | none =>
          rw [List.eraseP_of_forall_not fun guard mem => List.find?_eq_none.mp found guard mem]
          simpa [Frame.drops?, found] using hosts.kept
        | some guard =>
          by_cases own : guard.target = target
          · rw [filter_eraseP_of_find? found (by simpa using own), ← hosts.kept,
              List.eraseP_filterMap]
            simp only [Frame.drops?, found, Option.any_some, own, decide_true, if_true,
              Option.elim_some]
            congr 2
            funext blocker
            obtain ⟨keeper, wake, saved⟩ := blocker
            cases keeper <;> simp [Blocker.kept?]
          · rw [filter_eraseP_of_find?_neg found (by simpa using own)]
            simpa [Frame.drops?, found, own] using hosts.kept
      | _ => simpa [Frame.drops?, Frame.creates?] using hosts.kept
    | blockOn whom tag ops =>
      by_cases own : whom.getD self = target
      · have added : Blocker.kept? target ⟨.user tag, .script tag ops, (w.interrupter target).callback⟩ =
            some { tag := tag, target := target, saved := (w.interrupter target).callback } := rfl
        simp [Frame.drops?, Frame.creates?, own, hosts.kept, added]
      · simpa [Frame.drops?, Frame.creates?, own] using hosts.kept
    | _ => simpa [Frame.drops?, Frame.creates?] using hosts.kept
  | acquisition a =>
    have created : ((Frame.acquisition a).creates? target self w).toList.filterMap
        (·.kept? target) = [] := by
      simp only [Frame.creates?]
      split <;> rfl
    rw [List.filterMap_append, created, List.append_nil, ← hosts.kept]
    simp only [Frame.drops?]
    repeat' split
    · exact Blocker.filterMap_kept?_eraseP
    · rfl
    · rfl
  | _ => simpa [Frame.drops?, Frame.creates?] using hosts.kept

/-- The guard of a thread that waits is not changed by what is not a step of its wait. -/
theorem filter_waiter
    (dropped : frame.drops? target self w ≠ some (.waiter thread))
    (created : ∀ blocker, frame.creates? target self w = some blocker →
      blocker.keeper ≠ .waiter thread) :
    (((frame.drops? target self w).elim blockers fun keeper =>
        blockers.eraseP (·.keeper = keeper)) ++ (frame.creates? target self w).toList).filter
          (·.keeper = .waiter thread) = blockers.filter (·.keeper = .waiter thread) := by
  have none : (frame.creates? target self w).toList.filter (·.keeper = .waiter thread) = [] := by
    cases creates : frame.creates? target self w with
    | none => rfl
    | some blocker => simpa using created blocker creates
  rw [List.filter_append, none, List.append_nil]
  cases drops : frame.drops? target self w with
  | none => rfl
  | some keeper =>
    refine filter_eraseP_of_disjoint (fun blocker mine => ?_) blockers
    have other : keeper ≠ .waiter thread := fun same => dropped (by rw [drops, same])
    simpa [of_decide_eq_true mine] using other

theorem find?_waiter (hosts : w.Hosts target blockers) (stack : w.stack self = frame :: rest)
    (mine : frame.blocker? target self = some blocker) :
    blockers.find? (·.keeper = .waiter self) = some blocker := by
  rw [← List.head?_filter, hosts.waiters self, stack, List.head?_cons, Option.bind_some, mine]
  rfl

/-- A waiting thread has the guard of its wait. -/
theorem waiters_of_step (hosts : w.Hosts target blockers) (stack : w.stack self = frame :: rest)
    (hosted : frame.isHosted rest = true) (step : frame.advance self w = some effect) :
    (((frame.drops? target self w).elim blockers fun keeper =>
        blockers.eraseP (·.keeper = keeper)) ++ (frame.creates? target self w).toList).filter
          (·.keeper = .waiter self) =
      ((effect.control.stack rest).head?.bind (·.blocker? target self)).toList := by
  have before : blockers.filter (·.keeper = .waiter self) = (frame.blocker? target self).toList := by
    rw [hosts.waiters self, stack]
    rfl
  rw [effect.control.bind_stack Frame.isLeaf_of_blocker? hosted]
  by_cases waits : ∃ a, frame = .acquisition a
  · obtain ⟨a, rfl⟩ := waits
    cases Acquisition.goes step with
    | installs patience point =>
      rename_i other yields
      by_cases own : other = target
      · subst own
        simp [Frame.drops?, Frame.creates?, Frame.blocker?, Patience.target?, patience, point,
          before]
      · simp [Frame.drops?, Frame.creates?, Frame.blocker?, Patience.target?, patience, point,
          before, own]
    | takes point _ _ _ done =>
      obtain ⟨patience, rfl⟩ | ⟨-, rfl⟩ := done
      · simp [Frame.drops?, Frame.creates?, Frame.blocker?, Patience.target?, patience, point, before]
      · simp [Frame.drops?, Frame.creates?, Frame.blocker?, point, before]
    | restores patience point =>
      rename_i other yields acquired
      by_cases own : other = target
      · subst own
        have mine : (Frame.acquisition a).blocker? other self =
            some ⟨.waiter self, .notify a.lock, a.saved⟩ := by
          simp [Frame.blocker?, Patience.target?, patience, point]
        have found := hosts.find?_waiter stack mine
        have fits : decide ((⟨.waiter self, .notify a.lock, a.saved⟩ : Blocker).keeper =
            .waiter self) = true := by simp
        have dropped : (Frame.acquisition a).drops? other self w = some (.waiter self) := by
          simp [Frame.drops?, Patience.target?, patience, point]
        have created : (Frame.acquisition a).creates? other self w = none := by
          simp [Frame.creates?, point]
        rw [dropped, created, Option.toList_none, List.append_nil, Option.elim_some,
          filter_eraseP_of_find? found fits, before, mine]
        simp
      · simp [Frame.drops?, Frame.creates?, Frame.blocker?, Patience.target?, patience, point,
          before, own]
    | enters _ point | obeys _ point | looks _ point | yields _ point | stays _ point
    | awaits _ point | sleeps _ point =>
      simp [Frame.drops?, Frame.creates?, Frame.blocker?, point, before]
  · have idle : frame.blocker? target self = none := by
      cases frame with
      | acquisition a => exact absurd ⟨a, rfl⟩ waits
      | _ => rfl
    have after : effect.control.top?.bind (·.blocker? target self) = none := by
      cases top : effect.control.top? with
      | none => rfl
      | some begun =>
        cases begun with
        | acquisition a =>
          obtain ⟨lock, owner, patience, rfl⟩ | ⟨a, rfl, -⟩ := Frame.acquisition_of_step step top
          · cases patience <;> simp [Frame.blocker?, Acquisition.begin, Patience.target?]
          · exact absurd ⟨a, rfl⟩ waits
        | _ => rfl
    rw [filter_waiter (fun dropped => waits (Frame.waits_of_drops? dropped).2)
      (fun _ created mine => waits (Frame.waits_of_creates? created mine).2), before, idle, after]

/-- Every move keeps to the account of the guards. -/
theorem move {move : Move} (hosts : w.Hosts target blockers) (laid : w.IsLaid)
    (moves : w.move move = some (v, notes)) :
    v.Hosts target (Moment.blockers target blockers ⟨w, move, notes⟩) := by
  by_cases runs : ∃ self, move = .run self
  · obtain ⟨self, rfl⟩ := runs
    obtain ⟨frame, rest, effect, stack, step, rfl, -⟩ := World.step_eq_some moves
    rw [Moment.blockers_run stack]
    refine ⟨hosts.kept_of_step step, fun thread => ?_⟩
    rw [World.stack_setStack]
    split
    · rename_i own
      subst own
      have hosted : frame.isHosted rest = true := by
        have laid := laid thread
        rw [stack] at laid
        exact laid.1
      exact hosts.waiters_of_step stack hosted step
    · rename_i other
      rw [filter_waiter (fun dropped => other (Frame.waits_of_drops? dropped).1)
        (fun _ created mine => other (Frame.waits_of_creates? created mine).1), hosts.waiters,
        Frame.advance_stack step]
  · have other (self : ThreadId) : move ≠ .run self := fun same => runs ⟨self, same⟩
    rw [Moment.blockers_other other]
    constructor
    · rw [hosts.kept, show v.blockers = w.blockers from
        congrArg Prod.snd (World.kept_other moves other)]
    · intro thread
      rw [hosts.waiters]
      obtain ⟨-, same | ⟨op, empty, told⟩ | ⟨frame, frame', below, found, woken, rouses⟩⟩ :=
        World.move_other moves (other thread)
      · rw [same]
      · simp [empty, told, Frame.blocker?]
      · rw [found, woken]
        cases rouses <;> rfl

/-- A guard that is dropped puts back what it found, whatever has been installed since. -/
theorem saved_of_drops (hosts : w.Hosts target blockers) (stack : w.stack self = frame :: rest)
    (step : frame.advance self w = some effect)
    (drops : frame.drops? target self w = some keeper) :
    ∃ blocker, blockers.find? (·.keeper = keeper) = some blocker ∧
      (effect.world.interrupter target).callback = blocker.saved := by
  cases frame with
  | start op =>
    cases op with
    | access access =>
      cases access with
      | unblock tag =>
        simp only [Frame.drops?] at drops
        split at drops
        · obtain rfl := Option.some.inj drops
          obtain ⟨guard, found, own⟩ := (Option.any_eq_true _ _).mp ‹_›
          have mine : guard.target = target := of_decide_eq_true own
          subst mine
          have kept := find?_filter_of_find? (q := fun other => other.target = guard.target) found own
          rw [← hosts.kept, List.find?_filterMap] at kept
          obtain ⟨blocker, first, same⟩ := Option.bind_eq_some_iff.mp kept
          have reads : (fun blocker : Blocker => (blocker.kept? guard.target).any (·.tag = tag)) =
              fun blocker => decide (blocker.keeper = .user tag) := by
            funext blocker
            obtain ⟨keeper, wake, saved⟩ := blocker
            cases keeper <;> simp [Blocker.kept?]
          refine ⟨blocker, by rw [← first, reads], ?_⟩
          rw [← (Blocker.kept?_eq_some same).2.2]
          simp only [Frame.advance, Op.advance, Access.advance, found] at step
          obtain rfl := Option.some.inj step
          exact World.callback_modifyInterrupter
        · simp at drops
      | _ => simp [Frame.drops?] at drops
    | _ => simp [Frame.drops?] at drops
  | acquisition a =>
    cases Acquisition.goes step with
    | restores patience point =>
      simp only [Frame.drops?, point, patience, Patience.target?] at drops
      split at drops
      · rename_i own
        obtain rfl := Option.some.inj drops
        obtain rfl := Option.some.inj own
        have blocks : (Frame.acquisition a).blocker? _ self =
            some ⟨.waiter self, .notify a.lock, a.saved⟩ :=
          if_pos ⟨by rw [patience, Patience.target?], by simp [point]⟩
        exact ⟨_, hosts.find?_waiter stack blocks, World.callback_modifyInterrupter⟩
      · simp at drops
    | installs _ point | takes point | enters _ point | obeys _ point | looks _ point
    | yields _ point | stays _ point | awaits _ point | sleeps _ point =>
      simp [Frame.drops?, point] at drops
  | _ => simp [Frame.drops?] at drops

end World.Hosts

theorem World.IsBare.hosts (bare : w.IsBare target) : w.Hosts target [] := by
  constructor
  · exact (List.filter_eq_nil_iff.mpr fun guard mem => by simpa using bare.kept guard mem).symm
  · intro thread
    simp [bare.idle thread]

theorem World.IsBare.isLaid (bare : w.IsBare target) : w.IsLaid := fun thread => by
  rw [bare.idle]
  trivial

theorem blockersOf_append (moments : List Moment) (moment : Moment) :
    blockersOf target (moments ++ [moment]) = moment.blockers target (blockersOf target moments) := by
  simp [blockersOf]

/-- The guards that are alive are those that users and waiting threads have. -/
theorem Course.hosts {custom : World → ThreadId → Prop} (course : Course custom w moments v)
    (bare : w.IsBare target) : v.Hosts target (blockersOf target moments) := by
  induction course with
  | nil => exact bare.hosts
  | snoc before _ moves ih =>
    rw [blockersOf_append]
    exact ih.move (before.isLaid bare.isLaid) moves

theorem Moment.writes {move : Move} (hosts : w.Hosts target blockers)
    (moves : w.move move = some (v, notes)) :
    (⟨w, move, notes⟩ : Moment).Writes target blockers (v.interrupter target).callback := by
  by_cases runs : ∃ self, move = .run self
  · obtain ⟨self, rfl⟩ := runs
    obtain ⟨frame, rest, effect, stack, step, rfl, -⟩ := World.step_eq_some moves
    rw [World.interrupter_setStack]
    have created : (⟨w, .run self, notes⟩ : Moment).creates? target = frame.creates? target self w := by
      simp [creates?, actor?, stack]
    have dropped : (⟨w, .run self, notes⟩ : Moment).drops? target = frame.drops? target self w := by
      simp [drops?, actor?, stack]
    cases creates : frame.creates? target self w with
    | some blocker =>
      obtain ⟨found, installed⟩ := Frame.saved_of_creates? step creates
      exact .creates (created.trans creates) (dropped.trans (Frame.drops?_of_creates? creates)) found
        installed
    | none =>
      cases drops : frame.drops? target self w with
      | some keeper =>
        obtain ⟨blocker, alive, restored⟩ := hosts.saved_of_drops stack step drops
        exact .drops (created.trans creates) (dropped.trans drops) alive restored
      | none =>
        exact .keeps (created.trans creates) (dropped.trans drops)
          (Frame.callback_of_step step (Frame.installs_of_none creates drops))
  · have other (self : ThreadId) : move ≠ .run self := fun same => runs ⟨self, same⟩
    have none : (⟨w, move, notes⟩ : Moment).actor? = none := by
      cases move with
      | run self => exact absurd rfl (other self)
      | _ => rfl
    exact .keeps (by simp [creates?, none]) (by simp [drops?, none])
      (by rw [World.interrupter_other moves other])

theorem Nested.of_append {later : List Moment} (nested : Nested target (moments ++ later)) :
    Nested target moments := by
  intro pre moment post parts
  exact nested pre moment (post ++ later) (by rw [parts, List.append_assoc, List.cons_append])

/-- As long as every guard is dropped while it is the youngest, each has found the next in age, and
what is installed is the youngest one's. -/
theorem Course.stacked {custom : World → ThreadId → Prop} (course : Course custom w moments v)
    (bare : w.IsBare target) (nested : Nested target moments) :
    Stacked (blockersOf target moments) ∧
      (v.interrupter target).callback = youngest? (blockersOf target moments) := by
  induction course with
  | nil => exact ⟨.nil, bare.callback⟩
  | @snoc moments v u move notes before _ moves ih =>
    obtain ⟨stacked, installed⟩ := ih nested.of_append
    rw [blockersOf_append]
    cases Moment.writes (before.hosts bare) moves with
    | @creates blocker creates drops found after =>
      rw [Moment.blockers, creates, drops]
      refine ⟨stacked.snoc (found.trans installed), ?_⟩
      exact after.trans (youngest?_append _ _).symm
    | @drops keeper blocker creates drops alive restored =>
      obtain ⟨older, other, parts, found, erased⟩ := isYoungest.parts (nested _ _ [] rfl keeper drops)
      obtain rfl := Option.some.inj (found.symm.trans alive)
      rw [Moment.blockers, creates, drops, Option.elim_some, erased, Option.toList_none,
        List.append_nil]
      rw [parts] at stacked
      exact ⟨stacked.of_append, restored.trans (stacked _ _ [] rfl)⟩
    | keeps creates drops same =>
      rw [Moment.blockers, creates, drops, Option.elim_none, Option.toList_none, List.append_nil]
      exact ⟨stacked, same.trans installed⟩

/-- An interrupt runs what is installed, and unparks the target after that. -/
theorem World.calls_of_look {i : Interruption} (stack : w.stack self = .interruption i :: rest)
    (look : i.point = .look) (moves : w.move (.run self) = some (v, notes)) :
    v.stack self = ((w.interrupter i.target).callback.map Wake.frame).toList ++
      .interruption { i with point := .unpark } :: rest := by
  obtain ⟨frame, below, effect, top, step, rfl, -⟩ := World.step_eq_some moves
  obtain ⟨rfl, rfl⟩ := List.cons.inj (top.symm.trans stack)
  simp only [Frame.advance, Interruption.advance, look] at step
  rw [World.stack_setStack, if_pos rfl]
  split at step <;> obtain rfl := Option.some.inj step <;> simp [*, Wake.frame, Control.stack]

/-- The callback that an interrupt runs. Whatever the order in which guards are created and dropped, a
guard that is dropped puts back the callback that it found; if every guard is dropped while it is the
youngest, an interrupt runs the callback of the youngest guard alive, and none if there is none. -/
theorem youngest_guard_called {custom : World → ThreadId → Prop} (bare : w.IsBare target)
    (course : Course custom w moments v) :
    (∀ pre moment post next, moments = pre ++ moment :: post →
      moment.world.move moment.move = some (next, moment.notes) →
        moment.Writes target (blockersOf target pre) (next.interrupter target).callback) ∧
    (Nested target moments →
      (v.interrupter target).callback = youngest? (blockersOf target moments) ∧
      ∀ pre moment post next self i rest, moments = pre ++ moment :: post →
        moment.world.move moment.move = some (next, moment.notes) → moment.move = .run self →
        moment.world.stack self = .interruption i :: rest → i.target = target → i.point = .look →
          next.stack self = ((youngest? (blockersOf target pre)).map Wake.frame).toList ++
            .interruption { i with point := .unpark } :: rest) := by
  refine ⟨fun pre moment post next parts moves => ?_, fun nested => ⟨(course.stacked bare nested).2, ?_⟩⟩
  · obtain ⟨-, before, -⟩ := course.split parts
    exact Moment.writes (before.hosts bare) moves
  · rintro pre moment post next self i rest parts moves runs stack rfl look
    obtain ⟨-, before, -⟩ := course.split parts
    rw [parts] at nested
    rw [← (before.stacked bare nested.of_append).2]
    rw [runs] at moves
    exact World.calls_of_look stack look moves

/-- Decides whether every guard is dropped while it is the youngest. -/
def nests (target : ThreadId) : List Blocker → List Moment → Bool
  | _, [] => true
  | blockers, moment :: moments =>
    (moment.drops? target).all (isYoungest · blockers) &&
      nests target (moment.blockers target blockers) moments

theorem nested_of_nests (nests : nests target [] moments = true) : Nested target moments := by
  intro pre moment post parts keeper drops
  suffices holds : ∀ blockers, StopTheWorld.nests target blockers moments = true →
      isYoungest keeper (pre.foldl (Moment.blockers target) blockers) = true from holds [] nests
  subst parts
  clear nests
  induction pre with
  | nil =>
    intro blockers nests
    simp only [List.nil_append, StopTheWorld.nests, drops, Option.all_some, Bool.and_eq_true] at nests
    exact nests.1
  | cons first pre ih =>
    intro blockers nests
    simp only [List.cons_append, StopTheWorld.nests, Bool.and_eq_true] at nests
    exact ih _ nests.2

def Wake.isNotify (lock : LockRef) : Wake → Bool
  | notify other => other = lock
  | script _ _ => false

/-- Decides whether an interrupt of the target by the thread is about to look for a callback. -/
def Moment.isLook (target self : ThreadId) (moment : Moment) : Bool :=
  match moment.move, moment.world.stack self with
  | .run thread, .interruption i :: _ => thread = self && i.target = target && i.point = .look
  | _, _ => false

theorem Moment.isLook_iff : moment.isLook target self = true ↔ moment.move = .run self ∧
    ∃ i rest, moment.world.stack self = .interruption i :: rest ∧ i.target = target ∧
      i.point = .look := by
  unfold isLook
  constructor
  · intro looks
    split at looks
    · simp only [Bool.and_eq_true, decide_eq_true_eq] at looks
      exact ⟨by rw [‹moment.move = _›, looks.1.1], _, _, ‹_›, looks.1.2, looks.2⟩
    · simp at looks
  · rintro ⟨runs, i, rest, stack, own, look⟩
    simp [runs, stack, own, look]

theorem Wake.eq_of_isNotify {lock : LockRef} {wake : Option Wake}
    (notifies : wake.any (·.isNotify lock) = true) : wake = some (.notify lock) := by
  obtain ⟨wake, rfl, notifies⟩ := (Option.any_eq_true _ _).mp notifies
  cases wake with
  | notify other => exact congrArg _ (congrArg _ (of_decide_eq_true notifies))
  | script => simp [isNotify] at notifies

/-- A thread that keeps a guard waits for a lock that another has taken, and is interrupted. -/
def guardedWait : List Move :=
  Move.repeated [
    (1, .submit 0 (.blockOn none "a" [])), (1, .run 0), (1, .submit 1 (.lock 0)), (3, .run 1),
    (1, .submit 0 (.lockInterruptibly 0 none)), (6, .run 0), (1, .submit 1 (.interrupt (some 0))),
    (3, .run 1)]

theorem World.pair_isBare : World.pair.IsBare 0 :=
  ⟨World.pair_isFresh.idle, rfl, fun _ mem => nomatch mem⟩

/-- The interrupt wakes the waiting room of the lock; the older guard is the user's. -/
theorem youngest_guard_called_guardedWait : ∃ moments v, World.pair.IsBare 0 ∧
    Course (fun _ _ => True) World.pair moments v ∧ Nested 0 moments ∧
    (blockersOf 0 moments).map (·.keeper) = [.user "a", .waiter 0] ∧
    (v.interrupter 0).callback = some (.notify (.loose 0)) ∧
    (v.stack 1).head? = some (.notify (.loose 0)) := by
  have made : (World.pair.follow (fun _ _ => true) guardedWait).any (fun made =>
      (nests 0 [] made.1 && (blockersOf 0 made.1).map (·.keeper) = [.user "a", .waiter 0]) &&
        (youngest? (blockersOf 0 made.1)).any (·.isNotify (.loose 0)) &&
        made.1[16]?.any fun last => last.isLook 0 1 && made.1.length = 17 &&
          (youngest? (blockersOf 0 (made.1.take 16))).any (·.isNotify (.loose 0))) = true := by
    decide +kernel
  obtain ⟨⟨moments, v⟩, follows, state⟩ := (Option.any_eq_true _ _).mp made
  simp only [Bool.and_eq_true, decide_eq_true_eq, Option.any_eq_true _] at state
  obtain ⟨⟨⟨nests, keepers⟩, installed⟩, last, found, ⟨looks, length⟩, called⟩ := state
  have course : Course (fun _ _ => True) World.pair moments v :=
    World.course_of_follow (fun _ _ _ => trivial) follows
  have nested := nested_of_nests nests
  obtain ⟨runs, i, rest, stack, own, look⟩ := Moment.isLook_iff.mp looks
  have parts : moments = moments.take 16 ++ [last] := by
    have parts := eq_take_cons_drop found
    rwa [List.drop_of_length_le length.le] at parts
  obtain ⟨-, -, moves⟩ := (parts ▸ course).unsnoc
  obtain ⟨callback, calls⟩ := (youngest_guard_called World.pair_isBare course).2 nested
  refine ⟨moments, v, World.pair_isBare, course, nested, keepers,
    callback.trans (Wake.eq_of_isNotify ((Option.any_eq_true _ _).mpr installed)), ?_⟩
  rw [calls _ last [] v 1 i rest parts moves runs stack own look,
    Wake.eq_of_isNotify ((Option.any_eq_true _ _).mpr called)]
  rfl

/-- Of two guards, the one created first is dropped first. -/
def crossedGuards : List Move × List Move :=
  (Move.repeated [
    (1, .submit 0 (.blockOn none "a" [])), (1, .run 0), (1, .submit 0 (.blockOn none "b" [])),
    (1, .run 0), (1, .submit 0 (.access (.unblock "a"))), (1, .run 0)],
  Move.repeated [(1, .submit 0 (.access (.unblock "b"))), (1, .run 0)])

/-- While a guard is alive no callback is installed, and when none is alive one is installed. -/
theorem callback_outlives_guards : ∃ first second v u, World.pair.IsBare 0 ∧
    Course (fun _ _ => True) World.pair first v ∧ Course (fun _ _ => True) v second u ∧
    (blockersOf 0 first).map (·.keeper) = [.user "b"] ∧ (v.interrupter 0).callback.isNone = true ∧
    (blockersOf 0 (first ++ second)).map (·.keeper) = [] ∧
    (u.interrupter 0).callback.isSome = true := by
  have made : (World.pair.follow (fun _ _ => true) crossedGuards.1).any (fun first =>
      ((blockersOf 0 first.1).map (·.keeper) = [.user "b"] &&
        (first.2.interrupter 0).callback.isNone) &&
      (first.2.follow (fun _ _ => true) crossedGuards.2).any fun second =>
        (blockersOf 0 (first.1 ++ second.1)).map (·.keeper) = [] &&
          (second.2.interrupter 0).callback.isSome) = true := by
    decide +kernel
  simp only [Option.any_eq_true _, Bool.and_eq_true, decide_eq_true_eq] at made
  obtain ⟨⟨first, v⟩, followed, ⟨alive, bare⟩, ⟨second, u⟩, follows, dead, left⟩ := made
  exact ⟨first, second, v, u, World.pair_isBare,
    World.course_of_follow (fun _ _ _ => trivial) followed,
    World.course_of_follow (fun _ _ _ => trivial) follows, alive, bare, dead, left⟩

end

end StopTheWorld
