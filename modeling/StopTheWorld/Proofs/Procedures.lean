import StopTheWorld.Proofs.Performance

namespace StopTheWorld

/-! The procedures of the manager: which deed each of their steps is. -/

namespace World

variable {m : ManagerId} (w : World)

theorem core_modifyManager (f : Manager → Manager) :
    (w.modifyManager m f).core m = (f (w.manager m)).core := by
  simp [core, manager_modifyManager]

theorem core_modifyLock (f : OwnedLock → OwnedLock) :
    (w.modifyLock (.pause m) f).core m =
      { w.core m with owner := (f (w.lock (.pause m))).owner } := by
  simp [core, manager_modifyLock, Manager.core, lock]

theorem core_modifyRegistry (f : Registry → Registry) :
    (w.modifyRegistry (.manager m) f).core m =
      { w.core m with
        members := (f (w.registry (.manager m))).members
        phaser := (f (w.registry (.manager m))).phaser } := by
  simp [core, manager_modifyRegistry, Manager.core, registry]

theorem core_setPhaser (value : Phaser) :
    (w.setPhaser (.registry (.manager m)) value).core m = { w.core m with phaser := value } := by
  unfold setPhaser
  rw [core_modifyRegistry]
  rfl

@[simp] theorem stack_modifyManager (n : ManagerId) (f : Manager → Manager) (thread : ThreadId) :
    (w.modifyManager n f).stack thread = w.stack thread := rfl

@[simp] theorem stack_modifyLock (lock : LockRef) (f : OwnedLock → OwnedLock) (thread : ThreadId) :
    (w.modifyLock lock f).stack thread = w.stack thread := by
  simp [stack]

@[simp] theorem stack_modifyRegistry (registry : RegistryRef) (f : Registry → Registry)
    (thread : ThreadId) : (w.modifyRegistry registry f).stack thread = w.stack thread := by
  simp [stack]

@[simp] theorem stack_setPhaser (phaser : PhaserRef) (value : Phaser) (thread : ThreadId) :
    (w.setPhaser phaser value).stack thread = w.stack thread := by
  simp [stack]

end World

theorem Core.lookup_isSome {core : Core} {thread : ThreadId} :
    (core.lookup thread).isSome = true ↔ thread ∈ core.identities := by
  simp [lookup, identities, List.find?_isSome]

section

variable {m : ManagerId} {self : ThreadId} {w : World} {frame : Frame} {rest : List Frame}
  {effect : Effect}

/-- A step that does something to the manager and leaves the mark of the thread alone. -/
theorem Effect.Performs.deed {v : World} {control : Control} {notes : List Note} {deed : Deed}
    (ready : Ready m self w (frame :: rest)) (core : v.core m = (w.core m).after self deed)
    (told : notes.filter (·.tellsOf m) = (w.core m).notes m self deed)
    (stack : ∀ thread, v.stack thread = w.stack thread)
    (inPause : ∀ thread, (v.thread thread).inPause = (w.thread thread).inPause)
    (advances : Advances (w.core m) self (posture m (frame :: rest)) deed
      (posture m (control.stack rest)))
    (sound : Sound m self (control.stack rest))
    (marks : isMarked (control.stack rest) = isMarked (frame :: rest))
    (bonded : bonds (control.stack rest) ⊆ bonds (frame :: rest)) (stays : deed ≠ .remove) :
    (Effect.mk v control notes).Performs m self w frame rest deed where
  core := core
  notes := told
  stack := stack
  others other _ := inPause other
  mark := by rw [inPause, ready.mark, marks]
  advances := advances
  sound := sound
  bonded record mem := .inl (bonded mem)
  leaves remove := absurd remove stays

/-- A step that says something of the manager and changes nothing of it. -/
theorem Effect.Performs.telling {v : World} {control : Control} {notes : List Note} {deed : Deed}
    (ready : Ready m self w (frame :: rest)) (agrees : w.Agrees m v)
    (idle : (w.core m).after self deed = w.core m)
    (told : notes.filter (·.tellsOf m) = (w.core m).notes m self deed)
    (advances : Advances (w.core m) self (posture m (frame :: rest)) deed
      (posture m (control.stack rest)))
    (sound : Sound m self (control.stack rest))
    (marks : isMarked (control.stack rest) = isMarked (frame :: rest))
    (bonded : bonds (control.stack rest) ⊆ bonds (frame :: rest)) (stays : deed ≠ .remove) :
    (Effect.mk v control notes).Performs m self w frame rest deed :=
  .deed ready (agrees.core.trans idle.symm) told agrees.stack agrees.inPause advances sound marks
    bonded stays

theorem Ready.present {stack : List Frame} (ready : Ready m self w stack)
    {record : Option RecordId} (bond : record ∈ bonds stack) : self ∈ (w.core m).identities := by
  obtain ⟨entry, found, -⟩ := ready.bonded record bond
  exact Core.lookup_isSome.mp (by simp [found])

/-- Whoever takes the pause lock drives a pause or registers. -/
theorem Acquisition.advances_take {a : Acquisition}
    (ready : Ready m self w (.acquisition a :: rest)) (lock : a.lock = .pause m)
    (free : (w.core m).owner = none) :
    Advances (w.core m) self .outside .take (posture m rest) := by
  obtain ⟨p, below, rfl, point⟩ | ⟨e, below, rfl, point, -⟩ := ready.sound.below_acquisition lock
  · have bond : p.record ∈ bonds (.acquisition a :: .pausing p :: below) := by
      simp [Frame.bond?, point, Pausing.Point.relies]
    have driving : posture m (.pausing p :: below) = .driving p.action .open := by
      simp [Frame.posture, point, Pausing.Point.drives]
    rw [driving]
    exact .drive free (ready.present bond)
  · have owning : posture m (.entering e :: below) = .owning := by
      simp [Frame.posture, point, Entering.Point.owns]
    rw [owning]
    exact .own free

/-- A wait for the pause lock that is given up leads to the pause that it was given up for. -/
theorem Acquisition.follows_failed {a : Acquisition} {failure : Failure}
    (sound : Sound m self (.acquisition a :: rest)) (lock : a.lock = .pause m)
    (patient : a.patience ≠ .uninterruptible) (point : a.point ≠ .restore true) :
    Follows m self (.acquisition a :: rest) ((Control.reply (.failed failure)).stack rest) := by
  obtain ⟨p, below, rfl, opens⟩ | ⟨e, below, rfl, -, patience⟩ := sound.below_acquisition lock
  · obtain ⟨manager, -, quiet⟩ := sound.tail.1
    have quiet : Quiet m below := quiet.resolve_right (by simp [opens])
    have stands : (Frame.pausing { p with point := .poll }).Awaited m below :=
      sound.tail.2.1.alike (fun _ _ => id) rfl
    refine ⟨⟨⟨manager, by simp, .inl quiet⟩, stands, sound.tail.tail⟩, ?_, ?_, ?_⟩
    · simp [Control.stack, Frame.resume, Frame.posture, lock, point, Pausing.Point.drives,
        quiet.outside]
    · simp [Control.stack, Frame.resume, Frame.marks, opens]
    · simp [Control.stack, Frame.resume, Frame.bond?, opens, Pausing.Point.relies]
  · exact absurd patience patient

theorem Acquisition.performs {a : Acquisition} (ready : Ready m self w (.acquisition a :: rest))
    (lock : a.lock = .pause m) (step : a.advance self w = some effect) :
    ∃ deed, effect.Performs m self w (.acquisition a) rest deed := by
  have own : a.owner = self := by simpa [Frame.Fits, lock] using ready.sound.1
  have waits (point : a.point ≠ .restore true) :
      posture m (.acquisition a :: rest) = .outside := by
    simp [Frame.posture, lock, point]
  have holds (saved : Option Wake) (point : Acquisition.Point) :
      Sound m self (.acquisition { a with saved, point } :: rest) := by
    refine ⟨by simp [Frame.Fits, lock, own], ?_, ready.sound.tail⟩
    refine ready.sound.2.1.alike (fun parent _ => ?_) (by simp [Frame.isBound])
    cases parent <;> exact id
  have goto (saved : Option Wake) (point : Acquisition.Point) (before : a.point ≠ .restore true)
      (after : point ≠ .restore true) : Follows m self (.acquisition a :: rest)
        ((Control.goto (.acquisition { a with saved, point })).stack rest) := by
    refine ⟨holds saved point, ?_, rfl, by simp [Control.stack, Frame.bond?]⟩
    rw [waits before]
    simp [Control.stack, Frame.posture, lock, after]
  have modify (v : World) {f : OwnedLock → OwnedLock} (owner : ∀ lock, (f lock).owner = lock.owner) :
      v.Agrees m (v.modifyLock a.lock f) :=
    .modifyLock v _ fun _ => owner _
  have kept : (Control.reply (.succeeded .nothing)).stack rest = rest := by
    obtain ⟨p, below, rfl, -⟩ | ⟨e, below, rfl, -⟩ := ready.sound.below_acquisition lock <;> rfl
  have took (point : a.point = .test) (free : (w.lock a.lock).IsFree)
      (step : a.took w = some effect) :
      ∃ deed, effect.Performs m self w (.acquisition a) rest deed := by
    have advances := advances_take ready lock (by rw [lock] at free; exact free)
    have takes : (w.modifyLock a.lock (·.take a.owner)).core m = (w.core m).after self .take := by
      rw [lock, World.core_modifyLock, own]
      rfl
    refine ⟨.take, ?_⟩
    simp only [Acquisition.took] at step
    split at step <;> obtain rfl := Option.some.inj step
    · refine .deed ready takes (by simp [Core.notes, Note.tellsOf, lock, own]) (by simp) (by simp) ?_
        ?_ ?_ ?_ (by simp) <;> rw [kept]
      · rw [waits (by simp [point])]
        exact advances
      · exact ready.sound.tail
      · simp [Frame.marks]
      · simp
    · refine .deed ready takes (by simp [Core.notes, Note.tellsOf, lock, own]) (by simp) (by simp) ?_
        (holds _ _) rfl (by simp [Control.stack, Frame.bond?]) (by simp)
      rw [waits (by simp [point])]
      simpa [Control.stack, Frame.posture, lock] using advances
  simp only [Acquisition.advance] at step
  split at step
  · rename_i point
    split at step
    · split at step
      · rename_i free
        exact took point free step
      · obtain rfl := Option.some.inj step
        have same := goto a.saved a.point (by simp [point]) (by simp [point])
        exact ⟨.nothing, .calm ready (modify w fun _ => rfl) (by simp) same⟩
    · simp at step
  · rename_i point
    obtain rfl := Option.some.inj step
    exact ⟨.nothing, .calm ready (.modifyInterrupter w _ _) (by simp)
      (goto _ _ (by simp [point]) (by simp))⟩
  · rename_i point
    split at step
    · split at step
      · rename_i free
        exact took point free step
      · obtain rfl := Option.some.inj step
        exact ⟨.nothing, .calm ready (modify w fun _ => rfl) (by simp)
          (goto _ _ (by simp [point]) (by simp))⟩
    · simp at step
  · rename_i point
    split at step <;> obtain rfl := Option.some.inj step
    · exact ⟨.nothing, .calm ready
        ((World.Agrees.modifyInterrupter w _ _).trans (modify _ fun _ => rfl)) (by simp)
        (goto _ _ (by simp [point]) (by simp))⟩
    · exact ⟨.nothing, .calm ready (.refl w) (by simp) (goto _ _ (by simp [point]) (by simp))⟩
  · rename_i point
    split at step <;> obtain rfl := Option.some.inj step
    · exact ⟨.nothing, .calm ready (modify w fun _ => rfl) (by simp)
        (goto _ _ (by simp [point]) (by simp))⟩
    · exact ⟨.nothing, .calm ready (.refl w) (by simp) (goto _ _ (by simp [point]) (by simp))⟩
  · rename_i point
    obtain rfl := Option.some.inj step
    exact ⟨.nothing, .calm ready (modify w fun _ => rfl) (by simp)
      (goto _ _ (by simp [point]) (by simp))⟩
  · rename_i interrupter yields acquired patience point
    obtain rfl := Option.some.inj step
    refine ⟨.nothing, .calm ready (.modifyInterrupter w _ _) (by simp) ?_⟩
    cases acquired with
    | true =>
      show Follows m self _ ((Control.reply (.succeeded .nothing)).stack rest)
      rw [kept]
      exact ⟨ready.sound.tail, by simp [Frame.posture, lock, point], by simp [Frame.marks], by simp⟩
    | false => exact follows_failed ready.sound lock (by simp [patience]) (by simp [point])
  · simp at step

theorem Release.performs {lock : LockRef} {point : Release.Point}
    (ready : Ready m self w (.release lock point :: rest)) (pause : lock = .pause m)
    (step : Release.advance lock point w = some effect) :
    ∃ deed, effect.Performs m self w (.release lock point) rest deed := by
  have quiet : Quiet m rest := by simpa [Frame.Fits, pause] using ready.sound.1
  cases point with
  | clear =>
    simp only [Release.advance] at step
    split at step
    · obtain rfl := Option.some.inj step
      refine ⟨.free, .deed ready ?_ (by simp [Core.notes, Note.tellsOf, pause]) (by simp) (by simp) ?_
        ⟨by simpa [Frame.Fits, pause] using quiet, ?_, ready.sound.tail⟩ rfl
        (by simp [Control.stack, Frame.bond?]) (by simp)⟩
      · rw [pause, World.core_modifyLock]
        rfl
      · simpa [Control.stack, Frame.posture, pause, quiet.outside] using .free
      · exact ready.sound.2.1.alike (fun _ _ => id) rfl
    · simp at step
  | notify =>
    obtain rfl := Option.some.inj step
    refine ⟨.nothing, .calm ready (.modifyLock w _ fun _ => rfl) (by simp [Note.tellsOf])
      (ready.sound.replied (by simp [Frame.posture]) rfl fun _ awaited => ⟨by simp, by simp, ?_⟩)⟩
    intro f same
    subst same
    exact awaited.elim

theorem Arrival.performs {a : Arrival} (ready : Ready m self w (.arrival a :: rest))
    (phaser : a.phaser = .registry (.manager m)) (step : a.advance w = some effect) :
    ∃ deed, effect.Performs m self w (.arrival a) rest deed := by
  obtain ⟨p, below, rfl, begun, -⟩ := ready.sound.below_arrival phaser
  obtain ⟨leads, meets⟩ : ∃ leads, posture m (.phases p :: below) = .meeting leads p.point none := by
    simp only [posture_cons, Frame.posture]
    split <;> exact ⟨_, rfl⟩
  have arrives (recorded : Option Nat) :
      posture m (.arrival { a with recorded } :: .phases p :: below) =
        .meeting leads p.point (some recorded) := by
    rw [posture_cons, meets]
    simp [Frame.posture, phaser]
  have before : posture m (.arrival a :: .phases p :: below) =
      .meeting leads p.point (some a.recorded) := arrives a.recorded
  have set (value : Phaser) : (w.setPhaser a.phaser value).core m = { w.core m with phaser := value } := by
    rw [phaser, World.core_setPhaser]
  have here : w.phaser a.phaser = (w.core m).phaser := by
    rw [phaser]
    rfl
  simp only [Arrival.advance] at step
  split at step
  · rename_i late
    split at step <;> rename_i last <;> obtain rfl := Option.some.inj step
    · refine ⟨.arrive, .deed ready (by rw [set, here]; rfl) ?_ (by simp) (by simp) ?_
        ready.sound.tail rfl (by simp [Control.stack, Frame.resume]) (by simp)⟩
      · rw [here] at last
        simp only [here]
        simp [Core.notes, Note.tellsOf, phaser, last]
      · rw [before, late]
        simp only [Control.stack, Frame.resume, meets]
        exact .complete (here ▸ last)
    · refine ⟨.arrive, .deed ready (by rw [set, here]; rfl) ?_ (by simp) (by simp) ?_
        ⟨trivial, ?_, ready.sound.tail⟩ rfl (by simp [Control.stack, Frame.bond?]) (by simp)⟩
      · rw [here] at last
        simp only [here]
        simp [Core.notes, Note.tellsOf, phaser, last]
      · rw [before, late]
        simp only [Control.stack, arrives, here]
        exact .wait (here ▸ last)
      · exact ready.sound.2.1.alike (fun _ _ => id) rfl
  · rename_i phase recorded
    split at step
    · simp at step
    · rename_i ended
      obtain rfl := Option.some.inj step
      refine ⟨.nothing, .deed ready rfl rfl (fun _ => rfl) (fun _ => rfl) ?_ ready.sound.tail rfl
        (by simp [Control.stack, Frame.resume]) (by simp)⟩
      rw [before, recorded]
      simp only [Control.stack, Frame.resume, meets]
      exact .wake (here ▸ ended)

theorem Ready.unbound {stack : List Frame} (ready : Ready m self w stack)
    (absent : self ∉ (w.core m).identities) : bonds stack = [] := by
  cases bound : bonds stack with
  | nil => rfl
  | cons record rest => exact absurd (ready.present (by rw [bound]; exact List.mem_cons_self)) absent

theorem Enrolment.performs {e : Enrolment} (ready : Ready m self w (.enrolment e :: rest))
    (registry : e.registry = .manager m) (step : e.advance w = some effect) :
    ∃ deed, effect.Performs m self w (.enrolment e) rest deed := by
  obtain ⟨own, unbound⟩ : e.entry.identity = self ∧ (e.point = .insert → bonds rest = []) := by
    simpa [Frame.Fits, registry] using ready.sound.1
  obtain ⟨x, below, rfl, announces⟩ := ready.sound.below_enrolment registry
  have owning (added : Bool) : posture m (.entering { x with added } :: below) = .owning := by
    simp [Frame.posture, announces, Entering.Point.owns]
  have modify (f : Registry → Registry) : (w.modifyRegistry e.registry f).core m =
      { w.core m with
        members := (f (w.registry (.manager m))).members
        phaser := (f (w.registry (.manager m))).phaser } := by
    rw [registry, World.core_modifyRegistry]
  have noted (added : Bool) (unbound : added = true → bonds below = []) :
      Follows m self (.entering x :: below) (.entering { x with added } :: below) := by
    refine ready.sound.tail.reply (.truth added) (by simp) ?_ (by simp)
    rintro _ - ⟨⟩
    exact unbound rfl
  simp only [Enrolment.advance] at step
  split at step
  · rename_i claims
    split at step
    · simp at step
    · split at step <;> rename_i there <;> obtain rfl := Option.some.inj step
      · have added := noted false (by simp)
        refine ⟨.nothing, .calm ready (.refl w) (by simp) ⟨added.sound, ?_, added.marks, ?_⟩⟩
        · simp [Control.stack, Frame.resume, Frame.posture, claims]
        · simp [Control.stack, Frame.resume, Frame.bond?]
      · have absent : self ∉ (w.core m).identities := by
          rw [own, registry, Registry.contains_iff] at there
          exact there
        refine ⟨.claim, .deed ready (by rw [modify]; rfl)
          (by simp [Core.notes, Note.tellsOf, registry]) (by simp) (by simp) ?_
          ⟨?_, ?_, ready.sound.tail⟩ rfl (by simp [Control.stack, Frame.bond?]) (by simp)⟩
        · have before : posture m (.enrolment e :: .entering x :: below) = .owning := by
            simp [Frame.posture, claims, announces, Entering.Point.owns]
          rw [before]
          simpa [Control.stack, Frame.posture, registry] using .claim absent
        · have unbound := ready.unbound absent
          simp only [bonds_cons, List.append_eq_nil_iff] at unbound
          simp [Frame.Fits, registry, own, unbound.2]
        · exact ready.sound.2.1.alike (fun _ _ => id) rfl
  · rename_i inserts
    obtain rfl := Option.some.inj step
    have unbound : bonds below = [] := by simpa [Frame.bond?] using unbound inserts
    have added := noted true fun _ => unbound
    refine ⟨.insert e.entry, .deed ready (by rw [modify]; rfl)
      (by simp [Core.notes, Note.tellsOf, registry]) (by simp) (by simp) ?_ added.sound added.marks
      (by simp [Control.stack, Frame.resume, Frame.bond?]) (by simp)⟩
    have before : posture m (.enrolment e :: .entering x :: below) = .claiming := by
      simp [Frame.posture, registry, inserts]
    rw [before]
    exact (owning true).symm ▸ .insert own

theorem Withdrawal.performs {x : Withdrawal} (ready : Ready m self w (.withdrawal x :: rest))
    (registry : x.registry = .manager m) (step : x.advance w = some effect) :
    ∃ deed, effect.Performs m self w (.withdrawal x) rest deed := by
  obtain ⟨own, unbound⟩ : x.identity = self ∧ bonds rest = [] := by
    simpa [Frame.Fits, registry] using ready.sound.1
  obtain ⟨l, below, rfl, announces⟩ := ready.sound.below_withdrawal registry
  have outside : posture m below = .outside := by
    obtain ⟨-, quiet, -⟩ := ready.sound.tail.1
    exact (quiet.resolve_right (by simp [announces])).outside
  have reply (entry : Option RegistrationView) : Follows m self (.leaving l :: below)
      ((Control.reply (.registration entry)).stack (.leaving l :: below)) :=
    ready.sound.tail.reply _ (by simp) (by simp) (by simp)
  simp only [Withdrawal.advance] at step
  split at step
  · rename_i removes
    have before : posture m (.withdrawal x :: .leaving l :: below) = .outside := by
      simp [Frame.posture, removes, outside]
    split at step
    · simp at step
    · split at step <;> rename_i there <;> obtain rfl := Option.some.inj step
      · refine ⟨.nothing, .calm ready (.refl w) (by simp) ?_⟩
        exact ready.sound.replied (by simp [Frame.posture, removes]) rfl fun _ _ =>
          ⟨by simp, by simp, by simp⟩
      · rename_i entry
        have present : self ∈ (w.core m).identities := by
          rw [← Core.lookup_isSome, ← own]
          rw [registry] at there
          exact Option.isSome_iff_exists.mpr ⟨entry, there⟩
        refine ⟨.remove, ?_, ?_, by simp, by simp, ?_, ?_,
          ⟨by simp [Frame.Fits, registry, own, unbound], ?_, ready.sound.tail⟩, ?_, ?_⟩
        · rw [registry, World.core_modifyRegistry, own]
          rfl
        · simp [Core.notes, Note.tellsOf, registry, own]
        · rw [World.thread_modifyRegistry, ready.mark]
          rfl
        · rw [before]
          simpa [Control.stack, Frame.posture, registry] using .remove present
        · exact ready.sound.2.1.alike (fun _ _ => id) rfl
        · simp [Control.stack, Frame.bond?, unbound]
        · simp [Control.stack, Frame.bond?, unbound]
  · rename_i departs
    have before : posture m (.withdrawal x :: .leaving l :: below) = .departing := by
      simp [Frame.posture, departs, registry]
    have parties : (w.phaser (.registry x.registry)).parties ≠ 0 := by
      rw [registry]
      exact ready.departs before
    have departure : w.depart (.registry x.registry) = .ok
        (w.setPhaser (.registry (.manager m)) (w.core m).phaser.depart,
          (w.core m).phaser.depart.phase, (w.core m).notes m self .depart) := by
      rw [registry] at parties ⊢
      simp only [World.depart, parties, if_false]
      rfl
    rw [departure] at step
    obtain rfl := Option.some.inj step
    refine ⟨.depart, .deed ready (World.core_setPhaser w _) ?_ (by simp) (by simp) ?_
      (reply x.removed).sound (reply x.removed).marks
      (by simp [Control.stack, Frame.resume, Frame.bond?]) (by simp)⟩
    · simp only [Core.notes]
      split <;> simp [Note.tellsOf]
    · rw [before, (reply x.removed).posture]
      simpa [Frame.posture, outside] using .depart

theorem Phases.Point.Arrives.begun {leads : Option (List Op)} {point next : Phases.Point}
    (arrives : point.Arrives leads next) : next ≠ .first ∧ next ≠ .third := by
  cases arrives <;> simp

/-- Where the phases of a pause are gone through. -/
structure Phases.Stands (m : ManagerId) (thread : ThreadId) (p : Phases) (rest : List Frame)
    (leads : Option (List Op)) : Prop where
  posture : ∀ p' : Phases, posture m (.phases p' :: rest) = .meeting leads p'.point none
  drives : leads.isSome = p.drives
  sound : ∀ p' : Phases, p'.manager = m → p'.drives = p.drives → p'.record = p.record →
    (p'.point = .republish → p'.drives = true) → Sound m thread (.phases p' :: rest)
  marked : isMarked rest = true
  free : inCallback rest = false
  bond : p.record ∈ bonds rest

theorem Phases.stands {p : Phases} (sound : Sound m self (.phases p :: rest)) :
    ∃ leads, p.Stands m self rest leads := by
  obtain ⟨q, below, rfl, exit, drives, record⟩ | ⟨q, below, rfl, exit, drives, record⟩ :=
    sound.below_phases
  · obtain ⟨-, quiet⟩ := sound.tail.1
    have quiet : Quiet m below := quiet.resolve_right (by simp [exit])
    refine ⟨none, fun p' => ?_, by simp [drives], fun p' manager drives' record' republish =>
      ⟨⟨manager, republish⟩, ⟨exit, drives'.trans drives, record'.trans record⟩, sound.tail⟩, ?_, ?_, ?_⟩
    · simp [Frame.posture, exit, Polling.Point.isCalled, quiet.outside]
    · simp [Frame.marks, exit]
    · simp [Frame.isInterruption, quiet.free]
    · simp [Frame.bond?, exit, Polling.Point.relies, record]
  · obtain ⟨-, -, quiet⟩ := sound.tail.1
    have quiet : Quiet m below := quiet.resolve_right (by simp [exit])
    refine ⟨some q.action, fun p' => ?_, by simp [drives], fun p' manager drives' record' republish =>
      ⟨⟨manager, republish⟩, ⟨exit, drives'.trans drives, record'.trans record⟩, sound.tail⟩, ?_, ?_, ?_⟩
    · simp [Frame.posture, exit, Pausing.Point.drives]
    · simp [Frame.marks, exit]
    · simp [Frame.isInterruption, quiet.free]
    · simp [Frame.bond?, exit, Pausing.Point.relies, record]

theorem Phases.performs {p : Phases} (ready : Ready m self w (.phases p :: rest))
    (step : p.advance w = some effect) :
    ∃ deed, effect.Performs m self w (.phases p) rest deed := by
  obtain ⟨manager, republishes⟩ := ready.sound.1
  obtain ⟨leads, stands⟩ := Phases.stands ready.sound
  have before : posture m (.phases p :: rest) = .meeting leads p.point none := stands.posture p
  have arrive {next : Phases.Point} (arrives : p.point.Arrives leads next)
      (drives : next = .republish → p.drives = true) :
      (Effect.mk w (.call (.arrival { phaser := .registry (.manager p.manager) })
        (.phases { p with point := next })) []).Performs m self w (.phases p) rest .nothing := by
    have sound := stands.sound { p with point := next } manager rfl rfl drives
    refine .deed ready rfl rfl (fun _ => rfl) (fun _ => rfl) ?_ ⟨trivial, ?_, sound⟩ rfl
      (by simp [Control.stack, Frame.bond?]) (by simp)
    · rw [before]
      simp only [Control.stack]
      rw [posture_cons, stands.posture]
      simpa [Frame.posture, manager] using .approach arrives
    · exact ⟨by rw [manager], arrives.begun⟩
  simp only [Phases.advance] at step
  split at step
  · rename_i first
    obtain rfl := Option.some.inj step
    refine ⟨.nothing, arrive ?_ ?_⟩
    · rw [first]
      split <;> rename_i drives
      · exact .drives (by rw [stands.drives, drives])
      · exact .follows (by simpa [drives] using stands.drives)
    · split <;> simp_all
  · rename_i republish
    obtain rfl := Option.some.inj step
    have drives := republishes republish
    obtain ⟨action, rfl⟩ : ∃ action, leads = some action := by
      rw [← Option.isSome_iff_exists, stands.drives, drives]
    refine ⟨.republish, .deed ready ?_ ?_ (by simp) (by simp) ?_
      (stands.sound _ manager rfl rfl (by simp)) rfl (by simp [Control.stack, Frame.bond?]) (by simp)⟩
    · rw [manager, World.core_modifyManager]
      rfl
    · simp [Core.notes, Note.tellsOf, manager, World.core, Manager.core]
    · rw [before, republish]
      simp only [Control.stack, stands.posture]
      exact .republish
  · rename_i second
    obtain rfl := Option.some.inj step
    exact ⟨.nothing, arrive (second ▸ .second) (by simp)⟩
  · rename_i choose
    have third := stands.sound { p with point := .third } manager rfl rfl (by simp)
    have decline : (Effect.mk w (.goto (.phases { p with point := .third })) []).Performs m self w
        (.phases p) rest .decline := by
      refine .deed ready rfl rfl (fun _ => rfl) (fun _ => rfl) ?_ third rfl
        (by simp [Control.stack, Frame.bond?]) (by simp)
      rw [before, choose]
      simp only [Control.stack, stands.posture]
      exact .decline
    split at step
    · rename_i record action bound _
      split at step <;> obtain rfl := Option.some.inj step
      · exact ⟨.decline, decline⟩
      · have acting : Acting m (.phases { p with point := .third } :: rest) :=
          ⟨⟨leads, stands.posture _⟩, by simp [stands.marked], by simp [Frame.isInterruption, stands.free]⟩
        have bond : p.record ∈ bonds (.phases p :: rest) := by simp [stands.bond]
        obtain ⟨entry, found, same⟩ := ready.bonded _ bond
        refine ⟨.start record (w.record record).thread, .deed ready rfl ?_ (fun _ => rfl)
          (fun _ => rfl) ?_ ⟨.inl (.inr acting), rfl, third⟩ rfl
          (by simp [Control.stack, Frame.bond?]) (by simp)⟩
        · simp [Core.notes, Note.tellsOf, manager]
        · rw [before, choose]
          simp only [Control.stack]
          rw [posture_cons, stands.posture]
          exact .start _ found (same.trans bound)
    · obtain rfl := Option.some.inj step
      exact ⟨.decline, decline⟩
  · rename_i third
    obtain rfl := Option.some.inj step
    exact ⟨.nothing, arrive (third ▸ .third) (by simp)⟩
  · rename_i finish
    obtain rfl := Option.some.inj step
    have fine (failure : Failure) : (p.outcome.map Reply.unwound).getD .nothing ≠ .failed failure := by
      cases p.outcome <;> simp
    refine ⟨.nothing, ?_⟩
    obtain ⟨q, below, rfl, exit, -⟩ | ⟨q, below, rfl, exit, -⟩ := ready.sound.below_phases
    · obtain ⟨-, quiet⟩ := ready.sound.tail.1
      have quiet : Quiet m below := quiet.resolve_right (by simp [exit])
      have noted := ready.sound.tail.reply ((p.outcome.map Reply.unwound).getD .nothing) (by simp)
        (by simp) (by simp)
      refine .deed ready rfl rfl (fun _ => rfl) (fun _ => rfl) ?_ noted.sound noted.marks
        (List.Subset.trans noted.bonds (by simp)) (by simp)
      have after : posture m (.polling q :: below) = .outside := by
        simp [Frame.posture, exit, Polling.Point.isCalled, quiet.outside]
      have here : posture m (.phases p :: .polling q :: below) = .meeting none .finish none := by
        simp [Frame.posture, exit, Polling.Point.isCalled, quiet.outside, finish]
      rw [here]
      exact noted.posture.trans after ▸ .part
    · have noted := ready.sound.tail.reply ((p.outcome.map Reply.unwound).getD .nothing)
        (fun _ _ => fine) (by simp) (by simp)
      refine .deed ready rfl rfl (fun _ => rfl) (fun _ => rfl) ?_ noted.sound noted.marks
        (List.Subset.trans noted.bonds (by simp)) (by simp)
      have after : posture m (.pausing q :: below) = .driving q.action .exitPhases := by
        simp [Frame.posture, exit, Pausing.Point.drives]
      have here : posture m (.phases p :: .pausing q :: below) =
          .meeting (some q.action) .finish none := by
        simp [Frame.posture, exit, Pausing.Point.drives, finish]
      rw [here]
      exact noted.posture.trans after ▸ .close

end

end StopTheWorld
