import StopTheWorld.Proofs.Procedures

namespace StopTheWorld

/-! The calls of a manager: which deed each of their steps is. -/

section

variable {m : ManagerId} {self : ThreadId} {w : World} {frame : Frame} {rest : List Frame}
  {effect : Effect}

/-- A thread that runs a pause action finds the epoch valid. -/
theorem Ready.valid {stack : List Frame} (ready : Ready m self w stack) (acting : Acting m stack) :
    (w.core m).epoch.valid = true := by
  obtain ⟨leads, meeting⟩ := acting.meeting
  have pace := (ready.admits.meets meeting).pace
  have passed : Phases.Point.third.passed (w.core m).phaser.phase none = 2 := rfl
  cases valid : (w.core m).epoch.valid with
  | true => rfl
  | false =>
    have := ready.stale valid
    omega

theorem World.setInPause_self (w : World) (thread : ThreadId) (inPause : Bool) :
    ((w.setInPause thread inPause).thread thread).inPause = inPause := by
  simp [thread_setInPause]

theorem World.setInPause_other (w : World) {thread other : ThreadId} (inPause : Bool)
    (ne : other ≠ thread) : (w.setInPause thread inPause).thread other = w.thread other := by
  simp [thread_setInPause, ne]

theorem World.stack_setInPause (w : World) (thread other : ThreadId) (inPause : Bool) :
    (w.setInPause thread inPause).stack other = w.stack other := by
  unfold stack
  rw [thread_setInPause]
  split
  · rename_i same
    rw [same]
  · rfl

/-- A step that takes the mark of being in the phases, or gives it up. -/
theorem Effect.Performs.marking {control : Control} {notes : List Note} {deed : Deed}
    {inPause : Bool} (core : (w.core m).after self deed = w.core m)
    (told : notes.filter (·.tellsOf m) = (w.core m).notes m self deed)
    (mark : isMarked (control.stack rest) = inPause)
    (advances : Advances (w.core m) self (posture m (frame :: rest)) deed
      (posture m (control.stack rest)))
    (sound : Sound m self (control.stack rest))
    (bonded : bonds (control.stack rest) ⊆ bonds (frame :: rest)) (stays : deed ≠ .remove) :
    (Effect.mk (w.setInPause self inPause) control notes).Performs m self w frame rest deed where
  core := core.symm
  notes := told
  stack other := w.stack_setInPause self other inPause
  others other ne := by rw [w.setInPause_other inPause ne]
  mark := (w.setInPause_self self inPause).trans mark.symm
  advances := advances
  sound := sound
  bonded record mem := .inl (bonded mem)
  leaves remove := absurd remove stays

theorem Polling.performs {p : Polling} (ready : Ready m self w (.polling p :: rest))
    (step : p.advance self w = some effect) :
    ∃ deed, effect.Performs m self w (.polling p) rest deed := by
  obtain ⟨manager, place⟩ := ready.sound.1
  have stands (p' : Polling) : (Frame.polling p').Awaited m rest :=
    ready.sound.2.1.alike (fun _ _ => id) rfl
  have nothing (quiet : Quiet m rest) : Follows m self rest ((Control.reply .nothing).stack rest) :=
    ready.sound.tail.delivered fun _ => ⟨by simp, by simp, by simp⟩
  have called (p' : Polling) (quiet : Quiet m rest) (point : p'.point.isCalled = true) :
      posture m (.polling p' :: rest) = .called := by
    simp [Frame.posture, point]
  simp only [Polling.advance] at step
  split at step
  · rename_i check
    have transparent : posture m (.polling p :: rest) = posture m rest := by
      simp [Frame.posture, check, Polling.Point.isCalled]
    split at step <;> rename_i valid <;> obtain rfl := Option.some.inj step
    · exact ⟨.nothing, .calm ready (.refl w) (by simp)
        (ready.sound.replied transparent (by simp [Frame.marks, check]) fun _ _ =>
          ⟨by simp, by simp, by simp⟩)⟩
    · rw [manager] at valid
      have quiet : Quiet m rest := by
        refine place.resolve_right fun acting => valid ?_
        exact ready.valid (acting.2.cons transparent (by simp [Frame.marks, check]) rfl)
      refine ⟨.nothing, .deed ready rfl rfl (fun _ => rfl) (fun _ => rfl) ?_
        ⟨⟨manager, .inl quiet⟩, stands _, ready.sound.tail⟩ ?_ ?_ (by simp)⟩
      · rw [transparent, quiet.outside]
        simp only [Control.stack]
        rw [called _ quiet rfl]
        exact .heed (Bool.eq_false_of_not_eq_true valid)
      · simp [Control.stack, Frame.marks, check]
      · simp [Control.stack, Frame.bond?, Polling.Point.relies]
  · rename_i count
    obtain rfl := Option.some.inj step
    have quiet : Quiet m rest := place.resolve_right (by simp [count])
    refine ⟨.count, .deed ready ?_ (by simp [Core.notes, Note.tellsOf, manager]) (by simp) (by simp) ?_
      ⟨⟨manager, .inl quiet⟩, stands _, ready.sound.tail⟩ ?_ ?_ (by simp)⟩
    · rw [manager, World.core_modifyManager]
      rfl
    · rw [called p quiet (by simp [count, Polling.Point.isCalled])]
      simp only [Control.stack]
      rw [called _ quiet rfl]
      exact .count
    · simp [Control.stack, Frame.marks, count]
    · simp [Control.stack, Frame.bond?, Polling.Point.relies]
  · rename_i find
    have quiet : Quiet m rest := place.resolve_right (by simp [find])
    have before := called p quiet (by simp [find, Polling.Point.isCalled])
    split at step <;> rename_i there <;> obtain rfl := Option.some.inj step
    · have absent : self ∉ (w.core m).identities := by
        rw [← Core.lookup_isSome]
        rw [manager] at there
        show ¬ ((w.manager m).registry.get? self).isSome = true
        simp [there]
      refine ⟨.nothing, .deed ready rfl rfl (fun _ => rfl) (fun _ => rfl) ?_ (nothing quiet).sound ?_
        (List.Subset.trans (nothing quiet).bonds (by simp)) (by simp)⟩
      · rw [before, (nothing quiet).posture, quiet.outside]
        exact .pass absent
      · rw [(nothing quiet).marks]
        simp [Frame.marks, find]
    · rename_i entry
      rw [manager] at there
      obtain ⟨next, same, going, marks⟩ : ∃ next, (if p.holdsGlobal then
          Polling.Point.leaveGlobal else .enterPhases) = next ∧ next.isCalled = true ∧
          next ≠ .exitPhases := by
        split <;> exact ⟨_, rfl, rfl, by simp⟩
      rw [same]
      refine ⟨.nothing, rfl, by simp [Core.notes, Note.tellsOf], fun _ => rfl, fun _ _ => rfl, ?_, ?_,
        ⟨⟨manager, .inl quiet⟩, stands _, ready.sound.tail⟩, fun record mem => ?_, by simp⟩
      · rw [ready.mark]
        simp [Control.stack, Frame.marks, find, marks]
      · rw [before]
        simp only [Control.stack]
        rw [called _ quiet going]
        exact .stay _
      · simp only [Control.stack, bonds_cons, List.mem_append, Frame.bond?] at mem ⊢
        rcases mem with here | below
        · split at here
          · right
            exact ⟨entry, there, by simpa [eq_comm] using here⟩
          · simp at here
        · exact .inl (.inr below)
  · rename_i leave
    have quiet : Quiet m rest := place.resolve_right (by simp [leave])
    obtain ⟨⟨v, notes⟩, leaves, goes⟩ := Option.bind_eq_some_iff.mp step
    obtain rfl := Option.some.inj goes
    obtain ⟨agrees, silent⟩ := World.Agrees.leaveGlobal (m := m) leaves
    exact ⟨.nothing, .calm ready agrees silent
      (.goto ready.sound ⟨manager, .inl quiet⟩ (stands _)
        (by simp [Frame.posture, leave, Polling.Point.isCalled]) (by simp [Frame.marks, leave])
        (.inr (by simp [Frame.bond?, leave, Polling.Point.relies])))⟩
  · rename_i enter
    obtain rfl := Option.some.inj step
    have quiet : Quiet m rest := place.resolve_right (by simp [enter])
    have bond : p.record ∈ bonds (.polling p :: rest) := by
      simp [Frame.bond?, enter, Polling.Point.relies]
    refine ⟨.join false, .marking rfl (by simp [Core.notes, Note.tellsOf, manager])
      (by simp [Control.stack, Frame.marks]) ?_ ⟨⟨manager, by simp⟩, ⟨rfl, rfl, rfl⟩,
        ⟨manager, .inl quiet⟩, stands _, ready.sound.tail⟩ ?_ (by simp)⟩
    · rw [called p quiet (by simp [enter, Polling.Point.isCalled])]
      have after : posture m (.phases { manager := p.manager, record := p.record, drives := false } ::
          .polling { p with point := .exitPhases } :: rest) = .meeting none .first none := by
        simp [Frame.posture, Polling.Point.isCalled, quiet.outside]
      exact after ▸ .join (ready.present bond)
    · simp [Control.stack, Frame.bond?, enter, Polling.Point.relies]
  · rename_i exit
    obtain rfl := Option.some.inj step
    have quiet : Quiet m rest := place.resolve_right (by simp [exit])
    have bond : p.record ∈ bonds (.polling p :: rest) := by
      simp [Frame.bond?, exit, Polling.Point.relies]
    refine ⟨.finish false, .marking rfl (by simp [Core.notes, Note.tellsOf, manager])
      (by simp [Control.stack, Frame.marks, quiet.unmarked]) ?_ ⟨⟨manager, quiet⟩, ?_, ready.sound.tail⟩
      (by simp [Control.stack, Frame.bond?]) (by simp)⟩
    · have before : posture m (.polling p :: rest) = .outside := by
        simp [Frame.posture, exit, Polling.Point.isCalled, quiet.outside]
      rw [before]
      simpa [Control.stack, Frame.posture, quiet.outside] using .finish (ready.present bond)
    · exact ready.sound.2.1.alike (fun _ _ => id) rfl

theorem Resuming.performs {r : Resuming} (ready : Ready m self w (.resuming r :: rest))
    (step : r.advance self w = some effect) :
    effect.Performs m self w (.resuming r) rest .nothing := by
  obtain ⟨manager, quiet⟩ := ready.sound.1
  have stands (r' : Resuming) : (Frame.resuming r').Awaited m rest :=
    ready.sound.2.1.alike (fun _ _ => id) rfl
  have above (r' : Resuming) : Quiet m (.resuming r' :: rest) := quiet.cons rfl rfl rfl
  have nothing :
      Follows m self (.resuming r :: rest) ((Control.reply .nothing).stack rest) :=
    ready.sound.replied rfl rfl fun _ _ => ⟨by simp, by simp, by simp⟩
  simp only [Resuming.advance] at step
  split at step
  · split at step <;> obtain rfl := Option.some.inj step
    · exact .calm ready (.refl w) (by simp)
        (.call ready.sound (by simpa [Frame.Fits, Acquisition.begin] using .inl (.inl (above _)))
          (by simp [Frame.Awaits, Acquisition.begin]) ⟨manager, quiet⟩ (stands _)
          (Frame.posture_acquisition (by simp [Acquisition.begin]) _) rfl rfl (.inl rfl))
    · exact .calm ready (.refl w) (by simp)
        (.goto ready.sound ⟨manager, quiet⟩ (stands _) rfl rfl (.inl rfl))
  · split at step <;> obtain rfl := Option.some.inj step
    · exact .calm ready (.refl w) (by simp)
        (ready.sound.unwound (.inl (.inl quiet)) quiet.free rfl rfl rfl _)
    · exact .calm ready (.refl w) (by simp) nothing
    · exact .calm ready (.refl w) (by simp)
        (.call ready.sound (.inl (.inl (above _))) rfl ⟨manager, quiet⟩ (stands _) rfl rfl rfl
          (.inl rfl))
  · obtain rfl := Option.some.inj step
    refine .calm ready (.refl w) ?_ nothing
    split <;> simp [Note.tellsOf]

/-- A thread that runs a pause action is turned away by the calls that would start or join a pause
of their own. -/
theorem Ready.reentrant {stack : List Frame} (ready : Ready m self w stack) (acting : Acting m stack) :
    w.isReentrant m self = true := by
  simp [World.isReentrant, ready.mark, acting.marked]

theorem Entering.performs {e : Entering} (ready : Ready m self w (.entering e :: rest))
    (step : e.advance self w = some effect) :
    ∃ deed, effect.Performs m self w (.entering e) rest deed := by
  obtain ⟨manager, place, unbound⟩ := ready.sound.1
  have stands (e' : Entering) : (Frame.entering e').Awaited m rest :=
    ready.sound.2.1.alike (fun _ _ => id) rfl
  have idle (point : e.point.owns = false) : posture m (.entering e :: rest) = posture m rest := by
    simp [Frame.posture, point]
  have goto (point : Entering.Point) (quiet : Quiet m rest) (same : point.owns = e.point.owns) :
      Follows m self (.entering e :: rest) ((Control.goto (.entering { e with point })).stack rest) :=
    .goto ready.sound ⟨manager, .inl quiet, unbound⟩ (stands _) (by simp [Frame.posture, same]) rfl
      (.inl rfl)
  simp only [Entering.advance] at step
  split at step
  · rename_i gate
    have transparent := idle (by simp [gate, Entering.Point.owns])
    split at step <;> rename_i reentrant <;> obtain rfl := Option.some.inj step
    · refine ⟨.nothing, .calm ready (.refl w) (by simp)
        (ready.sound.replied transparent rfl fun _ awaited => ⟨?_, by simp, by simp⟩)⟩
      intro p same
      subst same
      exact awaited.elim
    · have quiet : Quiet m rest := by
        refine place.resolve_right fun acting => reentrant ?_
        rw [manager]
        exact ready.reentrant (acting.2.cons transparent rfl rfl)
      exact ⟨.nothing, .calm ready (.refl w) (by simp) (goto _ quiet (by simp [gate, Entering.Point.owns]))⟩
  · rename_i find
    have quiet : Quiet m rest := place.resolve_right (by simp [find])
    split at step <;> obtain rfl := Option.some.inj step
    · exact ⟨.nothing, .calm ready (.refl w) (by simp [Note.tellsOf])
        (ready.sound.replied (idle (by simp [find, Entering.Point.owns])) rfl fun _ _ =>
          ⟨by simp, by simp, by simp⟩)⟩
    · exact ⟨.nothing, .calm ready (.refl w) (by simp) (goto _ quiet (by simp [find, Entering.Point.owns]))⟩
  · rename_i lock
    obtain rfl := Option.some.inj step
    have quiet : Quiet m rest := place.resolve_right (by simp [lock])
    refine ⟨.nothing, .calm ready (.refl w) (by simp)
      (.call ready.sound (by simp [Frame.Fits, Acquisition.begin, manager])
        ⟨rfl, by simp [Acquisition.begin, manager], rfl⟩ ⟨manager, .inl quiet, unbound⟩ (stands _) ?_
        rfl rfl (.inl rfl))⟩
    simp [Frame.posture, Acquisition.begin, manager, lock, Entering.Point.owns, quiet.outside]
  · rename_i enrol
    obtain rfl := Option.some.inj step
    have quiet : Quiet m rest := place.resolve_right (by simp [enrol])
    refine ⟨.nothing, .calm ready (.refl w) (by simp)
      (.call ready.sound (by simp [Frame.Fits, manager]) ⟨rfl, by rw [manager]⟩
        ⟨manager, .inl quiet, unbound⟩ (stands _) ?_ rfl rfl (.inl rfl))⟩
    simp [Frame.posture, enrol, Entering.Point.owns]
  · rename_i announce
    have quiet : Quiet m rest := place.resolve_right (by simp [announce])
    have unlock := goto .unlock quiet (by simp [announce, Entering.Point.owns])
    have owning : posture m (.entering e :: rest) = .owning := by
      simp [Frame.posture, announce, Entering.Point.owns]
    split at step <;> obtain rfl := Option.some.inj step
    · refine ⟨.announce (.entered self), .telling ready (.publish w _ _) rfl
        (by simp [Core.notes, Note.tellsOf, manager]) ?_ unlock.sound unlock.marks unlock.bonds
        (by simp)⟩
      rw [unlock.posture, owning]
      exact .announceEntry _
    · exact ⟨.nothing, .calm ready (.refl w) (by simp [Note.tellsOf]) unlock⟩
  · rename_i unlock
    obtain rfl := Option.some.inj step
    have quiet : Quiet m rest := place.resolve_right (by simp [unlock])
    have stands : (Frame.answer (.succeeded (.truth e.added))).Awaited m rest := by
      have stands := ready.sound.2.1
      cases rest with
      | nil => rfl
      | cons parent below =>
        cases parent with
        | foreign f =>
          refine .inr ⟨stands, fun added => ?_⟩
          have unbound := unbound (by simpa using added)
          simpa [Frame.bond?] using unbound
        | _ => first | exact stands.elim | rfl
    refine ⟨.nothing, .calm ready (.refl w) (by simp)
      (.call ready.sound ?_ rfl (.inl (.inl quiet)) stands ?_ rfl rfl (.inl rfl))⟩
    · have above : Quiet m (.answer (.succeeded (.truth e.added)) :: rest) := quiet.cons rfl rfl rfl
      simpa [Frame.Fits, manager] using above
    · simp [Frame.posture, manager, unlock, Entering.Point.owns]

theorem Leaving.performs {l : Leaving} (ready : Ready m self w (.leaving l :: rest))
    (step : l.advance self w = some effect) :
    ∃ deed, effect.Performs m self w (.leaving l) rest deed := by
  obtain ⟨manager, place, unbound⟩ := ready.sound.1
  have stands (l' : Leaving) : (Frame.leaving l').Awaited m rest :=
    ready.sound.2.1.alike (fun _ _ => id) rfl
  have goto (point : Leaving.Point) (quiet : Quiet m rest) :
      Follows m self (.leaving l :: rest) ((Control.goto (.leaving { l with point })).stack rest) :=
    .goto ready.sound ⟨manager, .inl quiet, unbound⟩ (stands _) rfl rfl (.inl rfl)
  have nothing : Follows m self (.leaving l :: rest) ((Control.reply .nothing).stack rest) :=
    ready.sound.replied rfl rfl fun _ _ => ⟨by simp, by simp, by simp⟩
  simp only [Leaving.advance] at step
  split at step
  · split at step <;> rename_i inside <;> obtain rfl := Option.some.inj step
    · exact ⟨.nothing, .calm ready (.refl w) (by simp [Note.tellsOf]) nothing⟩
    · have quiet : Quiet m rest := by
        refine place.resolve_right fun acting => inside ?_
        rw [ready.mark]
        exact (acting.2.cons rfl rfl rfl).marked
      exact ⟨.nothing, .calm ready (.refl w) (by simp) (goto _ quiet)⟩
  · rename_i find
    have quiet : Quiet m rest := place.resolve_right (by simp [find])
    split at step <;> obtain rfl := Option.some.inj step
    · exact ⟨.nothing, .calm ready (.refl w) (by simp) (goto _ quiet)⟩
    · exact ⟨.nothing, .calm ready (.refl w) (by simp) nothing⟩
  · rename_i poll
    obtain rfl := Option.some.inj step
    have quiet : Quiet m rest := place.resolve_right (by simp [poll])
    exact ⟨.nothing, .calm ready (.refl w) (by simp)
      (.call ready.sound ⟨manager, .inl (quiet.cons rfl rfl rfl)⟩ rfl ⟨manager, .inl quiet, unbound⟩
        (stands _) rfl rfl rfl (.inl rfl))⟩
  · rename_i withdraw
    obtain rfl := Option.some.inj step
    have quiet : Quiet m rest := place.resolve_right (by simp [withdraw])
    have unbound' : bonds rest = [] := unbound quiet.unmarked
    refine ⟨.nothing, .calm ready (.refl w) (by simp)
      (.call ready.sound ?_ ⟨rfl, by rw [manager]⟩ ⟨manager, .inl quiet, unbound⟩ (stands _) ?_ rfl
        rfl (.inl rfl))⟩
    · simp [Frame.Fits, manager, Frame.bond?, unbound']
    · simp [Frame.posture]
  · rename_i announce
    have quiet : Quiet m rest := place.resolve_right (by simp [announce])
    split at step <;> obtain rfl := Option.some.inj step
    · refine ⟨.announce (.left self), .telling ready (.publish w _ _) rfl
        (by simp [Core.notes, Note.tellsOf, manager]) ?_ nothing.sound nothing.marks nothing.bonds
        (by simp)⟩
      have outside : posture m (.leaving l :: rest) = .outside := quiet.outside
      rw [nothing.posture, outside]
      exact .announce _
    · exact ⟨.nothing, .calm ready (.refl w) (by simp) nothing⟩

theorem Foreign.performs {f : Foreign} (ready : Ready m self w (.foreign f :: rest))
    (step : f.advance w = some effect) :
    effect.Performs m self w (.foreign f) rest .nothing := by
  obtain ⟨manager, calls, unbound, leaves⟩ := ready.sound.1
  have stands (f' : Foreign) : (Frame.foreign f').Awaited m rest :=
    ready.sound.2.1.exchange rfl rfl
  have above (f' : Foreign) : Open m (.foreign f' :: rest) := calls.cons rfl rfl rfl
  simp only [Foreign.advance] at step
  split at step
  · obtain rfl := Option.some.inj step
    exact .calm ready (.refl w) (by simp)
      (.call ready.sound ⟨manager, (above _).imp id (⟨rfl, ·⟩), by simp⟩ rfl
        ⟨manager, calls, unbound, by simp⟩ (stands _) rfl rfl rfl (.inl rfl))
  · obtain rfl := Option.some.inj step
    exact .calm ready (.refl w) (by simp)
      (.call ready.sound ⟨manager, by simp, (above _).imp id (⟨rfl, ·⟩)⟩ rfl
        ⟨manager, calls, unbound, by simp⟩ (stands _) rfl rfl rfl (.inl rfl))
  · split at step <;> rename_i added <;> obtain rfl := Option.some.inj step
    · have above : Open m (.answer f.reply :: rest) := calls.cons rfl rfl rfl
      exact .calm ready (.refl w) (by simp)
        (.call ready.sound ⟨manager, above.imp id (⟨rfl, ·⟩), fun _ => unbound added⟩ rfl
          (.inl calls) (ready.sound.2.1.exchange rfl rfl) rfl rfl rfl (.inl rfl))
    · exact .calm ready (.refl w) (by simp) (ready.sound.replied_plain rfl _)
  · rename_i abandon
    obtain rfl := Option.some.inj step
    have above : Open m (.rethrow f.message :: rest) := calls.cons rfl rfl rfl
    exact .calm ready (.refl w) (by simp)
      (.call ready.sound ⟨manager, above.imp id (⟨rfl, ·⟩), fun _ => unbound (leaves abandon)⟩ rfl
        (.inl calls) (ready.sound.2.1.exchange rfl rfl) rfl rfl rfl (.inl rfl))

theorem Acquiring.performs {a : Acquiring} (ready : Ready m self w (.acquiring a :: rest))
    (step : a.advance self w = some effect) :
    effect.Performs m self w (.acquiring a) rest .nothing := by
  obtain ⟨manager, calls⟩ := ready.sound.1
  have stands (a' : Acquiring) : (Frame.acquiring a').Awaited m rest :=
    ready.sound.2.1.exchange rfl rfl
  have above (a' : Acquiring) : Open m (.acquiring a' :: rest) := calls.cons rfl rfl rfl
  simp only [Acquiring.advance] at step
  split at step <;> obtain rfl := Option.some.inj step
  · exact .calm ready (.refl w) (by simp)
      (.call ready.sound (by simpa [Frame.Fits, Acquisition.begin] using .inl (above _))
        (by simp [Frame.Awaits, Frame.isBound, Acquisition.begin]) ⟨manager, calls⟩ (stands _)
        (Frame.posture_acquisition (by simp [Acquisition.begin]) _) rfl rfl (.inl rfl))
  · exact .calm ready (.refl w) (by simp)
      (.call ready.sound ⟨manager, (above _).imp id (⟨rfl, ·⟩)⟩ rfl ⟨manager, calls⟩ (stands _) rfl
        rfl rfl (.inl rfl))
  · exact .calm ready (.refl w) (by simp) (ready.sound.replied_plain rfl _)

theorem Blocking.performs {b : Blocking} (ready : Ready m self w (.blocking b :: rest))
    (step : b.advance self w = some effect) :
    effect.Performs m self w (.blocking b) rest .nothing := by
  obtain ⟨manager, calls⟩ := ready.sound.1
  have stands (b' : Blocking) : (Frame.blocking b').Awaited m rest :=
    ready.sound.2.1.exchange rfl rfl
  have above (b' : Blocking) : Open m (.blocking b' :: rest) := calls.cons rfl rfl rfl
  have goto (b' : Blocking) (same : b'.manager = b.manager) :
      Follows m self (.blocking b :: rest) ((Control.goto (.blocking b')).stack rest) :=
    .goto ready.sound ⟨same.trans manager, calls⟩ (stands b') rfl rfl (.inl rfl)
  simp only [Blocking.advance] at step
  split at step
  · split at step
    · obtain ⟨⟨v, notes⟩, leaves, goes⟩ := Option.bind_eq_some_iff.mp step
      obtain rfl := Option.some.inj goes
      obtain ⟨agrees, silent⟩ := World.Agrees.leaveGlobal (m := m) leaves
      exact .calm ready agrees silent (goto _ rfl)
    · obtain rfl := Option.some.inj step
      exact .calm ready (.refl w) (by simp) (goto _ rfl)
  · obtain rfl := Option.some.inj step
    exact .calm ready (.refl w) (by simp)
      (.call ready.sound (.inl (above _)) rfl ⟨manager, calls⟩ (stands _) rfl rfl rfl (.inl rfl))
  · split at step <;> obtain rfl := Option.some.inj step
    · exact .calm ready (.refl w) (by simp)
        (.call ready.sound ⟨manager, (above _).imp id (⟨rfl, ·⟩)⟩ rfl ⟨manager, calls⟩ (stands _) rfl
          rfl rfl (.inl rfl))
    · exact .calm ready (.refl w) (by simp) (goto _ rfl)
  · split at step <;> obtain rfl := Option.some.inj step
    · have above : Open m (.answer b.reply :: rest) := calls.cons rfl rfl rfl
      exact .calm ready (.refl w) (by simp)
        (.call ready.sound ⟨manager, above⟩ rfl (.inl calls) (ready.sound.2.1.exchange rfl rfl) rfl rfl
          rfl (.inl rfl))
    · exact .calm ready (.refl w) (by simp) (ready.sound.replied_plain rfl _)

theorem Pausing.performs {p : Pausing} (ready : Ready m self w (.pausing p :: rest))
    (step : p.advance self w = some effect) :
    ∃ deed, effect.Performs m self w (.pausing p) rest deed := by
  obtain ⟨manager, present, place⟩ := ready.sound.1
  have stands (p' : Pausing) : (Frame.pausing p').Awaited m rest :=
    ready.sound.2.1.alike (fun _ _ => id) rfl
  have sound (quiet : Quiet m rest) (p' : Pausing) (same : p'.manager = p.manager)
      (present : p'.point ≠ .abandon) : Sound m self (.pausing p' :: rest) :=
    ⟨⟨same.trans manager, present, .inl quiet⟩, stands p', ready.sound.tail⟩
  have drives (p' : Pausing) (point : p'.point.drives = true) :
      posture m (.pausing p' :: rest) = .driving p'.action p'.point := by
    simp [Frame.posture, point]
  have waits (p' : Pausing) (point : p'.point.drives = false) :
      posture m (.pausing p' :: rest) = posture m rest := by
    simp [Frame.posture, point]
  have bonded (p' : Pausing) (record : p'.record = p.record)
      (relies : p'.point.relies = true → p.point.relies = true) :
      bonds (.pausing p' :: rest) ⊆ bonds (.pausing p :: rest) := by
    intro bond mem
    simp only [bonds_cons, List.mem_append, Frame.bond?, record] at mem ⊢
    refine mem.imp_left fun here => ?_
    split at here
    · rename_i relies'
      simpa [relies relies'] using here
    · simp at here
  simp only [Pausing.advance] at step
  split at step
  · rename_i gate
    have transparent := waits p (by simp [gate, Pausing.Point.drives])
    split at step <;> rename_i reentrant <;> obtain rfl := Option.some.inj step
    · refine ⟨.nothing, .calm ready (.refl w) (by simp [Note.tellsOf])
        (ready.sound.replied transparent (by simp [Frame.marks, gate]) fun _ awaited =>
          ⟨?_, by simp, by simp⟩)⟩
      intro q same
      subst same
      exact awaited.elim
    · have quiet : Quiet m rest := by
        refine place.resolve_right fun acting => reentrant ?_
        rw [manager]
        exact ready.reentrant (acting.2.cons transparent (by simp [Frame.marks, gate]) rfl)
      refine ⟨.nothing, .calm ready (.refl w) (by simp) ⟨sound quiet _ rfl (by simp), ?_, ?_, ?_⟩⟩
      · simp [Control.stack, Frame.posture, gate, Pausing.Point.drives]
      · simp [Control.stack, Frame.marks, gate]
      · simp [Control.stack, Frame.bond?, Pausing.Point.relies]
  · rename_i find
    have quiet : Quiet m rest := place.resolve_right (by simp [find])
    have transparent := waits p (by simp [find, Pausing.Point.drives])
    split at step <;> rename_i there <;> obtain rfl := Option.some.inj step
    · refine ⟨.nothing, .calm ready (.refl w) (by simp)
        (ready.sound.replied transparent (by simp [Frame.marks, find]) fun _ awaited =>
          ⟨?_, by simp, by simp⟩)⟩
      intro q same
      subst same
      exact awaited.elim
    · rename_i entry
      rw [manager] at there
      refine ⟨.nothing, rfl, by simp [Core.notes], fun _ => rfl, fun _ _ => rfl, ?_, ?_,
        sound quiet _ rfl (by simp), fun record mem => ?_, by simp⟩
      · rw [ready.mark]
        simp [Control.stack, Frame.marks, find]
      · rw [transparent]
        simpa [Control.stack, Frame.posture, Pausing.Point.drives] using .stay _
      · simp only [Control.stack, bonds_cons, List.mem_append, Frame.bond?] at mem ⊢
        rcases mem with here | below
        · right
          exact ⟨entry, there, by simpa [Pausing.Point.relies, eq_comm] using here⟩
        · exact .inl (.inr below)
  · rename_i lock
    obtain rfl := Option.some.inj step
    have quiet : Quiet m rest := place.resolve_right (by simp [lock])
    refine ⟨.nothing, .calm ready (.refl w) (by simp)
      (.call ready.sound (by simp [Frame.Fits, Acquisition.begin, manager])
        ⟨rfl, by simp [Acquisition.begin, manager]⟩ ⟨manager, by simp, .inl quiet⟩ (stands _) ?_ ?_ rfl
        (.inr ?_))⟩
    · simp [Frame.posture, Acquisition.begin, manager, lock, Pausing.Point.drives, quiet.outside]
    · simp [Frame.marks, lock]
    · simp [Frame.bond?, lock, Pausing.Point.relies]
  · rename_i poll
    obtain rfl := Option.some.inj step
    have quiet : Quiet m rest := place.resolve_right (by simp [poll])
    have above : Quiet m (.pausing { p with point := .lock } :: rest) :=
      quiet.cons (waits _ rfl) rfl rfl
    refine ⟨.nothing, .calm ready (.refl w) (by simp)
      (.call ready.sound ⟨manager, .inl above⟩ rfl ⟨manager, by simp, .inl quiet⟩ (stands _) ?_ ?_ rfl
        (.inr ?_))⟩
    · simp [Frame.posture, poll, Pausing.Point.drives, Polling.Point.isCalled]
    · simp [Frame.marks, poll]
    · simp [Frame.bond?, poll, Pausing.Point.relies]
  · rename_i point
    obtain rfl := Option.some.inj step
    have quiet : Quiet m rest := place.resolve_right (by simp [point])
    refine ⟨.nothing, .telling ready (.refl w) rfl (by simp [Core.notes, Note.tellsOf]) ?_
      (sound quiet _ rfl (by simp)) (by simp [Control.stack, Frame.marks, point])
      (bonded _ rfl (by simp [point, Pausing.Point.relies])) (by simp)⟩
    rw [drives p (by simp [point, Pausing.Point.drives]), point]
    exact drives { p with point := .announceStart } rfl ▸ .proceed .open
  · rename_i point
    obtain rfl := Option.some.inj step
    have quiet : Quiet m rest := place.resolve_right (by simp [point])
    refine ⟨.announce (.pauseStarted self), .telling ready (.publish w _ _) rfl
      (by simp [Core.notes, Note.tellsOf, manager]) ?_ (sound quiet _ rfl (by simp))
      (by simp [Control.stack, Frame.marks, point])
      (bonded _ rfl (by simp [point, Pausing.Point.relies])) (by simp)⟩
    rw [drives p (by simp [point, Pausing.Point.drives]), point]
    exact drives { p with point := .store } rfl ▸ .announceStart _
  · rename_i point
    obtain rfl := Option.some.inj step
    have quiet : Quiet m rest := place.resolve_right (by simp [point])
    refine ⟨.store p.action, .deed ready (by rw [manager, World.core_modifyManager]; rfl)
      (by simp [Core.notes]) (by simp) (by simp) ?_ (sound quiet _ rfl (by simp))
      (by simp [Control.stack, Frame.marks, point])
      (bonded _ rfl (by simp [point, Pausing.Point.relies])) (by simp)⟩
    rw [drives p (by simp [point, Pausing.Point.drives]), point]
    exact drives { p with point := .invalidate } rfl ▸ .store
  · rename_i point
    obtain rfl := Option.some.inj step
    have quiet : Quiet m rest := place.resolve_right (by simp [point])
    refine ⟨.invalidate, .deed ready (by rw [manager, World.core_modifyManager]; rfl)
      (by simp [Core.notes, Note.tellsOf, manager, World.core, Manager.core]) (by simp) (by simp) ?_
      (sound quiet _ rfl (by simp)) (by simp [Control.stack, Frame.marks, point])
      (bonded _ rfl (by simp [point, Pausing.Point.relies])) (by simp)⟩
    rw [drives p (by simp [point, Pausing.Point.drives]), point]
    exact drives { p with point := .wakeWaiters } rfl ▸ .invalidate
  · rename_i point
    obtain rfl := Option.some.inj step
    have quiet : Quiet m rest := place.resolve_right (by simp [point])
    obtain ⟨next, same, passes, awaits⟩ : ∃ next, (if (w.manager p.manager).settings.interruptBlocked
          then Pausing.Point.interrupt else .leaveGlobal) = next ∧
        Pausing.Point.wakeWaiters.Passes next ∧ (next = .interrupt ∨ next = .leaveGlobal) := by
      split
      · exact ⟨_, rfl, .wake, .inl rfl⟩
      · exact ⟨_, rfl, .wakeOnly, .inr rfl⟩
    rw [same]
    have going : next.drives = true ∧ next.relies = true ∧ next ≠ .abandon ∧ next ≠ .exitPhases := by
      rcases awaits with rfl | rfl <;> decide
    refine ⟨.nothing, .telling ready (.refl w) rfl (by simp [Core.notes]) ?_
      ⟨trivial, awaits, sound quiet _ rfl going.2.2.1⟩
      (by simp [Control.stack, Frame.marks, point, going])
      (List.Subset.trans (by simp [Control.stack, Frame.bond?])
        (bonded { p with point := next } rfl (by simp [point, Pausing.Point.relies]))) (by simp)⟩
    rw [drives p (by simp [point, Pausing.Point.drives]), point]
    exact drives { p with point := next } going.1 ▸ .proceed passes
  · rename_i point
    obtain rfl := Option.some.inj step
    have quiet : Quiet m rest := place.resolve_right (by simp [point])
    refine ⟨.nothing, .telling ready (.refl w) rfl (by simp [Core.notes]) ?_
      ⟨⟨by simp, .inl (by rw [manager])⟩, rfl, sound quiet _ rfl (by simp)⟩
      (by simp [Control.stack, Frame.marks, point])
      (List.Subset.trans (by simp [Control.stack, Frame.bond?])
        (bonded { p with point := .leaveGlobal } rfl (by simp [point, Pausing.Point.relies]))) (by simp)⟩
    rw [drives p (by simp [point, Pausing.Point.drives]), point]
    exact drives { p with point := .leaveGlobal } rfl ▸ .proceed .interrupt
  · rename_i point
    have quiet : Quiet m rest := place.resolve_right (by simp [point])
    have going {v : World} {notes : List Note} (agrees : w.Agrees m v) (silent : Silent m notes) :
        (Effect.mk v (.goto (.pausing { p with point := .enterPhases })) notes).Performs m self w
          (.pausing p) rest .nothing := by
      refine .telling ready agrees rfl silent.filter ?_ (sound quiet _ rfl (by simp))
        (by simp [Control.stack, Frame.marks, point])
        (bonded _ rfl (by simp [point, Pausing.Point.relies])) (by simp)
      rw [drives p (by simp [point, Pausing.Point.drives]), point]
      exact drives { p with point := .enterPhases } rfl ▸ .proceed .leaveGlobal
    split at step
    · obtain ⟨⟨v, notes⟩, leaves, goes⟩ := Option.bind_eq_some_iff.mp step
      obtain rfl := Option.some.inj goes
      obtain ⟨agrees, silent⟩ := World.Agrees.leaveGlobal (m := m) leaves
      exact ⟨.nothing, going agrees silent⟩
    · obtain rfl := Option.some.inj step
      exact ⟨.nothing, going (.refl w) (by simp)⟩
  · rename_i point
    obtain rfl := Option.some.inj step
    have quiet : Quiet m rest := place.resolve_right (by simp [point])
    refine ⟨.join true, .marking rfl (by simp [Core.notes, Note.tellsOf, manager])
      (by simp [Control.stack, Frame.marks]) ?_
      ⟨⟨manager, by simp⟩, ⟨rfl, rfl, rfl⟩, sound quiet _ rfl (by simp)⟩
      (List.Subset.trans (by simp [Control.stack, Frame.bond?])
        (bonded { p with point := .exitPhases } rfl (by simp [point, Pausing.Point.relies]))) (by simp)⟩
    rw [drives p (by simp [point, Pausing.Point.drives]), point]
    have after : posture m (.phases { manager := p.manager, record := p.record, drives := true } ::
        .pausing { p with point := .exitPhases } :: rest) = .meeting (some p.action) .first none := by
      simp [Frame.posture, Pausing.Point.drives]
    exact after ▸ .lead
  · rename_i point
    obtain rfl := Option.some.inj step
    have quiet : Quiet m rest := place.resolve_right (by simp [point])
    refine ⟨.finish true, .marking rfl (by simp [Core.notes, Note.tellsOf, manager])
      (by simp [Control.stack, Frame.marks, quiet.unmarked]) ?_ (sound quiet _ rfl (by simp))
      (bonded _ rfl (by simp [Pausing.Point.relies])) (by simp)⟩
    rw [drives p (by simp [point, Pausing.Point.drives]), point]
    exact drives { p with point := .clear } rfl ▸ .conclude
  · rename_i point
    obtain rfl := Option.some.inj step
    have quiet : Quiet m rest := place.resolve_right (by simp [point])
    refine ⟨.clear, .deed ready (by rw [manager, World.core_modifyManager]; rfl)
      (by simp [Core.notes]) (by simp) (by simp) ?_ (sound quiet _ rfl (by simp))
      (by simp [Control.stack, Frame.marks, point]) (bonded _ rfl (by simp [Pausing.Point.relies]))
      (by simp)⟩
    rw [drives p (by simp [point, Pausing.Point.drives]), point]
    exact drives { p with point := .account } rfl ▸ .clear
  · rename_i point
    obtain rfl := Option.some.inj step
    have quiet : Quiet m rest := place.resolve_right (by simp [point])
    refine ⟨.account, .deed ready (by rw [manager, World.core_modifyManager]; rfl) ?_ (by simp)
      (by simp) ?_ (sound quiet _ rfl (by simp)) (by simp [Control.stack, Frame.marks, point])
      (bonded _ rfl (by simp [Pausing.Point.relies])) (by simp)⟩
    · split <;> simp [Core.notes, Note.tellsOf]
    · rw [drives p (by simp [point, Pausing.Point.drives]), point]
      exact drives { p with point := .unlock } rfl ▸ .account
  · rename_i point
    obtain rfl := Option.some.inj step
    have quiet : Quiet m rest := place.resolve_right (by simp [point])
    have above : Quiet m (.pausing { p with point := .announceEnd } :: rest) :=
      quiet.cons (waits _ rfl) rfl rfl
    refine ⟨.nothing, .telling ready (.refl w) rfl (by simp [Core.notes]) ?_
      ⟨by simpa [Frame.Fits, manager] using above, ⟨rfl, by rw [manager]⟩,
        sound quiet _ rfl (by simp)⟩
      (by simp [Control.stack, Frame.marks, point])
      (List.Subset.trans (by simp [Control.stack, Frame.bond?])
        (bonded { p with point := .announceEnd } rfl (by simp [Pausing.Point.relies]))) (by simp)⟩
    rw [drives p (by simp [point, Pausing.Point.drives]), point]
    have after : posture m (.release (.pause p.manager) .clear ::
        .pausing { p with point := .announceEnd } :: rest) = .owning := by
      simp [Frame.posture, manager]
    exact after ▸ .unlock
  · rename_i point
    obtain rfl := Option.some.inj step
    have quiet : Quiet m rest := place.resolve_right (by simp [point])
    refine ⟨.announce (.pauseCompleted self p.participants p.duration),
      .telling ready (.publish w _ _) rfl (by simp [Core.notes, Note.tellsOf, manager]) ?_
      (sound quiet _ rfl (by simp)) (by simp [Control.stack, Frame.marks, point])
      (bonded _ rfl (by simp [Pausing.Point.relies])) (by simp)⟩
    have before := (waits p (by simp [point, Pausing.Point.drives])).trans quiet.outside
    have after := (waits { p with point := .resume } rfl).trans quiet.outside
    rw [before]
    simp only [Control.stack]
    rw [after]
    exact .announce _
  · rename_i point
    obtain rfl := Option.some.inj step
    have quiet : Quiet m rest := place.resolve_right (by simp [point])
    have stands : (Frame.answer (.succeeded .nothing)).Awaited m rest := by
      have stands := ready.sound.2.1
      cases rest with
      | nil => rfl
      | cons parent below =>
        cases parent with
        | foreign f => exact .inl stands
        | _ => first | exact stands.elim | rfl
    refine ⟨.nothing, .calm ready (.refl w) (by simp)
      (.call ready.sound ⟨manager, quiet.cons rfl rfl rfl⟩ rfl (.inl (.inl quiet)) stands ?_ ?_ rfl
        (.inl rfl))⟩
    · simp [Frame.posture, point, Pausing.Point.drives]
    · simp [Frame.marks, point]
  · rename_i point
    exact absurd point present

end

end StopTheWorld
