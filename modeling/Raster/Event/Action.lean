import Raster.Event.Registration

/-!
# What a call of the handler does to an event

For the rest of the framework a call of `EventHandler::handle`, or of `onTimeout` for a deadline, is
one of six actions on an event: part of a request or response was read or written, all of it was, a
connection was made, or it is closed. An action says what the event is afterwards and where it goes: it
stays in the poll, it is dispatched again, it is passed to `Actor::execute`, or it is deleted.

`handle_action` and `expire_action` say that the handler does nothing else, and that it dispatches no
event that the loop cannot add.
-/

set_option linter.unusedSectionVars false

namespace Raster

/-- What happens to a registered event. -/
inductive Action
  | connected
  | read
  | readed
  | write
  | writed
  | close
  deriving DecidableEq, Repr

/-- Where the event goes. -/
inductive Disposition
  | stays
  | dispatched
  | executed
  | deleted
  deriving DecidableEq, Repr

namespace Action

/-- The action is possible for an event of the type; closing always is. -/
def Possible (a : Action) (type : EventType) : Prop :=
  match a with
  | .connected => type = .connect
  | .read => type ∈ [.next, .toread, .reading]
  | .readed => type ∈ [.next, .toread, .reading]
  | .write => type ∈ [.towrite, .writing]
  | .writed => type ∈ [.towrite, .writing]
  | .close => True

instance (a : Action) (type : EventType) : Decidable (a.Possible type) := by
  unfold Possible
  cases a <;> infer_instance

/-- The event after the action, up to its timestamps, and where it goes. -/
def apply (a : Action) (ev : Event) : Event × Disposition :=
  match a with
  | .connected => (ev.setType .towrite, .stays)
  | .read => (ev.setType .reading, .stays)
  | .readed => (ev.setType .readed, .executed)
  | .write => (ev.setType .writing, .stays)
  | .writed =>
    if ev.role = .server then ((ev.reset ev.starttime).setType .next, .dispatched)
    else (ev.setType .toread, .dispatched)
  | .close => if ev.role = .client then (ev.setType .fail, .executed) else (ev, .deleted)

end Action

/-- The events agree in all but their timestamps. -/
structure Event.Same (a b : Event) : Prop where
  seqid : a.seqid = b.seqid
  type : a.type = b.type
  group : a.group = b.group
  forward : a.forward = b.forward
  role : a.role = b.role
  channel : a.channel = b.channel
  executor : a.executor = b.executor

theorem Event.Same.refl (ev : Event) : ev.Same ev := ⟨rfl, rfl, rfl, rfl, rfl, rfl, rfl⟩

theorem Action.apply_same (a : Action) {ev ev' : Event} {type : EventType} (h : ev'.Same (ev.setType type)) :
    (a.apply ev').2 = (a.apply ev).2 ∧
      ((a.apply ev).2 ≠ .deleted → (a.apply ev').1.Same (a.apply ev).1) := by
  obtain ⟨h1, -, h3, h4, h5, h6, h7⟩ := h
  simp only [Event.setType] at h1 h3 h4 h5 h6 h7
  cases a <;> simp only [apply, h5]
  case writed =>
    split_ifs
    · exact ⟨rfl, fun _ => ⟨by simp [Event.reset, Event.setType, h1], rfl, rfl, rfl, h5, h6, rfl⟩⟩
    · exact ⟨rfl, fun _ => ⟨h1, rfl, h3, h4, h5, h6, h7⟩⟩
  case close =>
    split_ifs
    · exact ⟨rfl, fun _ => ⟨h1, rfl, h3, h4, h5, h6, h7⟩⟩
    · exact ⟨rfl, fun hne => absurd rfl hne⟩
  all_goals exact ⟨trivial, fun _ => ⟨h1, rfl, h3, h4, h5, h6, h7⟩⟩

theorem Event.Same.trans {a b c : Event} (h : a.Same b) (h' : b.Same c) : a.Same c :=
  ⟨h.1.trans h'.1, h.2.trans h'.2, h.3.trans h'.3, h.4.trans h'.4, h.5.trans h'.5, h.6.trans h'.6, h.7.trans h'.7⟩

namespace EventLoop

open Lib (MinQueue)

variable {Q : Type} [MinQueue Q (Timeout Nat) Timeout.deadline] {l l' l₁ : EventLoop Q} {e : Nat} {a : Action}

/-- The call did this action to the event, and dropped no event. -/
structure Did (l : EventLoop Q) (e : Nat) (a : Action) (l' : EventLoop Q) : Prop where
  event : (a.apply (l.events e)).2 ≠ .deleted → (l'.events e).Same (a.apply (l.events e)).1
  registered : e ∈ l'.registered ↔ (a.apply (l.events e)).2 = .stays ∨ (a.apply (l.events e)).2 = .dispatched
  executed : l'.executed = if (a.apply (l.events e)).2 = .executed then l.executed ++ [e] else l.executed
  deleted : (a.apply (l.events e)).2 = .deleted → e ∈ l'.deleted
  dropped : l'.dropped = l.dropped

/-- What was done before the action and only concerns the type and the time of the event. -/
structure Preceded (l : EventLoop Q) (e : Nat) (l₁ : EventLoop Q) : Prop where
  event : ∃ type, (l₁.events e).Same ((l.events e).setType type)
  registered : e ∈ l.registered → e ∈ l₁.registered
  executed : l₁.executed = l.executed
  dropped : l₁.dropped = l.dropped

theorem Preceded.refl : l.Preceded e l := ⟨⟨(l.events e).type, Event.Same.refl _⟩, id, rfl, rfl⟩

theorem Preceded.setType (h : l.Preceded e l₁) (type : EventType) : l.Preceded e (l₁.setType e type) := by
  obtain ⟨⟨t, ht⟩, hreg, hexec, hdrop⟩ := h
  refine ⟨⟨type, ?_⟩, by simpa [EventLoop.setType, modify] using hreg, by simpa [EventLoop.setType, modify] using hexec,
    by simpa [EventLoop.setType, modify] using hdrop⟩
  simp only [EventLoop.setType, modify, Events.modify_same]
  exact ⟨ht.1, rfl, ht.3, ht.4, ht.5, ht.6, ht.7⟩

theorem Preceded.access (h : l.Preceded e l₁) : l.Preceded e (l₁.access e) := by
  obtain ⟨ht, hreg, hexec, hdrop⟩ := h
  exact ⟨by simpa using ht, by simpa using hreg, by simpa using hexec, by simpa using hdrop⟩

theorem Preceded.restartEvent (h : l.Preceded e l₁) (now : Nat) : l.Preceded e (l₁.restartEvent e now) := by
  obtain ⟨⟨t, ht⟩, hreg, hexec, hdrop⟩ := h
  refine ⟨⟨t, ?_⟩, ?_, ?_, ?_⟩
  · simp only [EventLoop.restartEvent, modify, pushDeadline, eraseDeadline, Events.modify_same]
    exact ⟨ht.1, ht.2, ht.3, ht.4, ht.5, ht.6, ht.7⟩
  · simpa [EventLoop.restartEvent, modify, pushDeadline, eraseDeadline] using hreg
  · simpa [EventLoop.restartEvent, modify, pushDeadline, eraseDeadline] using hexec
  · simpa [EventLoop.restartEvent, modify, pushDeadline, eraseDeadline] using hdrop

theorem Preceded.did (h : l.Preceded e l₁) (hdid : l₁.Did e a l') : l.Did e a l' := by
  obtain ⟨⟨t, ht⟩, -, hexec, hdrop⟩ := h
  obtain ⟨h1, h2, h3, h4, h5⟩ := hdid
  obtain ⟨hdisp, hsame⟩ := a.apply_same ht
  rw [hdisp] at h1 h2 h3 h4
  exact ⟨fun hne => (h1 hne).trans (hsame hne), h2, by rw [h3, hexec], h4, h5.trans hdrop⟩

/-! ### Each way through the handler -/

theorem removeEvent_executed : (l.removeEvent e).executed = l.executed := by
  simp [removeEvent, pollRemove, eraseDeadline]

theorem removeEvent_dropped : (l.removeEvent e).dropped = l.dropped := by
  simp [removeEvent, pollRemove, eraseDeadline]

theorem closePeer_did : l.Did e .close (l.closePeer e) := by
  have hunlinked := (removeEvent_unlinked l e).1
  by_cases hrole : (l.events e).role = .client
  · simp only [closePeer, access_events, removeEvent_events, if_pos hrole]
    refine ⟨fun _ => ?_, ?_, ?_, ?_, ?_⟩
    · simpa [Action.apply, hrole, execute, setType, modify, removeEvent_events] using Event.Same.refl _
    · simpa [Action.apply, hrole, execute, setType, modify] using hunlinked
    · simp [Action.apply, hrole, execute, setType, modify, removeEvent_executed]
    · simp [Action.apply, hrole]
    · simp [execute, setType, modify, removeEvent_dropped]
  · simp only [closePeer, access_events, removeEvent_events, if_neg hrole]
    refine ⟨?_, ?_, ?_, ?_, ?_⟩
    · simp [Action.apply, hrole]
    · simpa [Action.apply, hrole, EventLoop.delete] using hunlinked
    · simp [Action.apply, hrole, EventLoop.delete, removeEvent_executed]
    · simp [EventLoop.delete]
    · simp [EventLoop.delete, removeEvent_dropped]

/-- An event that the loop can add. -/
def Dispatchable (type : EventType) : Prop := type ∈ [.listen, .next, .toread, .connect, .towrite]

instance (type : EventType) : Decidable (Dispatchable type) := by
  unfold Dispatchable
  infer_instance

theorem dispatchEvent_spec (l : EventLoop Q) (e : Nat) :
    (l.dispatchEvent e).events = l.events ∧ (l.dispatchEvent e).executed = l.executed ∧
      (l.dispatchEvent e).deleted = l.deleted ∧
      (Dispatchable (l.events e).type → e ∈ (l.dispatchEvent e).registered ∧ (l.dispatchEvent e).dropped = l.dropped) ∧
      (¬ Dispatchable (l.events e).type →
        (l.dispatchEvent e).registered = l.registered ∧ (l.dispatchEvent e).dropped = l.dropped ++ [e]) := by
  cases htype : (l.events e).type <;>
    simp [dispatchEvent, htype, addListenEvent, addReadEvent, addWriteEvent, pushDeadline, Dispatchable, mem_pollAdd]
  all_goals simp [pollAdd]

theorem complete_readed_did {o : Answers} (htype : (l.events e).type = .readed) :
    l.Did e .readed (l.complete e o) := by
  have hunlinked := (removeEvent_unlinked l e).1
  simp only [complete, access_events, removeEvent_events, htype]
  have hevent : (l.events e).setType .readed = l.events e := by rw [Event.setType, ← htype]
  split_ifs
  · refine ⟨fun _ => ?_, ?_, ?_, ?_, ?_⟩
    · simpa [Action.apply, execute, EventLoop.delete, hevent, removeEvent_events] using Event.Same.refl _
    · simpa [Action.apply, execute, EventLoop.delete] using hunlinked
    · simp [Action.apply, execute, EventLoop.delete, removeEvent_executed]
    · simp [Action.apply]
    · simp [execute, EventLoop.delete, removeEvent_dropped]
  · refine ⟨fun _ => ?_, ?_, ?_, ?_, ?_⟩
    · simpa [Action.apply, execute, hevent, removeEvent_events] using Event.Same.refl _
    · simpa [Action.apply, execute] using hunlinked
    · simp [Action.apply, execute, removeEvent_executed]
    · simp [Action.apply]
    · simp [execute, removeEvent_dropped]

theorem complete_writed_did {o : Answers} (htype : (l.events e).type = .writed) :
    l.Did e .writed (l.complete e o) := by
  simp only [complete, access_events, removeEvent_events, htype]
  have hother : ∀ l₂ : EventLoop Q, l₂.executed = l.executed → l₂.dropped = l.dropped → Dispatchable (l₂.events e).type →
      (Action.writed.apply (l.events e)).2 = .dispatched → (l₂.events e).Same (Action.writed.apply (l.events e)).1 →
      l.Did e .writed (l₂.dispatchEvent e) := by
    intro l₂ hexec₂ hdrop₂ htype₂ hdisp hsame
    obtain ⟨hev, hexec, -, hadd, -⟩ := dispatchEvent_spec l₂ e
    obtain ⟨hreg, hdrop⟩ := hadd htype₂
    refine ⟨fun _ => hev ▸ hsame, ?_, ?_, ?_, hdrop.trans hdrop₂⟩
    · simpa [hdisp] using hreg
    · rw [hexec, hexec₂, hdisp, if_neg (by decide)]
    · simp [hdisp]
  split_ifs with hrole
  · have hev : ((((l.removeEvent e).access e).modify e fun ev => ev.reset o.reset).setType e .next).events e =
        ((l.events e).reset o.reset).setType .next := by
      simp [setType, modify, removeEvent_events]
    refine hother _ ?_ ?_ ?_ ?_ ?_
    · simp [setType, modify, removeEvent_executed]
    · simp [setType, modify, removeEvent_dropped]
    · rw [hev]
      simp [Event.setType, Dispatchable]
    · simp only [Action.apply, if_pos hrole]
    · rw [hev, Action.apply, if_pos hrole]
      exact ⟨rfl, rfl, rfl, rfl, rfl, rfl, rfl⟩
  · have hev : (((l.removeEvent e).access e).setType e .toread).events e = (l.events e).setType .toread := by
      simp [setType, modify, removeEvent_events]
    refine hother _ ?_ ?_ ?_ ?_ ?_
    · simp [setType, modify, removeEvent_executed]
    · simp [setType, modify, removeEvent_dropped]
    · rw [hev]
      simp [Event.setType, Dispatchable]
    · simp only [Action.apply, if_neg hrole]
    · rw [hev, Action.apply, if_neg hrole]
      exact Event.Same.refl _

theorem fail_did (h : l.Preceded e l₁) (type : EventType) :
    l.Did e .close (((l₁.setType e type).access e).closePeer e) :=
  (h.setType type).access.did closePeer_did

theorem onComplete_did (h : l.Preceded e l₁) {o : Answers} :
    ((l₁.events e).type = .readed → ∃ a, (a = .readed ∨ a = .close) ∧ l.Did e a (l₁.onComplete e o)) ∧
    ((l₁.events e).type = .writed → ∃ a, (a = .writed ∨ a = .close) ∧ l.Did e a (l₁.onComplete e o)) := by
  simp only [onComplete]
  split_ifs
  · exact ⟨fun _ => ⟨.close, Or.inr rfl, fail_did h.access .timeout⟩,
      fun _ => ⟨.close, Or.inr rfl, fail_did h.access .timeout⟩⟩
  · exact ⟨fun _ => ⟨.close, Or.inr rfl, fail_did h.access .timeout⟩,
      fun _ => ⟨.close, Or.inr rfl, fail_did h.access .timeout⟩⟩
  · exact ⟨fun ht => ⟨.readed, Or.inl rfl, h.access.did (complete_readed_did (by simpa using ht))⟩,
      fun ht => ⟨.writed, Or.inl rfl, h.access.did (complete_writed_did (by simpa using ht))⟩⟩

theorem Preceded.stays (h : l.Preceded e l₁) (hreg : e ∈ l.registered) {type : EventType}
    (ha : ∀ ev, a.apply ev = (ev.setType type, .stays)) : l.Did e a (l₁.setType e type) := by
  refine h.did ⟨fun _ => ?_, ?_, ?_, ?_, ?_⟩
  · rw [ha]
    simpa [EventLoop.setType, modify] using Event.Same.refl _
  · simpa [ha, EventLoop.setType, modify] using h.registered hreg
  · simp [ha, EventLoop.setType, modify]
  · simp [ha]
  · simp [EventLoop.setType, modify]

theorem onRead_did (h : l.Preceded e l₁) (hreg : e ∈ l.registered) (o : Answers) :
    ∃ a, (a = .read ∨ a = .readed ∨ a = .close) ∧ l.Did e a (l₁.onRead e o) := by
  have hreading := h.setType .reading
  simp only [onRead]
  cases o.read with
  | error => exact ⟨.close, by simp, fail_did hreading .error⟩
  | timeout => exact ⟨.close, by simp, fail_did hreading .timeout⟩
  | complete =>
    obtain ⟨a, ha, hdid⟩ := (onComplete_did (hreading.setType .readed) (o := o)).1
      (by simp [setType, modify, Event.setType])
    exact ⟨a, by tauto, hdid⟩
  | again => exact ⟨.read, by simp, h.stays hreg fun _ => rfl⟩
  | closed => exact ⟨.close, by simp, hreading.did closePeer_did⟩

theorem onWrite_did (h : l.Preceded e l₁) (hreg : e ∈ l.registered) (o : Answers) :
    ∃ a, (a = .write ∨ a = .writed ∨ a = .close) ∧ l.Did e a (l₁.onWrite e o) := by
  have hwriting := h.setType .writing
  simp only [onWrite]
  cases o.write with
  | error => exact ⟨.close, by simp, fail_did hwriting .error⟩
  | timeout => exact ⟨.close, by simp, fail_did hwriting .timeout⟩
  | complete =>
    obtain ⟨a, ha, hdid⟩ := (onComplete_did (hwriting.setType .writed) (o := o)).2
      (by simp [setType, modify, Event.setType])
    exact ⟨a, by tauto, hdid⟩
  | again => exact ⟨.write, by simp, h.stays hreg fun _ => rfl⟩
  | closed => exact ⟨.write, by simp, h.stays hreg fun _ => rfl⟩

theorem onConnect_did (h : l.Preceded e l₁) (hreg : e ∈ l.registered) (o : Answers) :
    ∃ a, (a = .connected ∨ a = .close) ∧ l.Did e a (l₁.onConnect e o) := by
  unfold onConnect
  split_ifs
  · exact ⟨.close, by simp, fail_did h .timeout⟩
  · exact ⟨.close, by simp, fail_did h .error⟩
  · exact ⟨.connected, by simp, h.stays hreg fun _ => rfl⟩

/-- **A call of the handler is one action.** For every registered event but a listening one, and all
answers, the handler does one of the actions that are possible for the type of the event. -/
theorem handle_action (hreg : e ∈ l.registered) (htype : (l.events e).type ≠ .listen) (o : Answers) :
    ∃ a : Action, a.Possible (l.events e).type ∧ l.Did e a (l.handle e o) := by
  have hacc : l.Preceded e (l.access e) := Preceded.refl.access
  have hread : ∀ l₁ : EventLoop Q, l.Preceded e l₁ → (l.events e).type ∈ [.next, .toread, .reading] →
      ∃ a : Action, a.Possible (l.events e).type ∧ l.Did e a (l₁.onRead e o) := by
    intro l₁ h hin
    obtain ⟨a, rfl | rfl | rfl, hdid⟩ := onRead_did h hreg o
    · exact ⟨.read, hin, hdid⟩
    · exact ⟨.readed, hin, hdid⟩
    · exact ⟨.close, trivial, hdid⟩
  have hwrite : (l.events e).type ∈ [.towrite, .writing] →
      ∃ a : Action, a.Possible (l.events e).type ∧ l.Did e a ((l.access e).onWrite e o) := by
    intro hin
    obtain ⟨a, rfl | rfl | rfl, hdid⟩ := onWrite_did hacc hreg o
    · exact ⟨.write, hin, hdid⟩
    · exact ⟨.writed, hin, hdid⟩
    · exact ⟨.close, trivial, hdid⟩
  simp only [handle, access_events]
  cases ht : (l.events e).type
  case listen => exact absurd ht htype
  case connect =>
    obtain ⟨a, rfl | rfl, hdid⟩ := onConnect_did hacc hreg o
    · exact ⟨.connected, rfl, hdid⟩
    · exact ⟨.close, trivial, hdid⟩
  case next => simpa [ht] using hread _ (hacc.restartEvent o.restart) (by simp [ht])
  case toread => simpa [ht] using hread _ hacc (by simp [ht])
  case reading => simpa [ht] using hread _ hacc (by simp [ht])
  case towrite => simpa [ht] using hwrite (by simp [ht])
  case writing => simpa [ht] using hwrite (by simp [ht])
  case timeout => exact ⟨.close, trivial, hacc.access.did closePeer_did⟩
  all_goals exact ⟨.close, trivial, hacc.did closePeer_did⟩

theorem expire_action (l : EventLoop Q) (e : Nat) : l.Did e .close (l.expire e) :=
  fail_did Preceded.refl .timeout

end EventLoop

end Raster
