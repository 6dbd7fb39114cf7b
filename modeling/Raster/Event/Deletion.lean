import Raster.Event.EventLoop

/-!
# Deleted events

The handler deletes events of the server when their connection ends, and the copies that
`Actor::forwardEvent` makes when their response arrives. `Clean` says that a call neither used an
event after its deletion nor deleted one twice, and that deleted events are in neither of the two
structures of the loop.

A call is clean except in one place: `onComplete` passes a forwarded event of a client to
`Actor::execute` right after deleting it.
-/

set_option linter.unusedSectionVars false

namespace Raster.EventLoop

open Lib (MinQueue)

variable {Q : Type} [MinQueue Q (Timeout Nat) Timeout.deadline] {l l' l'' : EventLoop Q} {e : Nat}

/-- No event was deleted twice, and no deleted event is registered or has a live deadline. -/
structure Sound (l : EventLoop Q) : Prop where
  nodup : l.deleted.Nodup
  unlinked : ∀ d ∈ l.deleted, d ∉ l.registered ∧ l.deadlineHeap.map d = none

/-- A call did nothing to a deleted event and left the loop sound. -/
structure Clean (l l' : EventLoop Q) : Prop where
  misused_eq : l'.misused = l.misused
  sound : l'.Sound

/-- The same, and nothing was deleted. -/
structure Kept (l l' : EventLoop Q) : Prop extends Clean l l' where
  deleted_eq : l'.deleted = l.deleted

theorem Kept.clean_trans (h : Kept l l') (h' : Clean l' l'') : Clean l l'' :=
  ⟨h'.misused_eq.trans h.misused_eq, h'.sound⟩

theorem Kept.trans (h : Kept l l') (h' : Kept l' l'') : Kept l l'' :=
  ⟨h.clean_trans h'.toClean, h'.deleted_eq.trans h.deleted_eq⟩

theorem Kept.live (h : Kept l l') (hlive : e ∉ l.deleted) : e ∉ l'.deleted := h.deleted_eq ▸ hlive

/-! ### Operations on an event that is alive -/

@[simp] theorem access_events : (l.access e).events = l.events := by
  unfold access
  split_ifs <;> rfl

@[simp] theorem access_registered : (l.access e).registered = l.registered := by
  unfold access
  split_ifs <;> rfl

@[simp] theorem access_deadlineHeap : (l.access e).deadlineHeap = l.deadlineHeap := by
  unfold access
  split_ifs <;> rfl

@[simp] theorem access_deleted : (l.access e).deleted = l.deleted := by
  unfold access
  split_ifs <;> rfl

@[simp] theorem access_executed : (l.access e).executed = l.executed := by
  unfold access
  split_ifs <;> rfl

@[simp] theorem access_dropped : (l.access e).dropped = l.dropped := by
  unfold access
  split_ifs <;> rfl

theorem access_of_live (hlive : e ∉ l.deleted) : l.access e = l := if_neg hlive

theorem mem_pollAdd {d : Nat} : d ∈ (l.pollAdd e).registered ↔ d = e ∨ d ∈ l.registered := by
  simp only [pollAdd]
  split_ifs with h
  · exact ⟨Or.inr, fun hd => hd.elim (fun heq => heq ▸ h) id⟩
  · rw [List.mem_append, List.mem_singleton, or_comm]

theorem mem_pollRemove {d : Nat} : d ∈ (l.pollRemove e).registered ↔ d ≠ e ∧ d ∈ l.registered := by
  simp [pollRemove, and_comm]

theorem map_pushDeadline {t : Timeout Nat} (ht : t.data = some e) {d : Nat} :
    (l.pushDeadline t).deadlineHeap.map d = if d = e then some t else l.deadlineHeap.map d := by
  simp only [pushDeadline, TimedHeap.push, ht, Function.update_apply]

theorem map_eraseDeadline {d : Nat} :
    (l.eraseDeadline e).deadlineHeap.map d = if d = e then none else l.deadlineHeap.map d := by
  simp only [eraseDeadline, TimedHeap.erase, TimedHeap.eraseKey, Function.update_apply]

/-- What keeps the loop sound: the deleted events stay, and no other event than one that is alive is
registered or gets a deadline. -/
theorem Sound.kept (hs : l.Sound) (hlive : e ∉ l.deleted) (hmis : l'.misused = l.misused)
    (hdel : l'.deleted = l.deleted) (hreg : ∀ d, d ≠ e → d ∈ l'.registered → d ∈ l.registered)
    (hmap : ∀ d, d ≠ e → l'.deadlineHeap.map d = l.deadlineHeap.map d) : Kept l l' := by
  refine ⟨⟨hmis, ⟨hdel ▸ hs.nodup, fun d hd => ?_⟩⟩, hdel⟩
  rw [hdel] at hd
  have hne : d ≠ e := fun heq => hlive (heq ▸ hd)
  obtain ⟨hr, hm⟩ := hs.unlinked d hd
  exact ⟨fun hmem => hr (hreg d hne hmem), (hmap d hne).trans hm⟩

theorem modify_kept (hs : l.Sound) (hlive : e ∉ l.deleted) (f : Event → Event) : Kept l (l.modify e f) := by
  rw [modify, access_of_live hlive]
  exact hs.kept hlive rfl rfl (fun _ _ h => h) fun _ _ => rfl

theorem execute_kept (hs : l.Sound) (hlive : e ∉ l.deleted) : Kept l (l.execute e) := by
  rw [execute, access_of_live hlive]
  exact hs.kept hlive rfl rfl (fun _ _ h => h) fun _ _ => rfl

theorem removeEvent_kept (hs : l.Sound) (hlive : e ∉ l.deleted) : Kept l (l.removeEvent e) := by
  rw [removeEvent, access_of_live hlive]
  refine hs.kept hlive rfl rfl (fun _ _ h => (mem_pollRemove.mp h).2) fun d hd => ?_
  exact map_eraseDeadline.trans (if_neg hd)

theorem removeEvent_unlinked (l : EventLoop Q) (e : Nat) :
    e ∉ (l.removeEvent e).registered ∧ (l.removeEvent e).deadlineHeap.map e = none :=
  ⟨fun hmem => (mem_pollRemove.mp hmem).1 rfl, map_eraseDeadline.trans (if_pos rfl)⟩

theorem restartEvent_kept (hs : l.Sound) (hlive : e ∉ l.deleted) (now : Nat) : Kept l (l.restartEvent e now) := by
  simp only [restartEvent, modify, access_of_live (show e ∉ (l.eraseDeadline e).deleted from hlive)]
  refine hs.kept hlive rfl rfl (fun _ _ h => h) fun d hd => ?_
  rw [map_pushDeadline rfl, if_neg hd]
  exact map_eraseDeadline.trans (if_neg hd)

theorem dispatchEvent_kept (hs : l.Sound) (hlive : e ∉ l.deleted) : Kept l (l.dispatchEvent e) := by
  have hlink : ∀ t : Timeout Nat, t.data = some e → Kept l ((l.pushDeadline t).pollAdd e) := by
    intro t ht
    refine hs.kept hlive rfl rfl (fun d hd hmem => (mem_pollAdd.mp hmem).resolve_left hd) fun d hd => ?_
    exact (map_pushDeadline ht).trans (if_neg hd)
  simp only [dispatchEvent, access_of_live hlive]
  cases (l.events e).type with
  | listen => exact hs.kept hlive rfl rfl (fun d hd hmem => (mem_pollAdd.mp hmem).resolve_left hd) fun _ _ => rfl
  | next =>
    simp only [addReadEvent]
    exact hlink _ (by split_ifs <;> rfl)
  | toread =>
    simp only [addReadEvent]
    exact hlink _ (by split_ifs <;> rfl)
  | connect => exact hlink _ rfl
  | towrite => exact hlink _ rfl
  | _ => exact hs.kept hlive rfl rfl (fun _ _ h => h) fun _ _ => rfl

theorem delete_clean (hs : l.Sound) (hlive : e ∉ l.deleted) (hreg : e ∉ l.registered)
    (hmap : l.deadlineHeap.map e = none) : Clean l (l.delete e) := by
  rw [EventLoop.delete, access_of_live hlive]
  refine ⟨rfl, List.nodup_cons.mpr ⟨hlive, hs.nodup⟩, fun d hd => ?_⟩
  rcases List.mem_cons.mp hd with rfl | hd
  · exact ⟨hreg, hmap⟩
  · exact hs.unlinked d hd

/-! ### The handler -/

theorem closePeer_clean (hs : l.Sound) (hlive : e ∉ l.deleted) : Clean l (l.closePeer e) := by
  have hremove := removeEvent_kept hs hlive
  have hlive' := hremove.live hlive
  simp only [closePeer, access_of_live hlive']
  split_ifs
  · have htype := modify_kept hremove.sound hlive' fun ev => ev.setType .fail
    exact (hremove.trans htype).clean_trans (execute_kept htype.sound (htype.live hlive')).toClean
  · obtain ⟨hreg, hmap⟩ := removeEvent_unlinked l e
    exact hremove.clean_trans (delete_clean hremove.sound hlive' hreg hmap)

theorem fail_clean (hs : l.Sound) (hlive : e ∉ l.deleted) (type : EventType) :
    Clean l (((l.setType e type).access e).closePeer e) := by
  have htype := modify_kept hs hlive fun ev => ev.setType type
  have hlive' := htype.live hlive
  rw [access_of_live (l := l.setType e type) hlive']
  exact htype.clean_trans (closePeer_clean htype.sound hlive')

/-- The response to a forwarded request of a client is complete in time. -/
def Forwarded (ev : Event) (now : Nat) : Prop :=
  ev.role = .client ∧ ev.forward = true ∧ ev.isReadTimeout now = false

theorem removeEvent_events : (l.removeEvent e).events = l.events := by
  simp [removeEvent, eraseDeadline, pollRemove]

theorem complete_clean (hs : l.Sound) (hlive : e ∉ l.deleted) {o : Answers}
    (hf : (l.events e).type = .readed → ¬ ((l.events e).role = .client ∧ (l.events e).forward = true)) :
    Clean l (l.complete e o) := by
  have hremove := removeEvent_kept hs hlive
  have hlive' := hremove.live hlive
  simp only [complete, access_of_live hlive', removeEvent_events]
  cases htype : (l.events e).type with
  | readed =>
    simp only [if_neg (hf htype)]
    exact hremove.clean_trans (execute_kept hremove.sound hlive').toClean
  | writed =>
    simp only
    split_ifs
    · have hreset := modify_kept hremove.sound hlive' fun ev => ev.reset o.reset
      have hnext := modify_kept hreset.sound (hreset.live hlive') fun ev => ev.setType .next
      have hboth := hremove.trans (hreset.trans hnext)
      exact hboth.clean_trans (dispatchEvent_kept hboth.sound (hboth.live hlive)).toClean
    · have htoread := hremove.trans (modify_kept hremove.sound hlive' fun ev => ev.setType .toread)
      exact htoread.clean_trans (dispatchEvent_kept htoread.sound (htoread.live hlive)).toClean
  | _ => exact hremove.toClean

theorem onComplete_clean (hs : l.Sound) (hlive : e ∉ l.deleted) {o : Answers}
    (hf : (l.events e).type = .readed → ¬ Forwarded (l.events e) o.now) : Clean l (l.onComplete e o) := by
  simp only [onComplete, access_of_live hlive]
  split_ifs with hread hwrite
  · exact fail_clean hs hlive .timeout
  · exact fail_clean hs hlive .timeout
  · refine complete_clean hs hlive fun htype => ?_
    rintro ⟨hrole, hforward⟩
    refine hf htype ⟨hrole, hforward, ?_⟩
    simpa [htype] using hread

theorem onComplete_misused (hlive : e ∉ l.deleted) {o : Answers} (htype : (l.events e).type = .readed)
    (hf : Forwarded (l.events e) o.now) : (l.onComplete e o).misused = l.misused ++ [e] := by
  obtain ⟨hrole, hforward, hread⟩ := hf
  have hlive' : e ∉ (l.removeEvent e).deleted := by simpa [removeEvent, eraseDeadline, pollRemove] using hlive
  have hmis : (l.removeEvent e).misused = l.misused := by
    rw [removeEvent, access_of_live hlive]
    rfl
  simp only [onComplete, complete, access_of_live hlive, access_of_live hlive', removeEvent_events, htype, hread, hrole,
    hforward, EventLoop.delete, execute]
  simp [access, hmis]

/-! ### The calls of the loop -/

/-- The two ways in which the loop calls the handler. -/
inductive Call
  /-- `EventHandler::handle`, for an event that the poll reported. -/
  | handle (o : Answers)
  /-- `EventHandler::onTimeout`, from `checkTimeoutEvent`. -/
  | timeout
  deriving DecidableEq, Repr

def call (l : EventLoop Q) (e : Nat) : Call → EventLoop Q
  | .handle o => l.handle e o
  | .timeout => l.expire e

/-- The start of the time that the read is measured from: a new request restarts the event. -/
def readStart (ev : Event) (o : Answers) : Event := if ev.type = .next then ev.restart o.restart else ev

/-- The call completes the response to a forwarded request of a client. -/
def CompletesForwarded (ev : Event) : Call → Prop
  | .handle o => (ev.type = .next ∨ ev.type = .toread ∨ ev.type = .reading) ∧ o.read = .complete ∧
      Forwarded (readStart ev o) o.now
  | .timeout => False

theorem onRead_clean (hs : l.Sound) (hlive : e ∉ l.deleted) {o : Answers}
    (hf : o.read = .complete → ¬ Forwarded (l.events e) o.now) : Clean l (l.onRead e o) := by
  have hreading := modify_kept hs hlive fun ev => ev.setType .reading
  have hlive' := hreading.live hlive
  simp only [onRead]
  cases hr : o.read with
  | error => exact hreading.clean_trans (fail_clean hreading.sound hlive' .error)
  | timeout => exact hreading.clean_trans (fail_clean hreading.sound hlive' .timeout)
  | complete =>
    have hreaded := hreading.trans (modify_kept hreading.sound hlive' fun ev => ev.setType .readed)
    refine hreaded.clean_trans (onComplete_clean hreaded.sound (hreaded.live hlive) fun _ => ?_)
    simpa [modify, Event.setType, Forwarded, Event.isReadTimeout, Event.cost] using hf hr
  | again => exact hreading.toClean
  | closed => exact hreading.clean_trans (closePeer_clean hreading.sound hlive')

theorem onRead_misused (hlive : e ∉ l.deleted) {o : Answers} (hr : o.read = .complete)
    (hf : Forwarded (l.events e) o.now) : (l.onRead e o).misused = l.misused ++ [e] := by
  have hmis : ∀ {l : EventLoop Q} {t : EventType}, e ∉ l.deleted →
      (l.setType e t).misused = l.misused ∧ e ∉ (l.setType e t).deleted := by
    intro l t h
    rw [setType, modify, access_of_live h]
    exact ⟨rfl, h⟩
  obtain ⟨hmis₁, hlive₁⟩ := hmis (t := .reading) hlive
  obtain ⟨hmis₂, hlive₂⟩ := hmis (t := .readed) hlive₁
  simp only [onRead, hr]
  rw [onComplete_misused hlive₂ (by simp [setType, modify, Event.setType]), hmis₂, hmis₁]
  simpa [setType, modify, Event.setType, Forwarded, Event.isReadTimeout, Event.cost] using hf

theorem onWrite_clean (hs : l.Sound) (hlive : e ∉ l.deleted) (o : Answers) : Clean l (l.onWrite e o) := by
  have hwriting := modify_kept hs hlive fun ev => ev.setType .writing
  have hlive' := hwriting.live hlive
  simp only [onWrite]
  cases o.write with
  | error => exact hwriting.clean_trans (fail_clean hwriting.sound hlive' .error)
  | timeout => exact hwriting.clean_trans (fail_clean hwriting.sound hlive' .timeout)
  | complete =>
    have hwrited := hwriting.trans (modify_kept hwriting.sound hlive' fun ev => ev.setType .writed)
    refine hwrited.clean_trans (onComplete_clean hwrited.sound (hwrited.live hlive) fun htype => ?_)
    simp [modify, Event.setType] at htype
  | again => exact hwriting.toClean
  | closed => exact hwriting.toClean

theorem onConnect_clean (hs : l.Sound) (hlive : e ∉ l.deleted) (o : Answers) : Clean l (l.onConnect e o) := by
  unfold onConnect
  split_ifs
  · exact fail_clean hs hlive .timeout
  · exact fail_clean hs hlive .error
  · exact (modify_kept hs hlive _).toClean

theorem allocate_clean (hs : l.Sound) (a : Nat) (ev : Event) : Clean l (l.allocate a ev) :=
  ⟨rfl, hs.nodup.filter _, fun d hd => hs.unlinked d (List.mem_of_mem_filter hd)⟩

theorem onListen_clean (hs : l.Sound) (o : Answers) : Clean l (l.onListen e o) := by
  simp only [onListen]
  cases o.accepted with
  | none => exact ⟨rfl, hs⟩
  | some a =>
    have hnew := allocate_clean hs a (acceptedEvent (l.events e) o.reset)
    have hlive : a ∉ (l.allocate a (acceptedEvent (l.events e) o.reset)).deleted := by simp [allocate]
    simp only
    split_ifs
    · obtain ⟨hm, hsound⟩ := fail_clean hnew.sound hlive .timeout
      exact ⟨hm.trans hnew.misused_eq, hsound⟩
    · have htype := modify_kept hnew.sound hlive fun ev => ev.setType .next
      obtain ⟨hm, hsound⟩ := htype.clean_trans (dispatchEvent_kept htype.sound (htype.live hlive)).toClean
      exact ⟨hm.trans hnew.misused_eq, hsound⟩

theorem call_clean (hs : l.Sound) (hlive : e ∉ l.deleted) {c : Call} (hf : ¬ CompletesForwarded (l.events e) c) :
    Clean l (l.call e c) := by
  cases c with
  | timeout => exact fail_clean hs hlive .timeout
  | handle o =>
    simp only [CompletesForwarded, not_and] at hf
    simp only [call, handle, access_of_live hlive]
    cases htype : (l.events e).type with
    | listen => exact onListen_clean hs o
    | connect => exact onConnect_clean hs hlive o
    | next =>
      have hrestart := restartEvent_kept hs hlive o.restart
      refine hrestart.clean_trans (onRead_clean hrestart.sound (hrestart.live hlive) fun hr => ?_)
      have := hf (Or.inl htype) hr
      simpa [readStart, htype, restartEvent, modify, pushDeadline, eraseDeadline] using this
    | toread =>
      refine onRead_clean hs hlive fun hr => ?_
      simpa [readStart, htype] using hf (Or.inr (Or.inl htype)) hr
    | reading =>
      refine onRead_clean hs hlive fun hr => ?_
      simpa [readStart, htype] using hf (Or.inr (Or.inr htype)) hr
    | towrite => exact onWrite_clean hs hlive o
    | writing => exact onWrite_clean hs hlive o
    | timeout =>
      simp only [onTimeout, access_of_live hlive]
      exact closePeer_clean hs hlive
    | _ => exact closePeer_clean hs hlive

theorem call_misused (hlive : e ∉ l.deleted) {c : Call} (hf : CompletesForwarded (l.events e) c) :
    (l.call e c).misused = l.misused ++ [e] := by
  cases c with
  | timeout => exact hf.elim
  | handle o =>
    obtain ⟨htype, hr, hforwarded⟩ := hf
    simp only [call, handle, access_of_live hlive]
    rcases htype with htype | htype | htype
    · have hlive' : e ∉ (l.restartEvent e o.restart).deleted := by
        simpa [restartEvent, modify, pushDeadline, eraseDeadline] using hlive
      have hmis : (l.restartEvent e o.restart).misused = l.misused := by
        simp only [restartEvent, modify, access_of_live (show e ∉ (l.eraseDeadline e).deleted from hlive)]
        rfl
      simp only [htype]
      rw [onRead_misused hlive' hr, hmis]
      simpa [readStart, htype, restartEvent, modify, pushDeadline, eraseDeadline] using hforwarded
    · simp only [htype]
      refine onRead_misused hlive hr ?_
      simpa [readStart, htype] using hforwarded
    · simp only [htype]
      refine onRead_misused hlive hr ?_
      simpa [readStart, htype] using hforwarded

/-- **A call of the handler does nothing to a deleted event, exactly when it does not complete the
response to a forwarded request of a client.** It deletes no event twice, and deleted events are
neither registered nor have a live deadline. -/
theorem call_clean_iff (hs : l.Sound) (hlive : e ∉ l.deleted) (c : Call) :
    Clean l (l.call e c) ↔ ¬ CompletesForwarded (l.events e) c := by
  refine ⟨fun hc hf => ?_, call_clean hs hlive⟩
  have hmis := hc.misused_eq
  rw [call_misused hlive hf] at hmis
  simp at hmis

/-- A loop with one event, of a client, that is being read. -/
def readingLoop (forward : Bool) : EventLoop (Lib.SortedQueue (Timeout.deadline (K := Nat))) :=
  { events := fun _ => { type := .reading, role := .client, forward, executor := some 0 }
    registered := [1]
    deadlineHeap := TimedHeap.empty.push ⟨some 1, 10, false⟩ }

theorem readingLoop_sound (forward : Bool) : (readingLoop forward).Sound := ⟨List.nodup_nil, nofun⟩

/-- The read is complete and no time has passed. -/
def completeAnswers : Answers :=
  { now := 0, restart := 0, reset := 0, accepted := none, connectError := false, read := .complete, write := .again }

theorem call_clean_reading : Clean (readingLoop false) ((readingLoop false).call 1 (.handle completeAnswers)) :=
  (call_clean_iff (readingLoop_sound false) (by decide) _).mpr (by
    rintro ⟨-, -, -, h, -⟩
    cases h)

/-- The response to a forwarded request: the event is deleted and then passed to `Actor::execute`. -/
theorem call_misused_forwarded :
    (readingLoop true).Sound ∧ 1 ∉ (readingLoop true).deleted ∧
      ((readingLoop true).call 1 (.handle completeAnswers)).deleted = [1] ∧
      ((readingLoop true).call 1 (.handle completeAnswers)).executed = [1] ∧
      ((readingLoop true).call 1 (.handle completeAnswers)).misused = [1] ∧
      ¬ Clean (readingLoop true) ((readingLoop true).call 1 (.handle completeAnswers)) := by
  refine ⟨readingLoop_sound true, by decide, by decide, by decide, by decide, fun h => ?_⟩
  exact absurd h.misused_eq (by decide)

end Raster.EventLoop
