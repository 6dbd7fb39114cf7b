import Raster.Event.Deletion
import Raster.Lib.Machine

/-!
# Registered events and their deadlines

The loop of `EventLoop::loopBody` as a sequence of small steps: it takes over the events that other
threads have added and dispatches them, checks for timeouts, polls, and calls the handler for each
event of the report. Other threads may add events and change events that are not registered at any
moment in between.

An event is registered with the poll exactly as long as it has a live deadline, apart from listening
events, which have none. `Step` says that an operation concerns one event: nothing else is registered,
removed, changed or gets a deadline. So each operation only has to keep the agreement for its event.
-/

set_option linter.unusedSectionVars false

namespace Raster

namespace EventLoop

open Lib (MinQueue)
open Lib.MinQueue (contents)

variable {Q : Type} [MinQueue Q (Timeout Nat) Timeout.deadline] {l l' l'' : EventLoop Q} {e : Nat}

/-- The types of the events that are waiting for the poll. -/
def waiting : List EventType := [.connect, .next, .toread, .reading, .towrite, .writing]

/-- The event is registered exactly if it has a live deadline, or is a listening one. -/
structure Agrees (l : EventLoop Q) (e : Nat) : Prop where
  registered : e ∈ l.registered → (l.events e).type = .listen ∧ l.deadlineHeap.map e = none ∨
    (l.deadlineHeap.map e).isSome ∧ (l.events e).type ∈ waiting
  live : (l.deadlineHeap.map e).isSome → e ∈ l.registered

/-- What every operation keeps. The deadline of an idle connection is never 0, which is the deadline
that `get_default` returns for an absent key. -/
structure Regular (l : EventLoop Q) : Prop where
  heap : l.deadlineHeap.Inv
  repeats : ∀ t ∈ contents l.deadlineHeap.heap, t.repeats = true → 0 < t.deadline
  clock : ∀ e, (l.events e).starttime + Event.ltimeout < 2 ^ 64
  nodup : l.registered.Nodup

/-- The operation concerned the event `e` only. -/
structure Step (e : Nat) (l l' : EventLoop Q) : Prop where
  events_eq : ∀ x, x ≠ e → l'.events x = l.events x
  registered_iff : ∀ x, x ≠ e → (x ∈ l'.registered ↔ x ∈ l.registered)
  map_eq : ∀ x, x ≠ e → l'.deadlineHeap.map x = l.deadlineHeap.map x
  regular : l.Regular → l'.Regular

theorem Step.trans (h : Step e l l') (h' : Step e l' l'') : Step e l l'' :=
  ⟨fun x hx => (h'.events_eq x hx).trans (h.events_eq x hx),
    fun x hx => (h'.registered_iff x hx).trans (h.registered_iff x hx),
    fun x hx => (h'.map_eq x hx).trans (h.map_eq x hx), fun hr => h'.regular (h.regular hr)⟩

theorem Step.agrees (h : Step e l l') (hall : ∀ x, l.Agrees x) (he : l'.Agrees e) (x : Nat) : l'.Agrees x := by
  by_cases hx : x = e
  · exact hx ▸ he
  · obtain ⟨hreg, hlive⟩ := hall x
    refine ⟨fun hmem => ?_, fun hsome => ?_⟩
    · rw [h.events_eq x hx, h.map_eq x hx]
      exact hreg ((h.registered_iff x hx).mp hmem)
    · rw [h.map_eq x hx] at hsome
      exact (h.registered_iff x hx).mpr (hlive hsome)

/-! ### The operations on one event -/

theorem Step.of_eq (hev : l'.events = l.events) (hreg : l'.registered = l.registered)
    (hheap : l'.deadlineHeap = l.deadlineHeap) : Step e l l' := by
  refine ⟨fun x _ => by rw [hev], fun x _ => by rw [hreg], fun x _ => by rw [hheap], fun hr => ?_⟩
  exact ⟨hheap ▸ hr.heap, hheap ▸ hr.repeats, hev ▸ hr.clock, hreg ▸ hr.nodup⟩

theorem step_access : Step e l (l.access e) := Step.of_eq access_events access_registered access_deadlineHeap

theorem step_modify {f : Event → Event} (hf : (l.events e).starttime + Event.ltimeout < 2 ^ 64 →
    (f (l.events e)).starttime + Event.ltimeout < 2 ^ 64) : Step e l (l.modify e f) := by
  refine ⟨fun x hx => Events.modify_of_ne _ hx f, fun x _ => by simp [modify], fun x _ => by simp [modify],
    fun hr => ⟨by simpa [modify] using hr.heap, by simpa [modify] using hr.repeats, fun x => ?_,
      by simpa [modify] using hr.nodup⟩⟩
  by_cases hx : x = e
  · subst hx
    simpa [modify] using hf (hr.clock x)
  · simpa [modify, Events.modify_of_ne l.events hx f] using hr.clock x

theorem step_setType (type : EventType) : Step e l (l.setType e type) := step_modify id

theorem step_execute : Step e l (l.execute e) :=
  step_access.trans (Step.of_eq rfl rfl rfl)

theorem step_delete : Step e l (l.delete e) :=
  step_access.trans (Step.of_eq rfl rfl rfl)

theorem step_pollAdd : Step e l (l.pollAdd e) := by
  refine ⟨fun _ _ => rfl, fun x hx => ?_, fun _ _ => rfl, fun hr => ⟨hr.heap, hr.repeats, hr.clock, ?_⟩⟩
  · rw [mem_pollAdd]
    exact or_iff_right hx
  · simp only [pollAdd]
    split_ifs with hmem
    · exact hr.nodup
    · rw [← List.concat_eq_append]
      exact List.Nodup.concat hmem hr.nodup

theorem step_pollRemove : Step e l (l.pollRemove e) := by
  refine ⟨fun _ _ => rfl, fun x hx => ?_, fun _ _ => rfl, fun hr => ⟨hr.heap, hr.repeats, hr.clock, ?_⟩⟩
  · rw [mem_pollRemove]
    exact and_iff_right hx
  · exact hr.nodup.filter _

theorem step_eraseDeadline : Step e l (l.eraseDeadline e) := by
  refine ⟨fun _ _ => rfl, fun _ _ => Iff.rfl, fun x hx => map_eraseDeadline.trans (if_neg hx), fun hr => ?_⟩
  exact ⟨hr.heap.erase _, hr.repeats, hr.clock, hr.nodup⟩

theorem step_pushDeadline {t : Timeout Nat} (ht : t.data = some e) (hpos : l.Regular → t.repeats = true → 0 < t.deadline) :
    Step e l (l.pushDeadline t) := by
  refine ⟨fun _ _ => rfl, fun _ _ => Iff.rfl, fun x hx => (map_pushDeadline ht).trans (if_neg hx), fun hr => ?_⟩
  refine ⟨hr.heap.push _, fun t' ht' hrep => ?_, hr.clock, hr.nodup⟩
  simp only [pushDeadline, TimedHeap.push, ht] at ht'
  rcases MinQueue.mem_push.mp ht' with rfl | ht'
  · exact hpos hr hrep
  · exact hr.repeats t' ht' hrep

theorem step_removeEvent : Step e l (l.removeEvent e) :=
  step_access.trans (step_eraseDeadline.trans step_pollRemove)

theorem edeadline_pos {ev : Event} (h : ev.starttime + Event.ltimeout < 2 ^ 64) : 0 < ev.edeadline := by
  unfold Event.edeadline
  rw [Nat.mod_eq_of_lt h, Event.ltimeout]
  omega

theorem step_dispatchEvent : Step e l (l.dispatchEvent e) := by
  refine step_access.trans ?_
  have hread : Step e (l.access e) ((l.access e).addReadEvent e) := by
    refine (step_pushDeadline (by split_ifs <;> rfl) fun hr hrep => ?_).trans step_pollAdd
    split_ifs at hrep ⊢
    exact edeadline_pos (hr.clock e)
  have hwrite : Step e (l.access e) ((l.access e).addWriteEvent e) :=
    (step_pushDeadline rfl fun _ hrep => by cases hrep).trans step_pollAdd
  simp only [dispatchEvent]
  cases ((l.access e).events e).type with
  | listen => exact step_pollAdd
  | next => exact hread
  | toread => exact hread
  | connect => exact hwrite
  | towrite => exact hwrite
  | _ => exact Step.of_eq rfl rfl rfl

theorem agrees_dispatchEvent (htype : (l.events e).type = .next ∨ (l.events e).type = .toread ∨
    (l.events e).type = .connect ∨ (l.events e).type = .towrite) : (l.dispatchEvent e).Agrees e := by
  have hlink : ∀ t : Timeout Nat, t.data = some e → (l.events e).type ∈ waiting →
      (((l.access e).pushDeadline t).pollAdd e).Agrees e := by
    intro t ht hwait
    have hmap : ((((l.access e).pushDeadline t).pollAdd e).deadlineHeap.map e).isSome := by
      have : (((l.access e).pushDeadline t).pollAdd e).deadlineHeap.map e = some t :=
        (map_pushDeadline ht).trans (if_pos rfl)
      rw [this]
      rfl
    refine ⟨fun _ => Or.inr ⟨hmap, ?_⟩, fun _ => mem_pollAdd.mpr (Or.inl rfl)⟩
    simpa [pushDeadline, pollAdd] using hwait
  rcases htype with htype | htype | htype | htype <;>
    simp only [dispatchEvent, access_events, htype, addReadEvent, addWriteEvent]
  · exact hlink _ rfl (by rw [htype]; decide)
  · exact hlink _ rfl (by rw [htype]; decide)
  · exact hlink _ rfl (by rw [htype]; decide)
  · exact hlink _ rfl (by rw [htype]; decide)

theorem agrees_listen (hmap : l.deadlineHeap.map e = none) : ((l.setType e .listen).dispatchEvent e).Agrees e := by
  simp only [dispatchEvent, access_events, setType, modify, Events.modify_same, Event.setType, addListenEvent]
  refine ⟨fun _ => Or.inl ⟨?_, ?_⟩, fun _ => mem_pollAdd.mpr (Or.inl rfl)⟩
  · simp [pollAdd]
  · simpa [pollAdd] using hmap

theorem Agrees.dispatchEvent (h : l.Agrees e) : (l.dispatchEvent e).Agrees e := by
  cases htype : (l.events e).type with
  | next => exact agrees_dispatchEvent (Or.inl htype)
  | toread => exact agrees_dispatchEvent (Or.inr (Or.inl htype))
  | connect => exact agrees_dispatchEvent (Or.inr (Or.inr (Or.inl htype)))
  | towrite => exact agrees_dispatchEvent (Or.inr (Or.inr (Or.inr htype)))
  | listen =>
    have hmap : l.deadlineHeap.map e = none := by
      rw [← Option.not_isSome_iff_eq_none]
      intro hsome
      rcases h.registered (h.live hsome) with ⟨-, hnone⟩ | ⟨-, hwait⟩
      · simp [hnone] at hsome
      · rw [htype] at hwait
        exact absurd hwait (by decide)
    simp only [EventLoop.dispatchEvent, access_events, htype, addListenEvent]
    refine ⟨fun _ => Or.inl ⟨?_, ?_⟩, fun _ => mem_pollAdd.mpr (Or.inl rfl)⟩
    · simpa [pollAdd] using htype
    · simpa [pollAdd] using hmap
  | _ =>
    simp only [EventLoop.dispatchEvent, access_events, htype]
    exact ⟨by simpa using h.registered, by simpa using h.live⟩

theorem Agrees.of_unlinked (hreg : e ∉ l.registered) (hmap : l.deadlineHeap.map e = none) : l.Agrees e :=
  ⟨fun hmem => absurd hmem hreg, fun hsome => by simp [hmap] at hsome⟩

theorem step_closePeer : Step e l (l.closePeer e) ∧ (l.closePeer e).Agrees e := by
  have hremove : Step e l ((l.removeEvent e).access e) := step_removeEvent.trans step_access
  obtain ⟨hreg, hmap⟩ := removeEvent_unlinked l e
  simp only [closePeer]
  split_ifs
  · refine ⟨hremove.trans ((step_setType _).trans step_execute), Agrees.of_unlinked ?_ ?_⟩
    · simpa [execute, setType, modify] using hreg
    · simpa [execute, setType, modify] using hmap
  · refine ⟨hremove.trans step_delete, Agrees.of_unlinked ?_ ?_⟩
    · simpa [EventLoop.delete] using hreg
    · simpa [EventLoop.delete] using hmap

theorem step_fail (type : EventType) : Step e l (((l.setType e type).access e).closePeer e) ∧
    (((l.setType e type).access e).closePeer e).Agrees e := by
  have h := step_closePeer (l := (l.setType e type).access e) (e := e)
  exact ⟨(step_setType type).trans (step_access.trans h.1), h.2⟩

/-! ### The handler -/

theorem step_complete {o : Answers} (hreset : o.reset + Event.ltimeout < 2 ^ 64) (l : EventLoop Q) (e : Nat)
    (htype : (l.events e).type = .readed ∨ (l.events e).type = .writed) :
    Step e l (l.complete e o) ∧ (l.complete e o).Agrees e := by
  have hremove : Step e l ((l.removeEvent e).access e) := step_removeEvent.trans step_access
  obtain ⟨hreg, hmap⟩ := removeEvent_unlinked l e
  rcases htype with htype | htype
  · simp only [complete, access_events, removeEvent_events, htype]
    split_ifs
    · refine ⟨hremove.trans (step_delete.trans step_execute), Agrees.of_unlinked ?_ ?_⟩
      · simpa [execute, EventLoop.delete] using hreg
      · simpa [execute, EventLoop.delete] using hmap
    · refine ⟨hremove.trans step_execute, Agrees.of_unlinked ?_ ?_⟩
      · simpa [execute] using hreg
      · simpa [execute] using hmap
  · simp only [complete, access_events, removeEvent_events, htype]
    split_ifs
    · have hmodify : Step e ((l.removeEvent e).access e) (((l.removeEvent e).access e).modify e fun ev => ev.reset o.reset) :=
        step_modify fun _ => hreset
      refine ⟨hremove.trans (hmodify.trans ((step_setType .next).trans step_dispatchEvent)),
        agrees_dispatchEvent (Or.inl ?_)⟩
      simp [setType, modify, Event.setType]
    · refine ⟨hremove.trans ((step_setType .toread).trans step_dispatchEvent), agrees_dispatchEvent (Or.inr (Or.inl ?_))⟩
      simp [setType, modify, Event.setType]

theorem step_onComplete {o : Answers} (hreset : o.reset + Event.ltimeout < 2 ^ 64) (l : EventLoop Q) (e : Nat)
    (htype : (l.events e).type = .readed ∨ (l.events e).type = .writed) :
    Step e l (l.onComplete e o) ∧ (l.onComplete e o).Agrees e := by
  have hacc : Step e l (l.access e) := step_access
  simp only [onComplete]
  split_ifs
  · exact ⟨hacc.trans (step_fail .timeout).1, (step_fail .timeout).2⟩
  · exact ⟨hacc.trans (step_fail .timeout).1, (step_fail .timeout).2⟩
  · have h := step_complete hreset (l.access e) e (by simpa using htype)
    exact ⟨hacc.trans h.1, h.2⟩

theorem agrees_setType {type : EventType} (hreg : e ∈ l.registered) (hmap : (l.deadlineHeap.map e).isSome)
    (htype : type ∈ waiting) : (l.setType e type).Agrees e := by
  refine ⟨fun _ => Or.inr ⟨by simpa [setType, modify] using hmap, ?_⟩, fun _ => by simpa [setType, modify] using hreg⟩
  simpa [setType, modify, Event.setType] using htype

theorem step_onRead {o : Answers} (hreset : o.reset + Event.ltimeout < 2 ^ 64) (hreg : e ∈ l.registered)
    (hmap : (l.deadlineHeap.map e).isSome) : Step e l (l.onRead e o) ∧ (l.onRead e o).Agrees e := by
  have hreading : Step e l (l.setType e .reading) := step_setType .reading
  simp only [onRead]
  cases o.read with
  | error => exact ⟨hreading.trans (step_fail .error).1, (step_fail .error).2⟩
  | timeout => exact ⟨hreading.trans (step_fail .timeout).1, (step_fail .timeout).2⟩
  | complete =>
    have h := step_onComplete hreset ((l.setType e .reading).setType e .readed) e
      (Or.inl (by simp [setType, modify, Event.setType]))
    exact ⟨hreading.trans ((step_setType .readed).trans h.1), h.2⟩
  | again => exact ⟨hreading, agrees_setType hreg hmap (by decide)⟩
  | closed => exact ⟨hreading.trans step_closePeer.1, step_closePeer.2⟩

theorem step_onWrite {o : Answers} (hreset : o.reset + Event.ltimeout < 2 ^ 64) (hreg : e ∈ l.registered)
    (hmap : (l.deadlineHeap.map e).isSome) : Step e l (l.onWrite e o) ∧ (l.onWrite e o).Agrees e := by
  have hwriting : Step e l (l.setType e .writing) := step_setType .writing
  have hagrees : (l.setType e .writing).Agrees e := agrees_setType hreg hmap (by decide)
  simp only [onWrite]
  cases o.write with
  | error => exact ⟨hwriting.trans (step_fail .error).1, (step_fail .error).2⟩
  | timeout => exact ⟨hwriting.trans (step_fail .timeout).1, (step_fail .timeout).2⟩
  | complete =>
    have h := step_onComplete hreset ((l.setType e .writing).setType e .writed) e
      (Or.inr (by simp [setType, modify, Event.setType]))
    exact ⟨hwriting.trans ((step_setType .writed).trans h.1), h.2⟩
  | again => exact ⟨hwriting, hagrees⟩
  | closed => exact ⟨hwriting, hagrees⟩

theorem step_onConnect {o : Answers} (hreg : e ∈ l.registered) (hmap : (l.deadlineHeap.map e).isSome) :
    Step e l (l.onConnect e o) ∧ (l.onConnect e o).Agrees e := by
  unfold onConnect
  split_ifs
  · exact step_fail .timeout
  · exact step_fail .error
  · exact ⟨step_setType .towrite, agrees_setType hreg hmap (by decide)⟩

theorem step_allocate {ev : Event} (hclock : ev.starttime + Event.ltimeout < 2 ^ 64) : Step e l (l.allocate e ev) := by
  refine ⟨fun x hx => Function.update_of_ne hx .., fun _ _ => Iff.rfl, fun _ _ => rfl, fun hr => ?_⟩
  refine ⟨hr.heap, hr.repeats, fun x => ?_, hr.nodup⟩
  by_cases hx : x = e
  · subst hx
    simpa [allocate] using hclock
  · simpa [allocate, Function.update_of_ne hx] using hr.clock x

theorem step_onListen {o : Answers} (hreset : o.reset + Event.ltimeout < 2 ^ 64) {a : Nat} (ha : o.accepted = some a) :
    Step a l (l.onListen e o) ∧ (l.onListen e o).Agrees a := by
  have hnew : Step a l (l.allocate a (acceptedEvent (l.events e) o.reset)) := step_allocate hreset
  simp only [onListen, ha]
  split_ifs
  · exact ⟨hnew.trans (step_fail .timeout).1, (step_fail .timeout).2⟩
  · refine ⟨hnew.trans ((step_setType .next).trans step_dispatchEvent), agrees_dispatchEvent (Or.inl ?_)⟩
    simp [setType, modify, Event.setType]

theorem step_restartEvent {now : Nat} (hnow : now + Event.ltimeout < 2 ^ 64) : Step e l (l.restartEvent e now) :=
  step_eraseDeadline.trans ((step_modify fun _ => hnow).trans (step_pushDeadline rfl fun _ hrep => by cases hrep))

theorem step_handle {o : Answers} (hrestart : o.restart + Event.ltimeout < 2 ^ 64)
    (hreset : o.reset + Event.ltimeout < 2 ^ 64) (hreg : e ∈ l.registered) (he : l.Agrees e) :
    ∃ x, (x = e ∨ o.accepted = some x) ∧ Step x l (l.handle e o) ∧
      ((∀ y, l.Agrees y) → (l.handle e o).Agrees x) := by
  have hacc : Step e l (l.access e) := step_access
  rcases he.registered hreg with ⟨htype, -⟩ | ⟨hmap, hwait⟩
  · simp only [handle, access_events, htype]
    cases ha : o.accepted with
    | none =>
      have hsame : (l.access e).onListen e o = l.access e := by simp only [onListen, ha]
      rw [hsame]
      refine ⟨e, Or.inl rfl, hacc, fun hall => ?_⟩
      exact ⟨by simpa using (hall e).registered, by simpa using (hall e).live⟩
    | some a =>
      have h := step_onListen (l := l.access e) (e := e) hreset ha
      have hacc' : Step a l (l.access e) := Step.of_eq access_events access_registered access_deadlineHeap
      exact ⟨a, Or.inr rfl, hacc'.trans h.1, fun _ => h.2⟩
  · refine ⟨e, Or.inl rfl, ?_⟩
    have hreg' : e ∈ (l.access e).registered := by simpa using hreg
    have hmap' : ((l.access e).deadlineHeap.map e).isSome := by simpa using hmap
    have hconnect := step_onConnect (o := o) hreg' hmap'
    have hread := step_onRead hreset hreg' hmap'
    have hwrite := step_onWrite hreset hreg' hmap'
    simp only [waiting, List.mem_cons, List.not_mem_nil, or_false] at hwait
    simp only [handle, access_events]
    rcases hwait with htype | htype | htype | htype | htype | htype <;> simp only [htype]
    · exact ⟨hacc.trans hconnect.1, fun _ => hconnect.2⟩
    · have hr : Step e (l.access e) ((l.access e).restartEvent e o.restart) := step_restartEvent hrestart
      have h := step_onRead (l := (l.access e).restartEvent e o.restart) (e := e) hreset
        (by simpa [restartEvent, modify, pushDeadline, eraseDeadline] using hreg) (by
          rw [restartEvent, map_pushDeadline rfl, if_pos rfl]
          rfl)
      exact ⟨hacc.trans (hr.trans h.1), fun _ => h.2⟩
    · exact ⟨hacc.trans hread.1, fun _ => hread.2⟩
    · exact ⟨hacc.trans hread.1, fun _ => hread.2⟩
    · exact ⟨hacc.trans hwrite.1, fun _ => hwrite.2⟩
    · exact ⟨hacc.trans hwrite.1, fun _ => hwrite.2⟩

/-! ### Timeouts -/

theorem step_checkTimeoutEvent {now : Nat} (hnow : now + Event.ltimeout < 2 ^ 64) (few : Bool) (hl : l.Regular)
    (hall : ∀ x, l.Agrees x) :
    ∃ x, Step x l (l.checkTimeoutEvent now few).1 ∧ (l.checkTimeoutEvent now few).1.Agrees x := by
  have hspec := TimedHeap.pop_spec l.deadlineHeap now hl.heap
  have hinv := hl.heap.pop now
  have hsub := TimedHeap.pop_contents hl.heap now
  revert hspec hinv hsub
  simp only [checkTimeoutEvent]
  generalize l.deadlineHeap.pop now = r
  intro hspec hinv hsub
  have hregular : Regular { l with deadlineHeap := r.2 } :=
    ⟨hinv, fun t ht => hl.repeats t (hsub t ht), hl.clock, hl.nodup⟩
  cases hspec with
  | none h' hmap hnone =>
    -- any event will do: nothing changes but the garbage of the heap
    refine ⟨0, ⟨fun _ _ => rfl, fun _ _ => Iff.rfl, fun x _ => by simp only [hmap], fun _ => hregular⟩, ?_⟩
    obtain ⟨hreg, hlive⟩ := hall 0
    exact ⟨by simpa only [hmap] using hreg, by simpa only [hmap] using hlive⟩
  | some timeout h' k hkey hmem heq hdue hmin hmap =>
    refine ⟨k, ?_⟩
    have hpop : Step k l { l with deadlineHeap := h' } := by
      refine ⟨fun _ _ => rfl, fun _ _ => Iff.rfl, fun x hx => ?_, fun _ => hregular⟩
      simp only [hmap, TimedHeap.eraseKey, Function.update_of_ne hx]
    simp only [hkey]
    split_ifs with hrep
    · -- the deadline is not 0, so the key is live and the event is registered
      have hpos := hl.repeats timeout hmem hrep.1
      obtain ⟨t, ht, -⟩ := Option.map_eq_some_iff.mp (TimedHeap.getDefault_deadline_pos hpos heq)
      have hreg := (hall k).live (by rw [ht]; rfl)
      have hwait : (l.events k).type ∈ waiting := by
        rcases (hall k).registered hreg with ⟨-, hnone⟩ | ⟨-, hwait⟩
        · rw [ht] at hnone
          cases hnone
        · exact hwait
      have hlive := map_pushDeadline (l := { l with deadlineHeap := h' }) (e := k) (d := k)
        (t := ⟨some k, (timeout.deadline + Event.ltimeout) % 2 ^ 64, timeout.repeats⟩) rfl
      rw [if_pos rfl] at hlive
      refine ⟨hpop.trans (step_pushDeadline rfl fun _ _ => ?_),
        ⟨fun _ => Or.inr ⟨Option.isSome_iff_exists.mpr ⟨_, hlive⟩, hwait⟩, fun _ => hreg⟩⟩
      show 0 < (timeout.deadline + Event.ltimeout) % 2 ^ 64
      rw [Nat.mod_eq_of_lt (by omega)]
      omega
    · exact ⟨hpop.trans (step_fail .timeout).1, (step_fail .timeout).2⟩

end EventLoop

/-! ### The loop -/

open EventLoop (Answers Agrees Regular Step)
open Lib (MinQueue)
open Lib.MinQueue (contents)

/-- Where `loopBody` is. -/
inductive LoopPhase
  /-- The events taken from `events_` that are not dispatched yet. -/
  | dispatching (events : List Nat)
  | checking (now : Nat)
  | polling
  /-- The events of the report that are not handled yet. -/
  | handling (ready : List Nat)
  deriving DecidableEq, Repr

structure LoopState (Q : Type) where
  loop : EventLoop Q
  phase : LoopPhase

namespace LoopState

variable {Q : Type} [MinQueue Q (Timeout Nat) Timeout.deadline] {s s' : LoopState Q}

inductive Label
  /-- Another thread calls `addEvent`. -/
  | addEvent (e : Nat)
  /-- Another thread changes, frees or makes an event. -/
  | change (e : Nat) (ev : Event)
  /-- `EventLoop::listen`. -/
  | listen (e : Nat)
  /-- `events.swap(events_)`. -/
  | swap
  | dispatch
  /-- `checkTimeoutEvent` reads the clock. -/
  | check (now : Nat)
  /-- One turn of its loop. -/
  | turn (few : Bool)
  | poll (ready : List Nat)
  | handle (o : Answers)
  deriving DecidableEq, Repr

def step (s : LoopState Q) : Label → Option (LoopState Q)
  | .addEvent e =>
    if (s.loop.events e).type ∈ [.next, .toread, .connect, .towrite] ∧ e ∉ s.loop.registered then
      some { s with loop := { s.loop with pending := s.loop.pending ++ [e] } }
    else none
  | .change e ev =>
    if e ∉ s.loop.registered then some { s with loop := s.loop.allocate e ev } else none
  | .listen e =>
    if e ∉ s.loop.registered then some { s with loop := (s.loop.setType e .listen).dispatchEvent e } else none
  | .swap =>
    if s.phase = .handling [] then
      some { loop := { s.loop with pending := [] }, phase := .dispatching s.loop.pending }
    else none
  | .dispatch =>
    match s.phase with
    | .dispatching (e :: events) => some { loop := s.loop.dispatchEvent e, phase := .dispatching events }
    | _ => none
  | .check now => if s.phase = .dispatching [] then some { s with phase := .checking now } else none
  | .turn few =>
    match s.phase with
    | .checking now =>
      let (loop, more) := s.loop.checkTimeoutEvent now few
      some { loop, phase := if more then .checking now else .polling }
    | _ => none
  | .poll ready =>
    -- the poll reports registered events, each of them once
    if s.phase = .polling ∧ ready.Nodup ∧ ∀ e ∈ ready, e ∈ s.loop.registered then
      some { s with phase := .handling ready }
    else none
  | .handle o =>
    match s.phase with
    | .handling (e :: ready) =>
      -- the allocator returns no event that is in use
      if ∀ a, o.accepted = some a → a ∉ s.loop.registered then
        some { loop := s.loop.handle e o, phase := .handling ready }
      else none
    | _ => none

/-- Before the first iteration. -/
def start : LoopState Q := { loop := { events := fun _ => {}, deadlineHeap := TimedHeap.empty }, phase := .handling [] }

/-- The clock readings of the step are at least `LTIMEOUT` before the end of the 64-bit range. -/
def Label.InRange : Label → Prop
  | .change _ ev => ev.starttime + Event.ltimeout < 2 ^ 64
  | .check now => now + Event.ltimeout < 2 ^ 64
  | .handle o => o.restart + Event.ltimeout < 2 ^ 64 ∧ o.reset + Event.ltimeout < 2 ^ 64
  | _ => True

structure Inv (s : LoopState Q) : Prop where
  regular : s.loop.Regular
  agrees : ∀ e, s.loop.Agrees e
  ready : ∀ ready, s.phase = .handling ready → ready.Nodup ∧ ∀ e ∈ ready, e ∈ s.loop.registered
  now : ∀ now, s.phase = .checking now → now + Event.ltimeout < 2 ^ 64

theorem inv_start : (start : LoopState Q).Inv where
  regular := ⟨TimedHeap.inv_empty, fun t ht => by simp [start, TimedHeap.empty, MinQueue.contents_empty] at ht,
    fun _ => show 0 + Event.ltimeout < 2 ^ 64 by decide, List.nodup_nil⟩
  agrees _ := ⟨fun h => (by cases h), fun h => (by cases h)⟩
  ready ready h := by
    cases h
    exact ⟨List.nodup_nil, List.forall_mem_nil _⟩
  now _ h := by cases h

/-- An operation that concerns one event keeps the invariant, if that event agrees and is not among
those still to be handled. -/
theorem Inv.step {e : Nat} {loop : EventLoop Q} {phase : LoopPhase} (h : s.Inv) (hstep : Step e s.loop loop)
    (he : loop.Agrees e)
    (hready : ∀ ready, phase = .handling ready → ready.Nodup ∧ ∀ x ∈ ready, x ≠ e ∧ x ∈ s.loop.registered)
    (hnow : ∀ now, phase = .checking now → now + Event.ltimeout < 2 ^ 64) : Inv ⟨loop, phase⟩ where
  regular := hstep.regular h.regular
  agrees := hstep.agrees h.agrees he
  ready ready hp := by
    obtain ⟨hnodup, hmem⟩ := hready ready hp
    exact ⟨hnodup, fun x hx => (hstep.registered_iff x (hmem x hx).1).mpr (hmem x hx).2⟩
  now := hnow

theorem Inv.keep {loop : EventLoop Q} {phase : LoopPhase} (h : s.Inv) (hev : loop.events = s.loop.events)
    (hreg : loop.registered = s.loop.registered) (hheap : loop.deadlineHeap = s.loop.deadlineHeap)
    (hready : ∀ ready, phase = .handling ready → ready.Nodup ∧ ∀ x ∈ ready, x ∈ s.loop.registered)
    (hnow : ∀ now, phase = .checking now → now + Event.ltimeout < 2 ^ 64) : Inv ⟨loop, phase⟩ where
  regular := (Step.of_eq (e := 0) hev hreg hheap).regular h.regular
  agrees e := by
    obtain ⟨hr, hl⟩ := h.agrees e
    exact ⟨by rwa [hev, hreg, hheap], by rwa [hreg, hheap]⟩
  ready ready hp := by
    rw [hreg]
    exact hready ready hp
  now := hnow

theorem Inv.ready_ne (h : s.Inv) {e : Nat} (he : e ∉ s.loop.registered) (ready : List Nat)
    (hp : s.phase = .handling ready) : ready.Nodup ∧ ∀ x ∈ ready, x ≠ e ∧ x ∈ s.loop.registered := by
  obtain ⟨hnodup, hmem⟩ := h.ready ready hp
  exact ⟨hnodup, fun x hx => ⟨fun heq => he (heq ▸ hmem x hx), hmem x hx⟩⟩

theorem Inv.map_eq_none (h : s.Inv) {e : Nat} (he : e ∉ s.loop.registered) : s.loop.deadlineHeap.map e = none := by
  rw [← Option.not_isSome_iff_eq_none]
  exact fun hsome => he ((h.agrees e).live hsome)

theorem step_inv (l : Label) (hrange : l.InRange) (h : s.Inv) (hs : s.step l = some s') : s'.Inv := by
  cases l with
  | addEvent e =>
    simp only [LoopState.step] at hs
    split_ifs at hs
    rw [Option.some.injEq] at hs
    subst hs
    exact h.keep rfl rfl rfl h.ready h.now
  | change e ev =>
    simp only [LoopState.step] at hs
    split_ifs at hs with he
    rw [Option.some.injEq] at hs
    subst hs
    exact h.step (EventLoop.step_allocate hrange) (Agrees.of_unlinked he (h.map_eq_none he)) (h.ready_ne he) h.now
  | listen e =>
    simp only [LoopState.step] at hs
    split_ifs at hs with he
    rw [Option.some.injEq] at hs
    subst hs
    refine h.step ((EventLoop.step_setType .listen).trans EventLoop.step_dispatchEvent) ?_ (h.ready_ne he) h.now
    exact EventLoop.agrees_listen (h.map_eq_none he)
  | swap =>
    simp only [LoopState.step] at hs
    split_ifs at hs
    rw [Option.some.injEq] at hs
    subst hs
    exact h.keep rfl rfl rfl (fun _ hp => by cases hp) fun _ hp => by cases hp
  | dispatch =>
    simp only [LoopState.step] at hs
    split at hs
    · rw [Option.some.injEq] at hs
      subst hs
      refine h.step EventLoop.step_dispatchEvent (EventLoop.Agrees.dispatchEvent (h.agrees _)) ?_ ?_
      · intro _ hp
        cases hp
      · intro _ hp
        cases hp
    · cases hs
  | check now =>
    simp only [LoopState.step] at hs
    split_ifs at hs
    rw [Option.some.injEq] at hs
    subst hs
    refine h.keep rfl rfl rfl (fun _ hp => by cases hp) fun now' hp => ?_
    cases hp
    exact hrange
  | turn few =>
    simp only [LoopState.step] at hs
    split at hs
    · rename_i now hphase
      rw [Option.some.injEq] at hs
      subst hs
      obtain ⟨x, hstep, hx⟩ := EventLoop.step_checkTimeoutEvent (h.now now hphase) few h.regular h.agrees
      refine h.step hstep hx ?_ ?_
      · intro _ hp
        split_ifs at hp
      · intro now' hp
        split_ifs at hp
        cases hp
        exact h.now now hphase
    · cases hs
  | poll ready =>
    simp only [LoopState.step] at hs
    split_ifs at hs with hal
    rw [Option.some.injEq] at hs
    subst hs
    refine h.keep rfl rfl rfl (fun ready' hp => ?_) fun _ hp => by cases hp
    cases hp
    exact hal.2
  | handle o =>
    simp only [LoopState.step] at hs
    split at hs
    · rename_i e ready hphase
      split_ifs at hs with hal
      rw [Option.some.injEq] at hs
      subst hs
      obtain ⟨hnodup, hmem⟩ := h.ready _ hphase
      have he := hmem e List.mem_cons_self
      obtain ⟨hnot, hrest⟩ := List.nodup_cons.mp hnodup
      obtain ⟨x, hx, hstep, hagrees⟩ := EventLoop.step_handle hrange.1 hrange.2 he (h.agrees e)
      refine h.step hstep (hagrees h.agrees) (fun ready' hp => ?_) fun _ hp => by cases hp
      cases hp
      refine ⟨hrest, fun y hy => ⟨fun heq => ?_, hmem y (List.mem_cons_of_mem _ hy)⟩⟩
      rcases hx with rfl | hx
      · exact hnot (heq ▸ hy)
      · exact hal x hx (heq ▸ hmem y (List.mem_cons_of_mem _ hy))
    · cases hs

theorem run_inv {ls : List Label} (hrange : ∀ l ∈ ls, l.InRange) (hrun : Lib.run step start ls = some s) : s.Inv :=
  Lib.run_invariant_where (fun _ l _ h (hok : l.InRange) hs => step_inv l hok h hs) inv_start
    (Lib.StepsMeet.of_forall fun l hl _ => hrange l hl) hrun

/-- **The registered events are the keys with a live deadline.** In every state of every run of the loop
whose clock readings leave room for `LTIMEOUT`: an event other than a listening one is registered if and
only if it has a deadline; then it is registered once, has one live deadline, which the heap will find,
and its type is one of those that wait for the poll. So `EventHandler::handle` never takes its branches
for a timeout or an unknown type. -/
theorem registered_iff_live {ls : List Label} (hrange : ∀ l ∈ ls, l.InRange) (hrun : Lib.run step start ls = some s) :
    (∀ e, (e ∈ s.loop.registered ∧ (s.loop.events e).type ≠ .listen) ↔ (s.loop.deadlineHeap.map e).isSome) ∧
    (∀ e, (s.loop.deadlineHeap.map e).isSome → s.loop.registered.count e = 1 ∧
      ∃! t, s.loop.deadlineHeap.map e = some t ∧ t.data = some e ∧ t ∈ contents s.loop.deadlineHeap.heap) ∧
    (∀ e ∈ s.loop.registered, (s.loop.events e).type ≠ .listen → (s.loop.events e).type ∈ EventLoop.waiting) ∧
    (∀ e ready, s.phase = .handling (e :: ready) →
      (s.loop.events e).type = .listen ∨ (s.loop.events e).type ∈ EventLoop.waiting) := by
  have h := run_inv hrange hrun
  have htype : ∀ e ∈ s.loop.registered, (s.loop.events e).type = .listen ∨ (s.loop.events e).type ∈ EventLoop.waiting :=
    fun e he => ((h.agrees e).registered he).imp And.left And.right
  refine ⟨fun e => ⟨fun ⟨he, hne⟩ => ?_, fun hsome => ?_⟩, fun e hsome => ⟨?_, ?_⟩,
    fun e he hne => (htype e he).resolve_left hne, fun e ready hp => ?_⟩
  · rcases (h.agrees e).registered he with ⟨hlisten, -⟩ | ⟨hsome, -⟩
    · exact absurd hlisten hne
    · exact hsome
  · have he := (h.agrees e).live hsome
    refine ⟨he, fun hlisten => ?_⟩
    rcases (h.agrees e).registered he with ⟨-, hnone⟩ | ⟨-, hwait⟩
    · simp [hnone] at hsome
    · rw [hlisten] at hwait
      exact absurd hwait (by decide)
  · exact List.count_eq_one_of_mem h.regular.nodup ((h.agrees e).live hsome)
  · obtain ⟨t, ht⟩ := Option.isSome_iff_exists.mp hsome
    refine ⟨t, ⟨ht, h.regular.heap.owned e t ht, h.regular.heap.queued e t ht⟩, ?_⟩
    rintro t' ⟨ht', -⟩
    exact Option.some.inj (ht'.symm.trans ht)
  · exact htype e ((h.ready _ hp).2 e List.mem_cons_self)

/-- A server: a connection is accepted and its first request is read. -/
def serverLabels : List Label :=
  [.change 0 { role := .listener, timeoutOpt := ⟨100, 1000, 300⟩ }, .listen 0, .swap, .check 10, .turn true, .poll [0],
    .handle { now := 20, restart := 0, reset := 15, accepted := some 1, connectError := false, read := .again, write := .again },
    .swap, .check 30, .turn true, .poll [1],
    .handle { now := 0, restart := 40, reset := 0, accepted := none, connectError := false, read := .again, write := .again }]

theorem registered_iff_live_server :
    ∃ s : LoopState (Lib.SortedQueue (Timeout.deadline (K := Nat))), Lib.run step start serverLabels = some s ∧
      ((1 ∈ s.loop.registered ∧ (s.loop.events 1).type ≠ .listen) ↔ (s.loop.deadlineHeap.map 1).isSome) := by
  obtain ⟨s, hs⟩ : ∃ s : LoopState (Lib.SortedQueue (Timeout.deadline (K := Nat))),
      Lib.run step start serverLabels = some s := ⟨_, rfl⟩
  exact ⟨s, hs, (registered_iff_live (by simp [serverLabels, Label.InRange, Event.ltimeout]) hs).1 1⟩

/-- An idle connection that is added twice, and whose deadline wraps to 0: the first entry expires and
the event is closed, and the second one matches the default that stands for an absent key. -/
def wrappedLabels : List Label :=
  [.change 1 { type := .next, role := .server, starttime := 2 ^ 64 - Event.ltimeout }, .addEvent 1, .addEvent 1, .swap,
    .dispatch, .dispatch, .check 0, .turn false, .turn true]

theorem live_not_registered_wrapped :
    ∃ s : LoopState (Lib.SortedQueue (Timeout.deadline (K := Nat))), Lib.run step start wrappedLabels = some s ∧
      1 ∉ s.loop.registered ∧ (s.loop.deadlineHeap.map 1).isSome := by
  refine ⟨_, rfl, ?_, ?_⟩ <;> decide

end LoopState

end Raster
