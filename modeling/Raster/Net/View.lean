import Raster.Net.Framework
import Mathlib.Data.List.Perm.Basic

/-!
# Where an event is

An event on its way to a loop is named by a callback that is about to be invoked, then by the list of a
loop and then by its poll. The view of an event is the event with the number of times it is named in
each of the three. The lemmas say how the operations of the framework change the views: but for `block` and for
callbacks that are added to a list that is walked, each changes the view of one event.
-/

namespace Raster

open Raster.Fiber (Callback)
open EventLoop (Dispatchable)

/-! ### Fibers -/

namespace Fiber

variable {α : Type} (f : Fiber α)

theorem fresh_block : (f.afterYield .block).fresh = [] := by
  simp [afterYield, fresh, fired, Executor.callback]

theorem awaited_block : (f.afterYield .block).awaited = f.fresh := by
  simp [afterYield, awaited, fresh, fired, Executor.callback]

theorem old_append_fresh : f.old ++ f.fresh = f.executor.callbacks := List.take_append_drop ..

/-- At each `BLOCK` the whole list is invoked, so it only grows. -/
def Grows : Prop := f.fired ≤ f.executor.callbacks.length

theorem fresh_addCallback (h : f.Grows) (c : α) :
    { f with executor := f.executor.addCallback c }.fresh = f.fresh ++ [c] := by
  simp only [fresh, Executor.addCallback]
  exact List.drop_append_of_le_length h

theorem old_addCallback (h : f.Grows) (c : α) : { f with executor := f.executor.addCallback c }.old = f.old := by
  simp only [old, Executor.addCallback]
  exact List.take_append_of_le_length h

theorem Grows.addCallback {f : Fiber α} (h : f.Grows) (c : α) :
    Grows { f with executor := f.executor.addCallback c } := by
  show f.fired ≤ (f.executor.callbacks ++ [c]).length
  rw [List.length_append]
  exact Nat.le_add_right_of_le h

theorem grows_block : (f.afterYield .block).Grows := by
  simp [Grows, afterYield, fired, Executor.callback]

end Fiber

namespace Action

/-! ### Actions -/

theorem apply_role (a : Action) (ev : Event) : (a.apply ev).1.role = ev.role := by
  cases a with
  | writed =>
    simp only [apply]
    split_ifs <;> rfl
  | close =>
    simp only [apply]
    split_ifs <;> rfl
  | _ => rfl

theorem apply_stays {a : Action} {ev : Event} (h : (a.apply ev).2 = .stays) :
    (a.apply ev).1.type ∈ EventLoop.waiting := by
  cases a with
  | connected => exact show EventType.towrite ∈ EventLoop.waiting by decide
  | read => exact show EventType.reading ∈ EventLoop.waiting by decide
  | write => exact show EventType.writing ∈ EventLoop.waiting by decide
  | readed => cases h
  | writed =>
    simp only [apply] at h
    split_ifs at h
  | close =>
    simp only [apply] at h
    split_ifs at h

theorem apply_dispatched {a : Action} {ev : Event} (h : (a.apply ev).2 = .dispatched) :
    (a.apply ev).1.type = .next ∨ (a.apply ev).1.type = .toread := by
  cases a with
  | writed =>
    simp only [apply]
    split_ifs
    · exact Or.inl rfl
    · exact Or.inr rfl
  | close =>
    simp only [apply] at h
    split_ifs at h
  | _ => cases h

end Action

/-! ### Events -/

/-- An event, and how often a callback to be invoked, the list of a loop and a poll name it. -/
structure View where
  ev : Event
  calling : Nat
  pending : Nat
  registered : Nat

/-- The places where the event is named. -/
def View.tokens (v : View) : Nat := v.calling + v.pending + v.registered

theorem count_snd_erase {l : List (Nat × Nat)} {p : Nat × Nat} (hp : p ∈ l) (x : Nat) :
    ((l.erase p).map Prod.snd).count x + (if x = p.2 then 1 else 0) = (l.map Prod.snd).count x := by
  rw [((List.perm_cons_erase hp).map Prod.snd).count_eq, List.map_cons, List.count_cons]
  simp only [beq_iff_eq, eq_comm (a := x)]

theorem mem_snd {l : List (Nat × Nat)} {p : Nat × Nat} (hp : p ∈ l) : 0 < (l.map Prod.snd).count p.2 :=
  List.count_pos_iff.mpr (List.mem_map_of_mem hp)

/-! ### Walks -/

namespace Walk

theorem addCallback_of_ne {f : Nat} {w : Walk} (h : w.fiber ≠ f) (c : Callback) : w.addCallback f c = w := if_neg h

theorem flatMap_modify_next {ws : List Walk} {i : Nat} {c : Callback}
    (h : (ws[i]?.bind fun w => w.ahead.head?) = some c) :
    (ws.flatMap ahead).Perm (c :: (ws.modify i next).flatMap ahead) := by
  induction ws generalizing i with
  | nil => simp at h
  | cons w ws ih =>
    cases i with
    | zero =>
      obtain ⟨rest, hrest⟩ := List.head?_eq_some_iff.mp (show w.ahead.head? = some c from h)
      simp [next, hrest]
    | succ i =>
      rw [List.modify_succ_cons, List.flatMap_cons, List.flatMap_cons]
      exact ((ih (by simpa using h)).append_left w.ahead).trans List.perm_middle

theorem flatMap_eraseIdx {ws : List Walk} {i : Nat} (h : ws[i]?.map ahead = some []) :
    (ws.eraseIdx i).flatMap ahead = ws.flatMap ahead := by
  induction ws generalizing i with
  | nil => rfl
  | cons w ws ih =>
    cases i with
    | zero =>
      have hw : w.ahead = [] := by simpa using h
      simp [hw]
    | succ i => simp [ih (by simpa using h)]

end Walk

namespace Framework

def view (s : Framework) (e : Nat) : View where
  ev := s.actor.events e
  calling := s.calling.count (.addEvent e)
  pending := (s.pending.map Prod.snd).count e
  registered := (s.registered.map Prod.snd).count e

variable {s : Framework} {e l f : Nat}

theorem view_modifyEvent (g : Event → Event) (x : Nat) :
    (s.modifyEvent e g).view x = if x = e then { s.view x with ev := g (s.view x).ev } else s.view x := by
  simp only [view, modifyEvent, Events.modify_apply]
  split_ifs <;> rfl

theorem view_newEvent (ev : Event) (x : Nat) :
    (s.newEvent ev).view x = if x = s.nextEvent then { s.view x with ev } else s.view x := by
  simp only [view, newEvent, Function.update_apply]
  split_ifs <;> rfl

theorem roles_eq {s' : Framework} (hview : ∀ x, x ≠ e → s'.view x = s.view x)
    (hrole : (s'.view e).ev.role = (s.view e).ev.role) (x : Nat) : (s'.view x).ev.role = (s.view x).ev.role := by
  by_cases hx : x = e
  · rw [hx, hrole]
  · rw [hview x hx]

theorem view_newEvent_of_ne (ev : Event) {x : Nat} (hx : x ≠ s.nextEvent) : (s.newEvent ev).view x = s.view x := by
  rw [view_newEvent, if_neg hx]

theorem view_newEvent_self (ev : Event) (htokens : (s.view s.nextEvent).tokens = 0) :
    (s.newEvent ev).view s.nextEvent = ⟨ev, 0, 0, 0⟩ := by
  have hzero : (s.view s.nextEvent).calling = 0 ∧ (s.view s.nextEvent).pending = 0 ∧
      (s.view s.nextEvent).registered = 0 := by
    unfold View.tokens at htokens
    omega
  rw [view_newEvent, if_pos rfl]
  simp only [hzero]

theorem block_self : (s.block f).fibers f = { s.fibers f with toFiber := (s.fibers f).toFiber.afterYield .block } :=
  Function.update_self ..

theorem block_other {g : Nat} (hg : g ≠ f) : (s.block f).fibers g = s.fibers g := Function.update_of_ne hg ..

theorem block_calling : (s.block f).calling = s.calling ++ (s.fibers f).executor.callbacks := by
  simp [calling, block]

theorem view_block (x : Nat) :
    (s.block f).view x =
      { s.view x with calling := (s.view x).calling + (s.fibers f).executor.callbacks.count (.addEvent x) } := by
  simp only [view, block_calling, List.count_append]
  rfl

@[simp] theorem dispatchEvent_actor : (s.dispatchEvent l e).actor = s.actor := by
  unfold dispatchEvent
  split_ifs <;> rfl

@[simp] theorem dispatchEvent_fibers : (s.dispatchEvent l e).fibers = s.fibers := by
  unfold dispatchEvent
  split_ifs <;> rfl

@[simp] theorem dispatchEvent_graphs : (s.dispatchEvent l e).graphs = s.graphs := by
  unfold dispatchEvent
  split_ifs <;> rfl

@[simp] theorem dispatchEvent_calling : (s.dispatchEvent l e).calling = s.calling := by
  unfold dispatchEvent
  split_ifs <;> rfl

@[simp] theorem dispatchEvent_idle : (s.dispatchEvent l e).idle = s.idle := by
  unfold dispatchEvent
  split_ifs <;> rfl

@[simp] theorem dispatchEvent_nextEvent : (s.dispatchEvent l e).nextEvent = s.nextEvent := by
  unfold dispatchEvent
  split_ifs <;> rfl

theorem dispatchEvent_dropped (htype : Dispatchable (s.actor.events e).type) :
    (s.dispatchEvent l e).dropped = s.dropped := by
  rw [dispatchEvent, if_pos htype]

theorem view_dispatchEvent (htype : Dispatchable (s.actor.events e).type) (hnew : (l, e) ∉ s.registered) (x : Nat) :
    (s.dispatchEvent l e).view x =
      if x = e then { s.view x with registered := (s.view x).registered + 1 } else s.view x := by
  simp only [view, calling, dispatchEvent, if_pos htype, if_neg hnew, List.map_append, List.map_cons, List.map_nil,
    List.count_append, List.count_singleton, beq_iff_eq]
  by_cases hx : x = e
  · simp [hx]
  · simp [hx, Ne.symm hx]

theorem view_dispatchEvent_dropped (htype : ¬ Dispatchable (s.actor.events e).type) (x : Nat) :
    (s.dispatchEvent l e).view x = s.view x := by
  simp only [view, calling, dispatchEvent, if_neg htype]

theorem notMem_registered (h : (s.view e).registered = 0) : (l, e) ∉ s.registered := fun hmem => by
  have := mem_snd hmem
  simp only [view] at h this
  omega

theorem view_unregister (hmem : (l, e) ∈ s.registered) (x : Nat) :
    ({ s with registered := s.registered.erase (l, e) } : Framework).view x =
      if x = e then { s.view x with registered := (s.view x).registered - 1 } else s.view x := by
  have hcount := count_snd_erase hmem x
  simp only [view]
  split_ifs at hcount ⊢
  · rw [← hcount]
    rfl
  · rw [← hcount]
    rfl

theorem view_take (hmem : (l, e) ∈ s.pending) (x : Nat) :
    ({ s with pending := s.pending.erase (l, e) } : Framework).view x =
      if x = e then { s.view x with pending := (s.view x).pending - 1 } else s.view x := by
  have hcount := count_snd_erase hmem x
  simp only [view]
  split_ifs at hcount ⊢
  · rw [← hcount]
    rfl
  · rw [← hcount]
    rfl

theorem view_take_dispatchEvent (hmem : (l, e) ∈ s.pending) (htype : Dispatchable (s.actor.events e).type)
    (hregistered : (s.view e).registered = 0) (x : Nat) :
    (Framework.dispatchEvent { s with pending := s.pending.erase (l, e) } l e).view x =
      if x = e then { s.view x with pending := (s.view x).pending - 1, registered := (s.view x).registered + 1 }
      else s.view x := by
  have hadd := view_dispatchEvent (s := { s with pending := s.pending.erase (l, e) }) htype (l := l)
    (notMem_registered hregistered) x
  rw [hadd, view_take hmem]
  split_ifs <;> rfl

theorem view_newRequest (x : Nat) :
    ({ s with actor := s.actor.newRequest e } : Framework).view x =
      if x = e then { s.view x with ev := (s.view x).ev.setExecutor s.actor.nextFiber } else s.view x := by
  simp only [view, Actor.newRequest, Actor.addFiber, Events.modify_apply]
  split_ifs <;> rfl

theorem view_addEvent (x : Nat) :
    (s.addEvent e l).view x =
      if x = e then { s.view x with pending := (s.view x).pending + 1 } else s.view x := by
  simp only [view, calling, addEvent, List.map_append, List.map_cons, List.map_nil, List.count_append, List.count_singleton, beq_iff_eq]
  by_cases hx : x = e
  · simp [hx]
  · simp [hx, Ne.symm hx]

theorem calling_perm {i : Nat} {c : Callback} (hcurrent : s.current i = some c) :
    s.calling.Perm (c :: (s.advance i).calling) :=
  Walk.flatMap_modify_next hcurrent

theorem mem_calling {i : Nat} {c : Callback} (hcurrent : s.current i = some c) : c ∈ s.calling :=
  (calling_perm hcurrent).mem_iff.mpr List.mem_cons_self

theorem count_advance {i : Nat} {c : Callback} (hcurrent : s.current i = some c) (c' : Callback) :
    (s.advance i).calling.count c' + (if c = c' then 1 else 0) = s.calling.count c' := by
  rw [(calling_perm hcurrent).count_eq, List.count_cons]
  simp

theorem call_eq_some {i : Nat} {s' : Framework} (hs : s.call i l = some s') :
    (∃ e, s.current i = some (.addEvent e) ∧ s' = (s.advance i).addEvent e l) ∨
      ∃ d, s.current i = some (.schedule d) ∧ s' = (s.advance i).modifyGraph d ActorDAG.schedule := by
  unfold call at hs
  split at hs
  · cases hs
  · rename_i e hcurrent
    exact Or.inl ⟨e, hcurrent, (Option.some.inj hs).symm⟩
  · rename_i d hcurrent
    exact Or.inr ⟨d, hcurrent, (Option.some.inj hs).symm⟩

theorem forward_eq_some {i : Nat} {s' : Framework} (hs : s.forward i l = some s') :
    ∃ e, s.current i = some (.addEvent e) ∧ (s.actor.events e).role = .client ∧ s' = s.forwardEvent e l := by
  unfold forward at hs
  split at hs
  · rename_i e hcurrent
    split_ifs at hs with hrole
    exact ⟨e, hcurrent, hrole, (Option.some.inj hs).symm⟩
  · cases hs

theorem view_advance {i : Nat} (hcurrent : s.current i = some (.addEvent e)) (x : Nat) :
    (s.advance i).view x = if x = e then { s.view x with calling := (s.view x).calling - 1 } else s.view x := by
  have hcount := count_advance hcurrent (.addEvent x)
  simp only [view]
  by_cases hx : x = e
  · subst hx
    rw [if_pos rfl] at hcount
    rw [if_pos rfl, ← hcount]
    rfl
  · rw [if_neg (by simpa using Ne.symm hx)] at hcount
    rw [if_neg hx, ← hcount]
    rfl

theorem view_advance_addEvent {i : Nat} (hcurrent : s.current i = some (.addEvent e)) (x : Nat) :
    ((s.advance i).addEvent e l).view x =
      if x = e then { s.view x with calling := (s.view x).calling - 1, pending := (s.view x).pending + 1 } else s.view x := by
  rw [view_addEvent, view_advance hcurrent]
  split_ifs <;> rfl

theorem view_advance_schedule {i d : Nat} (hcurrent : s.current i = some (.schedule d)) (x : Nat) :
    (s.advance i).view x = s.view x := by
  have hcount := count_advance hcurrent (.addEvent x)
  rw [if_neg (by simp)] at hcount
  simp only [view]
  rw [← hcount]
  rfl

theorem endWalk_calling {i : Nat} {s' : Framework} (hs : s.endWalk i = some s') :
    s'.calling = s.calling ∧ s' = { s with walks := s'.walks } := by
  unfold endWalk at hs
  split_ifs at hs with hend
  rw [Option.some.injEq] at hs
  subst hs
  exact ⟨Walk.flatMap_eraseIdx hend, rfl⟩

theorem view_endWalk {i : Nat} {s' : Framework} (hs : s.endWalk i = some s') (x : Nat) : s'.view x = s.view x := by
  obtain ⟨hcalling, heq⟩ := endWalk_calling hs
  rw [view, view, hcalling, heq]

/-- No walk through the list of the fiber is under way. -/
def Still (s : Framework) (f : Nat) : Prop := ∀ w ∈ s.walks, w.fiber ≠ f

instance (s : Framework) (f : Nat) : Decidable (s.Still f) := by
  unfold Still
  infer_instance

theorem addCallback_of_still (h : s.Still f) (c : Callback) :
    s.addCallback f c = s.modifyFiber f fun x => { x with executor := x.executor.addCallback c } := by
  have hwalks : s.walks.map (Walk.addCallback f c) = s.walks :=
    (List.map_congr_left fun w hw => Walk.addCallback_of_ne (h w hw) c).trans (List.map_id _)
  rw [addCallback, hwalks]
  rfl

theorem view_handled (hmem : (l, e) ∈ s.registered) (ev : Event) (x : Nat) :
    (s.unregister l e ev).view x =
      if x = e then { s.view x with ev, registered := (s.view x).registered - 1 } else s.view x := by
  have h := view_unregister (s := s.modifyEvent e fun _ => ev) hmem x
  rw [view_modifyEvent] at h
  split_ifs at h ⊢
  · exact h
  · exact h

theorem unregister_event (ev : Event) : (s.unregister l e ev).actor.events e = ev := by
  simp [unregister, modifyEvent]

theorem view_redispatched (hmem : (l, e) ∈ s.registered) (hone : (s.view e).registered = 1) {ev : Event}
    (htype : Dispatchable ev.type) (x : Nat) :
    ((s.unregister l e ev).dispatchEvent l e).view x = if x = e then { s.view x with ev } else s.view x := by
  have hview := view_handled hmem ev
  have hzero : ((s.unregister l e ev).view e).registered = 0 := by
    rw [hview e, if_pos rfl]
    show (s.view e).registered - 1 = 0
    omega
  rw [view_dispatchEvent (by rw [unregister_event]; exact htype) (notMem_registered hzero), hview]
  split_ifs with hx
  · subst hx
    simp [hone]
  · rfl

end Framework

end Raster
