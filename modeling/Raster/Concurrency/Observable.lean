import Mathlib.Algebra.Group.Nat.Defs
import Mathlib.Order.Nat
import Raster.Lib.Machine
import Raster.Lib.Sorted

/-!
# Observables

`Observable` and `Subject::on` of `raster/concurrency/Observable.h`, on one thread. A callback may subscribe, destroy any
subscription, return or throw, in any order: each of these is a step. Changes that are made in a callback wait in two lists until
all observers have been called. When a callback throws, they are left there and the observable stays in its callback.

A subscription is destroyed once. The pointers that are local to a thread are taken as what they point to, and as empty before
they are set.
-/

namespace Raster

open Lib

/-- A call of `on` that has ended. -/
structure OnCall (ω : Type) where
  /-- The observers that were subscribed when it began. -/
  due : List (Nat × ω)
  called : List (Nat × ω)
  threw : Bool
  deriving DecidableEq, Repr

structure Observable (ω : Type) where
  nextSubscriptionId : Nat := 1
  inCallback : Bool := false
  subscribers : List (Nat × ω) := []
  newSubscribers : List (Nat × ω) := []
  oldSubscribers : List Nat := []
  /-- The place in `subscribers` of the observer whose callback runs. -/
  callback : Option Nat := none
  /-- An `RDDCHECK` has failed. -/
  aborted : Bool := false
  /-- The subscriptions that have not been destroyed, with their observers. -/
  held : List (Nat × ω) := []
  due : List (Nat × ω) := []
  called : List (Nat × ω) := []
  calls : List (OnCall ω) := []
  deriving DecidableEq, Repr

/-- What a client or a callback does. -/
inductive ObservableOp (ω : Type)
  | subscribe (observer : ω)
  /-- The subscription `id` is destroyed. -/
  | unsubscribe (id : Nat)
  | on
  /-- The callback returns. -/
  | returns
  /-- The callback throws. -/
  | throws
  deriving DecidableEq, Repr

namespace Observable

variable {ω : Type}

/-! ### The operations -/

/-- `erase` of a map. -/
def erase (m : List (Nat × ω)) (id : Nat) : List (Nat × ω) := m.filter fun kv => kv.1 ≠ id

/-- `subscribeImpl` with `makeSubscription`, whose `Subscription` checks that its id is not 0. -/
def subscribeImpl (s : Observable ω) (observer : ω) : Observable ω :=
  let id := s.nextSubscriptionId
  let s := { s with nextSubscriptionId := (id + 1) % 2 ^ 64 }
  if id = 0 then { s with aborted := true }
  else
    let s := { s with held := s.held ++ [(id, observer)] }
    if s.inCallback then { s with newSubscribers := insertByKey Prod.fst (id, observer) s.newSubscribers }
    else { s with subscribers := insertByKey Prod.fst (id, observer) s.subscribers }

def unsubscribe (s : Observable ω) (id : Nat) : Observable ω :=
  let s := { s with held := erase s.held id }
  if s.inCallback then
    if s.newSubscribers.any fun kv => kv.1 = id then { s with newSubscribers := erase s.newSubscribers id }
    else { s with oldSubscribers := s.oldSubscribers ++ [id] }
  else { s with subscribers := erase s.subscribers id }

/-- The end of `forEachObserver`, behind its loop. -/
def merge (s : Observable ω) : Observable ω :=
  let subscribers := s.newSubscribers.foldl (fun m kv => insertByKey Prod.fst kv m) s.subscribers
  { s with
    subscribers := s.oldSubscribers.foldl erase subscribers
    newSubscribers := []
    oldSubscribers := []
    inCallback := false
    callback := none
    calls := s.calls ++ [{ due := s.due, called := s.called, threw := false }] }

/-- The loop of `forEachObserver` from the place `pos` on: the next callback, or its end. -/
def forward (s : Observable ω) (pos : Nat) : Observable ω :=
  match s.subscribers[pos]? with
  | some kv => { s with callback := some pos, called := s.called ++ [kv] }
  | none => s.merge

/-- `Subject::on` up to its first callback. -/
def on (s : Observable ω) : Observable ω :=
  if s.inCallback then { s with aborted := true }
  else { s with inCallback := true, due := s.held, called := [] }.forward 0

/-- What leaves `forEachObserver` with an exception leaves everything as it is. -/
def throws (s : Observable ω) : Observable ω :=
  { s with callback := none, calls := s.calls ++ [{ due := s.due, called := s.called, threw := true }] }

/-- One step. A subscription that is not there cannot be destroyed, and a callback does not call `on`. -/
def step (s : Observable ω) (op : ObservableOp ω) : Option (Observable ω) :=
  if s.aborted then none
  else match op, s.callback with
    | .subscribe observer, _ => some (s.subscribeImpl observer)
    | .unsubscribe id, _ => if s.held.any fun kv => kv.1 = id then some (s.unsubscribe id) else none
    | .on, none => some s.on
    | .returns, some pos => some (s.forward (pos + 1))
    | .throws, some _ => some s.throws
    | _, _ => none

/-! ### What is right about an observable -/

/-- The check of `on` has not failed, and between two calls of `on` the subscribers are the subscriptions that
have not been destroyed and a call is allowed. Each call that has ended has called the observers that were
subscribed when it began, in the order of their ids and up to the one that threw. -/
structure Right (s : Observable ω) : Prop where
  alive : s.aborted = false
  idle : s.callback = none → s.subscribers = s.held ∧ s.inCallback = false
  calls : ∀ r ∈ s.calls, r.due.Pairwise (fun a b => a.1 < b.1) ∧ (if r.threw then r.called <+: r.due else r.called = r.due)

/-- No callback throws, and the ids do not wrap around. -/
def Meets (s : Observable ω) : ObservableOp ω → Prop
  | .subscribe _ => s.nextSubscriptionId ≠ 0
  | .throws => False
  | _ => True

instance (s : Observable ω) (op : ObservableOp ω) : Decidable (Meets s op) := by
  cases op <;> unfold Meets <;> infer_instance

/-- Holds in every state, in a callback or not. -/
structure Base (s : Observable ω) : Prop where
  alive : s.aborted = false
  bounded : s.nextSubscriptionId < 2 ^ 64
  fresh : s.nextSubscriptionId ≠ 0 → ∀ kv ∈ s.subscribers ++ s.newSubscribers, kv.1 < s.nextSubscriptionId
  sorted : (s.subscribers ++ s.newSubscribers).Pairwise fun a b => a.1 < b.1
  held : s.held = (s.subscribers ++ s.newSubscribers).filter fun kv => kv.1 ∉ s.oldSubscribers
  old : ∀ id ∈ s.oldSubscribers, ∃ kv ∈ s.subscribers, kv.1 = id
  calls : ∀ r ∈ s.calls, r.due.Pairwise (fun a b => a.1 < b.1) ∧ r.threw = false ∧ r.called = r.due

/-- At the place `pos` of the loop of `forEachObserver`. -/
structure At (s : Observable ω) (pos : Nat) : Prop where
  inCallback : s.inCallback = true
  due : s.due = s.subscribers
  called : s.called = s.subscribers.take pos

structure Inv (s : Observable ω) : Prop extends Base s where
  idle : s.callback = none → s.inCallback = false ∧ s.newSubscribers = [] ∧ s.oldSubscribers = []
  running : ∀ pos, s.callback = some pos → s.At (pos + 1)

theorem inv_init : Inv ({} : Observable ω) where
  alive := rfl
  bounded := Nat.one_lt_two_pow (by decide)
  fresh := by simp
  sorted := by simp
  held := rfl
  old := by simp
  calls := by simp
  idle := fun _ => ⟨rfl, rfl, rfl⟩
  running := fun _ h => nomatch h

/-! ### The maps -/

theorem foldl_insert {new m : List (Nat × ω)} (h : (m ++ new).Pairwise fun a b => a.1 < b.1) :
    new.foldl (fun m kv => insertByKey Prod.fst kv m) m = m ++ new := by
  induction new generalizing m with
  | nil => rw [List.foldl_nil, List.append_nil]
  | cons kv new ih =>
    have hkv : insertByKey Prod.fst kv m = m ++ [kv] :=
      insertByKey_of_forall_lt fun x hx => (List.pairwise_append.1 h).2.2 x hx kv List.mem_cons_self
    rw [List.foldl_cons, hkv, ih (by simpa using h), List.append_assoc, List.singleton_append]

theorem foldl_erase (old : List Nat) (m : List (Nat × ω)) : old.foldl erase m = m.filter fun kv => kv.1 ∉ old := by
  induction old generalizing m with
  | nil => simp
  | cons id old ih =>
    rw [List.foldl_cons, ih, erase, List.filter_filter]
    congr 1
    funext kv
    simp [not_or, Bool.and_comm]

theorem pairwise_erase {m : List (Nat × ω)} (h : m.Pairwise fun a b => a.1 < b.1) (id : Nat) :
    (erase m id).Pairwise fun a b => a.1 < b.1 :=
  h.sublist List.filter_sublist

/-! ### The loop over the observers -/

theorem merge_inv {s : Observable ω} (h : s.Base) (hat : s.At s.subscribers.length) : s.merge.Inv := by
  have hsubscribers : s.merge.subscribers = s.held := by
    rw [h.held, ← foldl_erase, ← foldl_insert h.sorted]
    rfl
  have hsorted : s.held.Pairwise fun a b => a.1 < b.1 := by
    rw [h.held]
    exact h.sorted.sublist List.filter_sublist
  have hcalled : s.called = s.due := by rw [hat.called, hat.due, List.take_length]
  have hdue : s.due.Pairwise fun a b => a.1 < b.1 := by
    rw [hat.due]
    exact (List.pairwise_append.1 h.sorted).1
  refine { alive := h.alive, bounded := h.bounded, fresh := fun hne kv hkv => ?_, sorted := ?_, held := ?_, old := by simp [merge],
           calls := fun r hr => ?_, idle := fun _ => ⟨rfl, rfl, rfl⟩, running := fun _ hpos => nomatch hpos }
  · rw [hsubscribers, show s.merge.newSubscribers = [] from rfl, List.append_nil, h.held] at hkv
    exact h.fresh hne kv (List.mem_of_mem_filter hkv)
  · rw [hsubscribers, show s.merge.newSubscribers = [] from rfl, List.append_nil]
    exact hsorted
  · rw [hsubscribers, show s.merge.newSubscribers = [] from rfl, show s.merge.oldSubscribers = [] from rfl, List.append_nil]
    simp [merge]
  · obtain hr | hr := List.mem_append.1 hr
    · exact h.calls r hr
    · obtain rfl := List.mem_singleton.1 hr
      exact ⟨hdue, rfl, hcalled⟩

theorem forward_inv {s : Observable ω} (h : s.Base) {pos : Nat} (hat : s.At pos) : (s.forward pos).Inv := by
  unfold forward
  split
  · next kv hkv =>
    have hcalled : s.called ++ [kv] = s.subscribers.take (pos + 1) := by
      rw [hat.called, List.take_add_one, hkv]
      rfl
    refine { h with idle := (fun hnone => nomatch hnone), running := fun pos' hpos' => ?_ }
    cases hpos'
    exact ⟨hat.inCallback, hat.due, hcalled⟩
  · next hnone =>
    have hle : s.subscribers.length ≤ pos := List.getElem?_eq_none_iff.1 hnone
    refine merge_inv h ⟨hat.inCallback, hat.due, ?_⟩
    rw [hat.called, List.take_of_length_le hle, List.take_length]

theorem Inv.held_eq_subscribers {s : Observable ω} (h : s.Inv) (hidle : s.callback = none) : s.held = s.subscribers := by
  obtain ⟨-, hnew, hold⟩ := h.idle hidle
  rw [h.held, hnew, hold]
  simp

theorem on_inv {s : Observable ω} (h : s.Inv) (hidle : s.callback = none) : s.on.Inv := by
  obtain ⟨hin, -, -⟩ := h.idle hidle
  rw [on, if_neg (by rw [hin]; exact Bool.false_ne_true)]
  exact forward_inv (s := { s with inCallback := true, due := s.held, called := [] }) { h.toBase with }
    ⟨rfl, h.held_eq_subscribers hidle, List.take_zero.symm⟩

/-! ### Subscribing and unsubscribing -/

theorem insert_fresh {s : Observable ω} (h : s.Base) (hne : s.nextSubscriptionId ≠ 0) (observer : ω) {m : List (Nat × ω)}
    (hm : ∀ kv ∈ m, kv ∈ s.subscribers ++ s.newSubscribers) :
    insertByKey Prod.fst (s.nextSubscriptionId, observer) m = m ++ [(s.nextSubscriptionId, observer)] :=
  insertByKey_of_forall_lt fun kv hkv => h.fresh hne kv (hm kv hkv)

theorem base_subscribe {s s' : Observable ω} (h : s.Base) (hne : s.nextSubscriptionId ≠ 0) (observer : ω)
    (hnext : s'.nextSubscriptionId = (s.nextSubscriptionId + 1) % 2 ^ 64)
    (hall : s'.subscribers ++ s'.newSubscribers = s.subscribers ++ s.newSubscribers ++ [(s.nextSubscriptionId, observer)])
    (hheld : s'.held = s.held ++ [(s.nextSubscriptionId, observer)]) (hold : s'.oldSubscribers = s.oldSubscribers)
    (hsub : ∀ kv ∈ s.subscribers, kv ∈ s'.subscribers) (halive : s'.aborted = s.aborted) (hcalls : s'.calls = s.calls) :
    s'.Base := by
  have hbound := h.bounded
  refine { alive := halive.trans h.alive, bounded := ?_, fresh := fun hne' kv hkv => ?_, sorted := ?_, held := ?_,
           old := fun id hid => ?_, calls := by rw [hcalls]; exact h.calls }
  · rw [hnext]
    exact Nat.mod_lt _ (Nat.two_pow_pos 64)
  · have hnext' : s'.nextSubscriptionId = s.nextSubscriptionId + 1 := by omega
    rw [hall] at hkv
    obtain hkv | hkv := List.mem_append.1 hkv
    · have := h.fresh hne kv hkv
      omega
    · obtain rfl := List.mem_singleton.1 hkv
      show s.nextSubscriptionId < s'.nextSubscriptionId
      omega
  · rw [hall, List.pairwise_append]
    refine ⟨h.sorted, List.pairwise_singleton .., fun kv hkv kv' hkv' => ?_⟩
    obtain rfl := List.mem_singleton.1 hkv'
    exact h.fresh hne kv hkv
  · have hnew : s.nextSubscriptionId ∉ s.oldSubscribers := by
      intro hmem
      obtain ⟨kv, hkv, hid⟩ := h.old _ hmem
      have := h.fresh hne kv (List.mem_append_left _ hkv)
      omega
    rw [hheld, hall, hold, List.filter_append, ← h.held]
    simp [hnew]
  · rw [hold] at hid
    obtain ⟨kv, hkv, rfl⟩ := h.old id hid
    exact ⟨kv, hsub kv hkv, rfl⟩

theorem subscribeImpl_inv {s : Observable ω} (h : s.Inv) (hne : s.nextSubscriptionId ≠ 0) (observer : ω) :
    (s.subscribeImpl observer).Inv := by
  unfold subscribeImpl
  simp only
  rw [if_neg hne]
  by_cases hin : s.inCallback = true
  · rw [if_pos hin, insert_fresh h.toBase hne observer fun kv => List.mem_append_right _]
    refine { toBase := base_subscribe h.toBase hne observer rfl (List.append_assoc ..).symm rfl rfl (fun _ hkv => hkv) rfl rfl
             idle := fun hidle => ?_, running := fun pos hpos => ⟨hin, ?_, ?_⟩ }
    · rw [(h.idle hidle).1] at hin
      cases hin
    · exact (h.running pos hpos).due
    · exact (h.running pos hpos).called
  · have hidle : s.callback = none := by
      cases hcallback : s.callback with
      | none => rfl
      | some pos => exact absurd (h.running pos hcallback).inCallback hin
    obtain ⟨-, hnew, hold⟩ := h.idle hidle
    rw [if_neg hin, insert_fresh h.toBase hne observer fun kv => List.mem_append_left _]
    refine { toBase := base_subscribe h.toBase hne observer rfl ?_ rfl rfl (fun _ hkv => List.mem_append_left _ hkv) rfl rfl
             idle := fun _ => ⟨Bool.eq_false_iff.2 hin, hnew, hold⟩, running := fun pos hpos => ?_ }
    · simp [hnew]
    · cases hidle.symm.trans hpos

theorem erase_eq_self {m : List (Nat × ω)} {id : Nat} (h : ∀ kv ∈ m, kv.1 ≠ id) : erase m id = m := by
  rw [erase, List.filter_eq_self]
  simpa using h

theorem filter_erase (m : List (Nat × ω)) (id : Nat) (old : List Nat) :
    ((erase m id).filter fun kv => kv.1 ∉ old) = erase (m.filter fun kv => kv.1 ∉ old) id := by
  rw [erase, erase, List.filter_filter, List.filter_filter]
  congr 1
  funext kv
  rw [Bool.and_comm]

theorem Base.lt_of_mem {s : Observable ω} (h : s.Base) {kv kv' : Nat × ω} (hkv : kv ∈ s.subscribers)
    (hkv' : kv' ∈ s.newSubscribers) :
    kv.1 < kv'.1 :=
  (List.pairwise_append.1 h.sorted).2.2 kv hkv kv' hkv'

theorem base_unsubscribe_new {s : Observable ω} (h : s.Base) {id : Nat} (hnew : ∃ kv ∈ s.newSubscribers, kv.1 = id) :
    Base { s with held := erase s.held id, newSubscribers := erase s.newSubscribers id } := by
  obtain ⟨kv, hkv, rfl⟩ := hnew
  have hkeep : erase (s.subscribers ++ s.newSubscribers) kv.1 = s.subscribers ++ erase s.newSubscribers kv.1 := by
    have hother : ∀ x ∈ s.subscribers, x.1 ≠ kv.1 := fun x hx => Nat.ne_of_lt (h.lt_of_mem hx hkv)
    have happend : erase (s.subscribers ++ s.newSubscribers) kv.1 = erase s.subscribers kv.1 ++ erase s.newSubscribers kv.1 :=
      List.filter_append ..
    rw [happend, erase_eq_self hother]
  refine { alive := h.alive, bounded := h.bounded, fresh := fun hne x hx => ?_, sorted := ?_, held := ?_, old := h.old,
           calls := h.calls }
  · rw [← hkeep] at hx
    exact h.fresh hne x (List.mem_of_mem_filter hx)
  · rw [← hkeep]
    exact pairwise_erase h.sorted kv.1
  · rw [← hkeep, filter_erase, ← h.held]

theorem base_unsubscribe_old {s : Observable ω} (h : s.Base) {id : Nat} (hold : ∃ kv ∈ s.subscribers, kv.1 = id) :
    Base { s with held := erase s.held id, oldSubscribers := s.oldSubscribers ++ [id] } := by
  refine { h with held := ?_, old := fun id' hid' => ?_ }
  · show erase s.held id = (s.subscribers ++ s.newSubscribers).filter fun kv => kv.1 ∉ s.oldSubscribers ++ [id]
    rw [h.held, erase, List.filter_filter]
    congr 1
    funext kv
    simp [not_or, Bool.and_comm]
  · obtain hid' | hid' := List.mem_append.1 hid'
    · exact h.old id' hid'
    · obtain rfl := List.mem_singleton.1 hid'
      exact hold

theorem unsubscribe_inv {s : Observable ω} (h : s.Inv) {id : Nat} (hid : ∃ kv ∈ s.held, kv.1 = id) : (s.unsubscribe id).Inv := by
  unfold unsubscribe
  simp only
  by_cases hin : s.inCallback = true
  · have hbusy : s.callback ≠ none := by
      intro hidle
      rw [(h.idle hidle).1] at hin
      cases hin
    rw [if_pos hin]
    by_cases hnew : ∃ kv ∈ s.newSubscribers, kv.1 = id
    · rw [if_pos (by simpa using hnew)]
      refine { toBase := base_unsubscribe_new h.toBase hnew, idle := fun hidle => absurd hidle hbusy,
               running := fun pos hpos => ?_ }
      exact ⟨hin, (h.running pos hpos).due, (h.running pos hpos).called⟩
    · have hold : ∃ kv ∈ s.subscribers, kv.1 = id := by
        obtain ⟨kv, hkv, rfl⟩ := hid
        rw [h.held] at hkv
        obtain hkv | hkv := List.mem_append.1 (List.mem_of_mem_filter hkv)
        · exact ⟨kv, hkv, rfl⟩
        · exact absurd ⟨kv, hkv, rfl⟩ hnew
      rw [if_neg (by simpa using hnew)]
      refine { toBase := base_unsubscribe_old h.toBase hold, idle := fun hidle => absurd hidle hbusy,
               running := fun pos hpos => ?_ }
      exact ⟨hin, (h.running pos hpos).due, (h.running pos hpos).called⟩
  · have hidle : s.callback = none := by
      cases hcallback : s.callback with
      | none => rfl
      | some pos => exact absurd (h.running pos hcallback).inCallback hin
    obtain ⟨-, hnew, hold⟩ := h.idle hidle
    have hheld := h.held_eq_subscribers hidle
    have hsorted := h.sorted
    have hfresh := h.fresh
    rw [hnew, List.append_nil] at hsorted hfresh
    rw [if_neg hin]
    refine { alive := h.alive, bounded := h.bounded, fresh := fun hne x hx => ?_, sorted := ?_, held := ?_, old := ?_,
             calls := h.calls, idle := fun _ => ⟨Bool.eq_false_iff.2 hin, hnew, hold⟩, running := fun pos hpos => ?_ }
    · rw [show (erase s.subscribers id) ++ s.newSubscribers = erase s.subscribers id by rw [hnew, List.append_nil]] at hx
      exact hfresh hne x (List.mem_of_mem_filter hx)
    · simpa [hnew] using pairwise_erase hsorted id
    · simp [hnew, hold, hheld]
    · simp [hold]
    · cases hidle.symm.trans hpos

/-! ### Whole runs -/

theorem step_inv {s s' : Observable ω} {op : ObservableOp ω} (h : s.Inv) (hmeets : s.Meets op) (hstep : s.step op = some s') :
    s'.Inv := by
  unfold step at hstep
  rw [if_neg (by rw [h.alive]; exact Bool.false_ne_true)] at hstep
  cases op with
  | subscribe observer =>
    cases hstep
    exact subscribeImpl_inv h hmeets observer
  | unsubscribe id =>
    simp only at hstep
    split_ifs at hstep with hid
    cases hstep
    exact unsubscribe_inv h (by simpa using hid)
  | on =>
    cases hcallback : s.callback with
    | none =>
      rw [hcallback] at hstep
      cases hstep
      exact on_inv h hcallback
    | some pos =>
      rw [hcallback] at hstep
      cases hstep
  | returns =>
    cases hcallback : s.callback with
    | none =>
      rw [hcallback] at hstep
      cases hstep
    | some pos =>
      rw [hcallback] at hstep
      cases hstep
      exact forward_inv h.toBase (h.running pos hcallback)
  | throws => exact hmeets.elim

theorem Inv.right {s : Observable ω} (h : s.Inv) : s.Right where
  alive := h.alive
  idle := fun hidle => ⟨(h.held_eq_subscribers hidle).symm, (h.idle hidle).1⟩
  calls := fun r hr => by
    obtain ⟨hsorted, hthrew, hcalled⟩ := h.calls r hr
    exact ⟨hsorted, by rw [hthrew]; exact hcalled⟩

theorem not_right_of_not_meets {s s' : Observable ω} {op : ObservableOp ω} (h : s.Inv) (hmeets : ¬ s.Meets op)
    (hstep : s.step op = some s') : ¬ s'.Right := by
  intro hright
  unfold step at hstep
  rw [if_neg (by rw [h.alive]; exact Bool.false_ne_true)] at hstep
  cases op with
  | subscribe observer =>
    cases hstep
    have hzero : s.nextSubscriptionId = 0 := not_not.1 hmeets
    have halive := hright.alive
    rw [subscribeImpl, if_pos hzero] at halive
    cases halive
  | throws =>
    cases hcallback : s.callback with
    | none =>
      rw [hcallback] at hstep
      cases hstep
    | some pos =>
      rw [hcallback] at hstep
      cases hstep
      have hin : s.inCallback = false := (hright.idle rfl).2
      rw [(h.running pos hcallback).inCallback] at hin
      cases hin
  | unsubscribe id => exact hmeets trivial
  | on => exact hmeets trivial
  | returns => exact hmeets trivial

/-- **In every run, each state is right if and only if no callback throws and the ids do not run out.** A callback that throws
leaves `inCallback` set, so that the next `on` is not allowed, and the changes that were made in it are not merged. -/
theorem observable_right_iff {ops : List (ObservableOp ω)} {t : Observable ω} (hrun : run step ({} : Observable ω) ops = some t) :
    (∀ before after s, ops = before ++ after → run step ({} : Observable ω) before = some s → s.Right) ↔
      StepsMeet step Meets ({} : Observable ω) ops :=
  stepsMeet_iff_forall_good (fun _ _ _ => step_inv) (fun _ => Inv.right) (fun _ _ _ => not_right_of_not_meets) inv_init hrun

/-- An observer subscribes another one and destroys the subscription of a third. -/
def changingRun : List (ObservableOp Char) :=
  [.subscribe 'a', .subscribe 'b', .on, .subscribe 'c', .unsubscribe 2, .returns, .returns, .on, .returns, .returns]

theorem changingRun_right :
    ∃ t, run step ({} : Observable Char) changingRun = some t ∧ t.Right ∧ t.subscribers = [(1, 'a'), (3, 'c')] := by
  have hrun : (run step ({} : Observable Char) changingRun).map (·.subscribers) = some [(1, 'a'), (3, 'c')] := by decide
  obtain ⟨t, ht, hsubscribers⟩ := Option.map_eq_some_iff.1 hrun
  exact ⟨t, ht, (observable_right_iff ht).2 (by decide) changingRun [] t (by simp) ht, hsubscribers⟩

/-- One observer, which throws: the next `on` fails its check. -/
def throwingRun : List (ObservableOp Char) := [.subscribe 'a', .on, .throws, .on]

theorem throwingRun_not_right : ∃ t, run step ({} : Observable Char) throwingRun = some t ∧ ¬ t.Right := by
  have hrun : (run step ({} : Observable Char) throwingRun).map (·.aborted) = some true := by decide
  obtain ⟨t, ht, haborted⟩ := Option.map_eq_some_iff.1 hrun
  refine ⟨t, ht, fun hright => ?_⟩
  rw [hright.alive] at haborted
  cases haborted

end Observable

end Raster
