import Raster.Event.Expiry
import Mathlib.Algebra.BigOperators.Group.Multiset.Basic

/-!
# One pass of `checkTimeoutEvent`

The whole loop of `EventLoop::checkTimeoutEvent`: turn after turn until `pop` finds nothing that is due. A
turn for a repeated timeout pushes it again with a later deadline, which may be due as well, and a turn that
calls `onTimeout` leaves the other entries of the event in the queue. So neither the queue nor the map has
to shrink. What gets less in each turn is `work`, the number of turns that the entries can still take.

For each event the turns are a story of its own (`Outcome`): some prolongations, and then either a deadline
past the clock or a call of `onTimeout`. What the loop has done to the event after the pass is what one call
does (`TimedOut`), or nothing (`Untouched`).
-/

set_option linter.unusedSectionVars false

namespace Raster

open Lib (MinQueue)
open Lib.MinQueue (contents)

/-! ### Entries that are moved by a period -/

/-- The timeout after `n` prolongations by `period`. -/
def Timeout.later {K : Type} (t : Timeout K) (period n : Nat) : Timeout K :=
  { t with deadline := t.deadline + n * period }

@[simp] theorem Timeout.later_repeats {K : Type} (t : Timeout K) (period n : Nat) :
    (t.later period n).repeats = t.repeats := rfl

theorem Timeout.deadline_lt_later {K : Type} (t : Timeout K) {period n : Nat} (hperiod : 0 < period) (hn : 0 < n) :
    t.deadline < (t.later period n).deadline :=
  Nat.lt_add_of_pos_right (Nat.mul_pos hn hperiod)

namespace TimedHeap

variable {K : Type} [DecidableEq K] {Q : Type} [MinQueue Q (Timeout K) Timeout.deadline]
variable {h h' : TimedHeap Q K} {period now : Nat} {t : Timeout K}

/-- What a prolongation keeps of an entry. -/
def residue (period : Nat) (t : Timeout K) : Option K × Nat := (t.data, t.deadline % period)

theorem residue_later (t : Timeout K) (n : Nat) : residue period (t.later period n) = residue period t := by
  simp [residue, Timeout.later]

/-- No two entries of one key have deadlines that are equal or differ by a multiple of the period. -/
def Separate (h : TimedHeap Q K) (period : Nat) : Prop := ((contents h.heap).map (residue period)).Nodup

/-- A heap with any number of stale entries, none of which is taken for a live one while live ones are
prolonged by the period. -/
structure Clear (h : TimedHeap Q K) (period : Nat) : Prop where
  inv : h.Inv
  positive : h.Positive
  separate : h.Separate period

/-- How many turns an entry with deadline `d` can take until its deadline is past the clock. -/
def rounds (now period d : Nat) : Nat := if d ≤ now then (now - d) / period + 1 else 0

def work (h : TimedHeap Q K) (now period : Nat) : Nat :=
  ((contents h.heap).map fun t => rounds now period t.deadline).sum

theorem rounds_pos (period : Nat) {d : Nat} (hd : d ≤ now) : 0 < rounds now period d := by
  rw [rounds, if_pos hd]
  exact Nat.succ_pos _

theorem rounds_later_lt (hperiod : 0 < period) (hdue : t.deadline ≤ now) :
    rounds now period (t.later period 1).deadline < rounds now period t.deadline := by
  simp only [rounds, Timeout.later, Nat.one_mul]
  rw [if_pos hdue]
  split_ifs with hlater
  · have hdiv := Nat.div_eq_sub_div hperiod (show period ≤ now - t.deadline by omega)
    rw [Nat.sub_sub] at hdiv
    omega
  · exact Nat.succ_pos _

theorem popLoop_contents_le (fuel : Nat) (h : TimedHeap Q K) (r : Timeout K × TimedHeap Q K)
    (hr : popLoop now fuel h = some r) (hdata : r.1.data ≠ none) : r.1 ::ₘ contents r.2.heap ≤ contents h.heap := by
  induction fuel generalizing h with
  | zero => simp [popLoop] at hr
  | succ fuel ih =>
    unfold popLoop at hr
    split at hr
    · rw [Option.some.injEq] at hr
      subst hr
      exact absurd rfl hdata
    · rename_i timeout htop
      have hpop := MinQueue.contents_pop h.heap timeout htop
      split_ifs at hr
      · rw [Option.some.injEq] at hr
        subst hr
        exact hpop.ge
      · rw [Option.some.injEq] at hr
        subst hr
        exact absurd rfl hdata
      · refine (ih _ hr).trans ?_
        rw [hpop]
        exact Multiset.le_cons_self _ _

theorem Clear.unmistakable (hc : h.Clear period) (now : Nat) : h.Unmistakable now := by
  intro u hu _ heq
  obtain ⟨k, hk⟩ := Option.ne_none_iff_exists'.mp (hc.inv.keyed u hu)
  rw [hk] at heq ⊢
  obtain ⟨live, hlive, hsame⟩ :=
    Option.map_eq_some_iff.mp (getDefault_deadline_pos (hc.positive u hu) (of_decide_eq_true heq))
  have hresidue : residue period live = residue period u := by
    rw [residue, residue, hc.inv.owned k live hlive, hk, hsame]
  have hlive' : live = u := Multiset.inj_on_of_nodup_map hc.separate live (hc.inv.queued k live hlive) u hu hresidue
  simp only [getDefault, Option.bind_some, hlive, Option.getD_some, hlive']

theorem Clear.of_le (hc : h.Clear period) (hi : h'.Inv) (hle : contents h'.heap ≤ contents h.heap) : h'.Clear period where
  inv := hi
  positive t ht := hc.positive t (Multiset.mem_of_le hle ht)
  separate := Multiset.nodup_of_le (Multiset.map_le_map hle) hc.separate

theorem Clear.push_later (hc : h.Clear period) (hi : h'.Inv) (hle : t ::ₘ contents h'.heap ≤ contents h.heap) :
    (h'.push (t.later period 1)).Clear period := by
  have hc' : h'.Clear period := hc.of_le hi ((Multiset.le_cons_self _ t).trans hle)
  have hpos : 0 < t.deadline := hc.positive t (Multiset.mem_of_le hle (Multiset.mem_cons_self t _))
  refine ⟨hi.push _, hc'.positive.push ?_, ?_⟩
  · exact Nat.lt_of_lt_of_le hpos (Nat.le_add_right _ _)
  · have hnodup : ((t ::ₘ contents h'.heap).map (residue period)).Nodup :=
      Multiset.nodup_of_le (Multiset.map_le_map hle) hc.separate
    unfold Separate TimedHeap.push
    split
    · exact hc'.separate
    · rwa [MinQueue.contents_push, Multiset.map_cons, residue_later, ← Multiset.map_cons]

theorem Inv.foldl_push (hi : h.Inv) (ts : List (Timeout K)) : (ts.foldl TimedHeap.push h).Inv := by
  induction ts generalizing h with
  | nil => exact hi
  | cons t ts ih => exact ih (hi.push t)

theorem map_push {k : K} (hdata : t.data = some k) : (h.push t).map = Function.update h.map k (some t) := by
  simp only [TimedHeap.push, hdata]

theorem work_cons_le (now period : Nat) (hle : t ::ₘ contents h'.heap ≤ contents h.heap) :
    rounds now period t.deadline + h'.work now period ≤ h.work now period := by
  obtain ⟨rest, hrest⟩ := Multiset.le_iff_exists_add.mp hle
  unfold work
  rw [hrest, Multiset.map_add, Multiset.sum_add, Multiset.map_cons, Multiset.sum_cons]
  exact Nat.le_add_right _ _

theorem work_push_le (h : TimedHeap Q K) (now period : Nat) (t : Timeout K) :
    (h.push t).work now period ≤ rounds now period t.deadline + h.work now period := by
  unfold TimedHeap.push
  split
  · exact Nat.le_add_left _ _
  · unfold work
    rw [MinQueue.contents_push, Multiset.map_cons, Multiset.sum_cons]

end TimedHeap

/-! ### The pass -/

namespace EventLoop

variable {Q : Type} [MinQueue Q (Timeout Nat) Timeout.deadline] {l : EventLoop Q} {now : Nat} {t : Timeout Nat}

/-- A turn that found something due: the timeout that `pop` returned, and what `Socket::count()` was. -/
structure Turn where
  timeout : Timeout Nat
  count : Nat
  deriving DecidableEq, Repr

/-- The test of the turn: the timeout is pushed again, else its event goes to `onTimeout`. -/
def Turn.Prolongs (u : Turn) : Prop := u.timeout.repeats = true ∧ u.count < Event.lcount

instance (u : Turn) : Decidable u.Prolongs := inferInstanceAs (Decidable (_ ∧ _))

/-- The loop of `checkTimeoutEvent`, at most `fuel` turns of it, with the turns that found something due.
Sockets come and go meanwhile, in other threads and in `onTimeout` itself: `count i` is the number of them
when the turn `i` looks. -/
def checkTimeouts (now : Nat) : Nat → (Nat → Nat) → EventLoop Q → Option (EventLoop Q × List Turn)
  | 0, _, _ => none
  | fuel + 1, count, l =>
    match l.checkTimeoutEvent now (count 0 < Event.lcount) with
    | (l', false) => some (l', [])
    | (l', true) => (checkTimeouts now fuel (fun i => count (i + 1)) l').map fun r =>
        (r.1, ⟨(l.deadlineHeap.pop now).1, count 0⟩ :: r.2)

/-- The turns of one event. -/
def turnsOf (turns : List Turn) (e : Nat) : List Turn := turns.filter fun u => u.timeout.data = some e

/-- How often `onTimeout` was called for the event. -/
def onTimeouts (turns : List Turn) (e : Nat) : Nat := (turnsOf turns e).countP fun u => ¬ u.Prolongs

theorem expire_deadlineHeap (e : Nat) : (l.expire e).deadlineHeap = l.deadlineHeap.erase (some e) := by
  simp only [expire, onTimeout, closePeer]
  split_ifs
  · simp [removeEvent, pollRemove, eraseDeadline]
  · simp [removeEvent, pollRemove, eraseDeadline]

/-! ### What `onTimeout` does -/

/-- One call of `onTimeout`: the event of a client fails and is passed to `Actor::execute`, another one is deleted,
and either is off the poll. It is not used after it was deleted. -/
structure TimedOut (l l' : EventLoop Q) (e : Nat) : Prop where
  event : l'.events e = (l.events e).setType (if (l.events e).role = .client then .fail else .timeout)
  executed : l'.executed.count e = l.executed.count e + if (l.events e).role = .client then 1 else 0
  deleted : l'.deleted.count e = l.deleted.count e + if (l.events e).role = .client then 0 else 1
  registered : e ∉ l'.registered
  misused : e ∉ l.deleted → l'.misused.count e = l.misused.count e

/-- The loop has done nothing to the event. -/
structure Untouched (l l' : EventLoop Q) (e : Nat) : Prop where
  event : l'.events e = l.events e
  executed : l'.executed.count e = l.executed.count e
  deleted : l'.deleted.count e = l.deleted.count e
  registered : e ∈ l'.registered ↔ e ∈ l.registered
  misused : l'.misused.count e = l.misused.count e

variable {l₁ l₂ : EventLoop Q} {e : Nat}

theorem Untouched.refl (l : EventLoop Q) (e : Nat) : Untouched l l e := ⟨rfl, rfl, rfl, Iff.rfl, rfl⟩

theorem Untouched.trans (h : Untouched l l₁ e) (h₁ : Untouched l₁ l₂ e) : Untouched l l₂ e where
  event := h₁.event.trans h.event
  executed := h₁.executed.trans h.executed
  deleted := h₁.deleted.trans h.deleted
  registered := h₁.registered.trans h.registered
  misused := h₁.misused.trans h.misused

theorem Untouched.mem_deleted (h : Untouched l l₁ e) : e ∈ l₁.deleted ↔ e ∈ l.deleted := by
  rw [← List.count_pos_iff, ← List.count_pos_iff, h.deleted]

theorem Untouched.timedOut (h : Untouched l l₁ e) (h₁ : TimedOut l₁ l₂ e) : TimedOut l l₂ e where
  event := by rw [h₁.event, h.event]
  executed := by rw [h₁.executed, h.executed, h.event]
  deleted := by rw [h₁.deleted, h.deleted, h.event]
  registered := h₁.registered
  misused hnot := (h₁.misused (h.mem_deleted.not.mpr hnot)).trans h.misused

theorem TimedOut.untouched (h : TimedOut l l₁ e) (h₁ : Untouched l₁ l₂ e) : TimedOut l l₂ e where
  event := h₁.event.trans h.event
  executed := h₁.executed.trans h.executed
  deleted := h₁.deleted.trans h.deleted
  registered := h₁.registered.not.mpr h.registered
  misused hnot := h₁.misused.trans (h.misused hnot)

theorem access_untouched {x : Nat} (hx : x ≠ e) : Untouched l (l.access e) x := by
  unfold access
  split_ifs
  · refine ⟨rfl, rfl, rfl, Iff.rfl, ?_⟩
    rw [List.count_append, List.count_singleton, if_neg (by simpa using Ne.symm hx), Nat.add_zero]
  · exact .refl l x

theorem modify_untouched (f : Event → Event) {x : Nat} (hx : x ≠ e) : Untouched l (l.modify e f) x :=
  (access_untouched hx).trans ⟨by simp [modify, hx], rfl, rfl, Iff.rfl, rfl⟩

theorem removeEvent_untouched {x : Nat} (hx : x ≠ e) : Untouched l (l.removeEvent e) x :=
  (access_untouched hx).trans ⟨rfl, rfl, rfl, by simp [removeEvent, pollRemove, eraseDeadline, hx], rfl⟩

theorem execute_untouched {x : Nat} (hx : x ≠ e) : Untouched l (l.execute e) x := by
  refine (access_untouched hx).trans ⟨rfl, ?_, rfl, Iff.rfl, rfl⟩
  simp [execute, List.count_append, Ne.symm hx]

theorem delete_untouched {x : Nat} (hx : x ≠ e) : Untouched l (l.delete e) x := by
  refine (access_untouched hx).trans ⟨rfl, rfl, ?_, Iff.rfl, rfl⟩
  simp [delete, Ne.symm hx]

theorem expire_untouched {x : Nat} (hx : x ≠ e) : Untouched l (l.expire e) x := by
  have hclose : Untouched l ((((l.setType e .timeout).access e).removeEvent e).access e) x :=
    (((modify_untouched _ hx).trans (access_untouched hx)).trans (removeEvent_untouched hx)).trans (access_untouched hx)
  simp only [expire, onTimeout, closePeer]
  split_ifs
  · exact (hclose.trans (modify_untouched _ hx)).trans (execute_untouched hx)
  · exact hclose.trans (delete_untouched hx)

theorem expire_timedOut (l : EventLoop Q) (e : Nat) : TimedOut l (l.expire e) e := by
  have hrole : ((l.setType e .timeout).events e).role = (l.events e).role := by
    simp [setType, modify, Event.setType]
  simp only [expire, onTimeout, closePeer, access_events, removeEvent_events, hrole]
  split_ifs with hclient
  · constructor
    case event => simp [hclient, execute, setType, modify, removeEvent_events, Event.setType]
    case executed => simp [hclient, execute, setType, modify, removeEvent, pollRemove, eraseDeadline]
    case deleted => simp [hclient, execute, setType, modify, removeEvent, pollRemove, eraseDeadline]
    case registered => simp [execute, setType, modify, removeEvent, pollRemove]
    case misused =>
      intro hlive
      simp [execute, setType, modify, removeEvent, pollRemove, eraseDeadline, access, hlive]
  · constructor
    case event => simp [hclient, delete, setType, modify, removeEvent_events, Event.setType]
    case executed => simp [hclient, delete, setType, modify, removeEvent, pollRemove, eraseDeadline]
    case deleted => simp [hclient, delete, setType, modify, removeEvent, pollRemove, eraseDeadline]
    case registered => simp [delete, setType, modify, removeEvent, pollRemove]
    case misused =>
      intro hlive
      simp [delete, setType, modify, removeEvent, pollRemove, eraseDeadline, access, hlive]

theorem later_one (hnow : now < 2 ^ 63) (hdue : t.deadline ≤ now) :
    { t with deadline := (t.deadline + Event.ltimeout) % 2 ^ 64 } = t.later Event.ltimeout 1 := by
  have hsum : t.deadline + Event.ltimeout < 2 ^ 64 := by
    unfold Event.ltimeout
    omega
  rw [Timeout.later, Nat.mod_eq_of_lt hsum, Nat.one_mul]

theorem checkTimeoutEvent_of_due {e : Nat} (few : Bool) (hpop : (l.deadlineHeap.pop now).1 = t) (hdata : t.data = some e) :
    (l.checkTimeoutEvent now few).2 = true ∧ (l.checkTimeoutEvent now few).1.deadlineHeap =
      if t.repeats ∧ few then
        (l.deadlineHeap.pop now).2.push { t with deadline := (t.deadline + Event.ltimeout) % 2 ^ 64 }
      else (l.deadlineHeap.pop now).2.erase (some e) := by
  obtain ⟨data, deadline, repeats⟩ := t
  subst hdata
  simp only [checkTimeoutEvent, hpop]
  split_ifs
  · exact ⟨rfl, rfl⟩
  · exact ⟨rfl, expire_deadlineHeap e⟩

/-- The ways through a turn: nothing is due, the timeout that `pop` returned is prolonged, or `onTimeout` is called. -/
theorem checkTimeoutEvent_ways {few more : Bool} (hturn : l.checkTimeoutEvent now few = (l₁, more)) :
    (l.deadlineHeap.pop now).1.data = none ∧ more = false ∧ l₁ = { l with deadlineHeap := (l.deadlineHeap.pop now).2 } ∨
    ∃ e, (l.deadlineHeap.pop now).1.data = some e ∧ more = true ∧
      (((l.deadlineHeap.pop now).1.repeats ∧ few) ∧ (∃ h, l₁ = { l with deadlineHeap := h }) ∨
        ¬ ((l.deadlineHeap.pop now).1.repeats ∧ few) ∧
          l₁ = expire { l with deadlineHeap := (l.deadlineHeap.pop now).2 } e) := by
  unfold checkTimeoutEvent at hturn
  cases hdata : (l.deadlineHeap.pop now).1.data with
  | none =>
    simp only [hdata, Prod.mk.injEq] at hturn
    exact Or.inl ⟨rfl, hturn.2.symm, hturn.1.symm⟩
  | some e =>
    simp only [hdata] at hturn
    split_ifs at hturn with hprolongs
    · rw [Prod.mk.injEq] at hturn
      exact Or.inr ⟨e, rfl, hturn.2.symm, Or.inl ⟨hprolongs, _, hturn.1.symm⟩⟩
    · rw [Prod.mk.injEq] at hturn
      exact Or.inr ⟨e, rfl, hturn.2.symm, Or.inr ⟨hprolongs, hturn.1.symm⟩⟩

theorem untouched_deadlineHeap (h : TimedHeap Q Nat) (x : Nat) : Untouched l { l with deadlineHeap := h } x :=
  ⟨rfl, rfl, rfl, Iff.rfl, rfl⟩

theorem checkTimeoutEvent_untouched {few more : Bool} (hturn : l.checkTimeoutEvent now few = (l₁, more)) {x : Nat}
    (hx : (l.deadlineHeap.pop now).1.data = some x → (l.deadlineHeap.pop now).1.repeats ∧ few) : Untouched l l₁ x := by
  rcases checkTimeoutEvent_ways hturn with ⟨-, -, rfl⟩ | ⟨e, hdata, -, ⟨-, h, rfl⟩ | ⟨hcloses, rfl⟩⟩
  · exact untouched_deadlineHeap _ x
  · exact untouched_deadlineHeap h x
  · have hxe : x ≠ e := by
      rintro rfl
      exact hcloses (hx hdata)
    exact (untouched_deadlineHeap _ x).trans (expire_untouched hxe)

theorem checkTimeoutEvent_timedOut {few more : Bool} (hturn : l.checkTimeoutEvent now few = (l₁, more)) {x : Nat}
    (hx : (l.deadlineHeap.pop now).1.data = some x) (hcloses : ¬ ((l.deadlineHeap.pop now).1.repeats ∧ few)) :
    TimedOut l l₁ x := by
  rcases checkTimeoutEvent_ways hturn with ⟨hdata, -, -⟩ | ⟨e, hdata, -, ⟨hprolongs, -⟩ | ⟨-, rfl⟩⟩
  · rw [hdata] at hx
    cases hx
  · exact absurd hprolongs hcloses
  · rw [hdata, Option.some.injEq] at hx
    subst hx
    exact (untouched_deadlineHeap _ e).timedOut (expire_timedOut _ e)

/-- **What a turn can do.** It finds nothing due, changes no live timeout and is the last one; or it takes the
live timeout of one event, prolongs it or leaves the event without one, and there is less work for the rest. -/
theorem checkTimeoutEvent_cases (hc : l.deadlineHeap.Clear Event.ltimeout) (hnow : now < 2 ^ 63) (count : Nat) :
    (∃ l', l.checkTimeoutEvent now (count < Event.lcount) = (l', false) ∧ l'.deadlineHeap.map = l.deadlineHeap.map ∧
      ∀ e t, l.deadlineHeap.map e = some t → now < t.deadline) ∨
    ∃ e t l', l.checkTimeoutEvent now (count < Event.lcount) = (l', true) ∧ (l.deadlineHeap.pop now).1 = t ∧
      t.data = some e ∧ l.deadlineHeap.map e = some t ∧ t.deadline ≤ now ∧
      l'.deadlineHeap.map = Function.update l.deadlineHeap.map e
        (if (⟨t, count⟩ : Turn).Prolongs then some (t.later Event.ltimeout 1) else none) ∧
      l'.deadlineHeap.Clear Event.ltimeout ∧
      l'.deadlineHeap.work now Event.ltimeout < l.deadlineHeap.work now Event.ltimeout := by
  have hi := hc.inv.pop now
  rcases hc.inv.pop_live (hc.unmistakable now) with ⟨hdata, hmap, hlive⟩ | ⟨e, t, hpop, hdata, hdue, hlive, hmap⟩
  · refine Or.inl ⟨{ l with deadlineHeap := (l.deadlineHeap.pop now).2 }, ?_, hmap, hlive⟩
    simp only [checkTimeoutEvent, hdata]
  · obtain ⟨hmore, hheap⟩ := checkTimeoutEvent_of_due (decide (count < Event.lcount)) hpop hdata
    refine Or.inr ⟨e, t, _, Prod.ext rfl hmore, hpop, hdata, hlive, hdue, ?_⟩
    have hle : t ::ₘ contents (l.deadlineHeap.pop now).2.heap ≤ contents l.deadlineHeap.heap := by
      rw [← hpop]
      refine TimedHeap.popLoop_contents_le _ l.deadlineHeap _ (TimedHeap.popLoop_eq_pop l.deadlineHeap now) ?_
      rw [hpop, hdata]
      exact Option.some_ne_none e
    have hwork := TimedHeap.work_cons_le now Event.ltimeout hle
    rw [hheap, later_one hnow hdue]
    by_cases hprolongs : (⟨t, count⟩ : Turn).Prolongs
    · rw [if_pos hprolongs, if_pos ⟨hprolongs.1, decide_eq_true hprolongs.2⟩]
      refine ⟨?_, hc.push_later hi hle, ?_⟩
      · rw [TimedHeap.map_push (show (t.later Event.ltimeout 1).data = some e from hdata), hmap, Function.update_idem]
      · have hless := TimedHeap.rounds_later_lt (show 0 < Event.ltimeout by decide) hdue
        have hpush := TimedHeap.work_push_le (l.deadlineHeap.pop now).2 now Event.ltimeout (t.later Event.ltimeout 1)
        omega
    · rw [if_neg hprolongs, if_neg fun h => hprolongs ⟨h.1, of_decide_eq_true h.2⟩]
      refine ⟨?_, hc.of_le (hi.erase _) ((Multiset.le_cons_self _ _).trans hle), ?_⟩
      · show Function.update (l.deadlineHeap.pop now).2.map e none = _
        rw [hmap, Function.update_idem]
      · have hpos := TimedHeap.rounds_pos Event.ltimeout hdue
        show (l.deadlineHeap.pop now).2.work now Event.ltimeout < _
        omega

/-! ### The story of one event -/

/-- What a pass does to one event: its live timeout before, its turns, and its live timeout after them. -/
inductive Outcome (now : Nat) : Option (Timeout Nat) → List Turn → Option (Timeout Nat) → Prop
  | idle (live : Option (Timeout Nat)) (hlater : ∀ t, live = some t → now < t.deadline) : Outcome now live [] live
  | closed (t : Timeout Nat) (count : Nat) (hdue : t.deadline ≤ now) (hclosed : ¬ (⟨t, count⟩ : Turn).Prolongs) :
      Outcome now (some t) [⟨t, count⟩] none
  | prolonged (t : Timeout Nat) (count : Nat) (hdue : t.deadline ≤ now) (hprolongs : (⟨t, count⟩ : Turn).Prolongs)
      (rest : List Turn) (after : Option (Timeout Nat)) (hrest : Outcome now (some (t.later Event.ltimeout 1)) rest after) :
      Outcome now (some t) (⟨t, count⟩ :: rest) after

namespace Outcome

variable {live after : Option (Timeout Nat)} {us : List Turn}

theorem of_not_due (h : Outcome now live us after) (hlater : ∀ t, live = some t → now < t.deadline) :
    us = [] ∧ after = live := by
  cases h with
  | idle _ _ => exact ⟨rfl, rfl⟩
  | closed t _ hdue _ => exact absurd (hlater t rfl) (by omega)
  | prolonged t _ hdue _ _ _ _ => exact absurd (hlater t rfl) (by omega)

theorem later_later (t : Timeout Nat) (n : Nat) :
    (t.later Event.ltimeout 1).later Event.ltimeout n = t.later Event.ltimeout (n + 1) := by
  simp only [Timeout.later, Nat.one_mul, Nat.add_mul]
  congr 1
  omega

theorem turn_eq (h : Outcome now live us after) (u : Turn) (hu : u ∈ us) :
    ∃ t n, live = some t ∧ t.deadline ≤ now ∧ u.timeout = t.later Event.ltimeout n := by
  induction h with
  | idle _ _ => cases hu
  | closed t count hdue _ =>
    obtain rfl := List.mem_singleton.mp hu
    exact ⟨t, 0, rfl, hdue, by simp [Timeout.later]⟩
  | prolonged t count hdue _ rest after _ ih =>
    rcases List.mem_cons.mp hu with rfl | hu
    · exact ⟨t, 0, rfl, hdue, by simp [Timeout.later]⟩
    · obtain ⟨t', n, ht', -, hn⟩ := ih hu
      rw [Option.some.injEq] at ht'
      subst ht'
      exact ⟨t, n + 1, rfl, hdue, by rw [hn, later_later]⟩

/-- A due event is prolonged in each of its turns and has a later deadline, or its last turn calls `onTimeout`
and it has none. -/
theorem of_due (h : Outcome now live us after) (t : Timeout Nat) (ht : live = some t) (hdue : t.deadline ≤ now) :
    (t.repeats = true ∧ (∀ u ∈ us, u.Prolongs) ∧ us.countP (fun u => ¬ u.Prolongs) = 0 ∧
      ∃ n, 0 < n ∧ after = some (t.later Event.ltimeout n)) ∨
    ((∃ u ∈ us, ¬ u.Prolongs) ∧ us.countP (fun u => ¬ u.Prolongs) = 1 ∧ after = none) := by
  induction h generalizing t with
  | idle _ hlater => exact absurd (hlater t ht) (by omega)
  | closed t' count _ hclosed =>
    refine Or.inr ⟨⟨_, List.mem_singleton_self _, hclosed⟩, ?_, rfl⟩
    simp [hclosed]
  | prolonged t' count _ hprolongs rest after hrest ih =>
    rw [Option.some.injEq] at ht
    subst ht
    have hcount : (⟨t', count⟩ :: rest).countP (fun u => ¬ u.Prolongs) = rest.countP fun u => ¬ u.Prolongs :=
      List.countP_cons_of_neg (by simpa using hprolongs)
    rw [hcount]
    by_cases hlater : (t'.later Event.ltimeout 1).deadline ≤ now
    · rcases ih _ rfl hlater with ⟨hrep, hall, hzero, n, hn, hafter⟩ | ⟨⟨u, hu, hno⟩, hone, hafter⟩
      · refine Or.inl ⟨hrep, List.forall_mem_cons.mpr ⟨hprolongs, hall⟩, hzero, n + 1, Nat.succ_pos n, ?_⟩
        rw [hafter, later_later]
      · exact Or.inr ⟨⟨u, List.mem_cons_of_mem _ hu, hno⟩, hone, hafter⟩
    · obtain ⟨rfl, rfl⟩ := hrest.of_not_due fun t ht => by
        rw [Option.some.injEq] at ht
        subst ht
        omega
      refine Or.inl ⟨hprolongs.1, List.forall_mem_cons.mpr ⟨hprolongs, fun u hu => by cases hu⟩, rfl, 1, Nat.one_pos, rfl⟩

end Outcome

/-! ### The whole pass -/

theorem turnsOf_cons (u : Turn) (turns : List Turn) (e : Nat) :
    turnsOf (u :: turns) e = if u.timeout.data = some e then u :: turnsOf turns e else turnsOf turns e := by
  simp [turnsOf, List.filter_cons]

theorem onTimeouts_cons (u : Turn) (turns : List Turn) (e : Nat) :
    onTimeouts (u :: turns) e = onTimeouts turns e + if u.timeout.data = some e ∧ ¬ u.Prolongs then 1 else 0 := by
  unfold onTimeouts
  rw [turnsOf_cons]
  by_cases hdata : u.timeout.data = some e
  · rw [if_pos hdata, List.countP_cons]
    simp [hdata]
  · rw [if_neg hdata, if_neg fun h => hdata h.1, Nat.add_zero]

theorem checkTimeouts_touched {now fuel : Nat} {count : Nat → Nat} {l l' : EventLoop Q} {turns : List Turn}
    (hrun : checkTimeouts now fuel count l = some (l', turns)) (e : Nat) :
    (onTimeouts turns e = 0 → Untouched l l' e) ∧ (onTimeouts turns e = 1 → TimedOut l l' e) := by
  induction fuel generalizing count l turns with
  | zero => cases hrun
  | succ fuel ih =>
    unfold checkTimeouts at hrun
    split at hrun
    · rename_i l₁ hturn
      cases hrun
      rcases checkTimeoutEvent_ways hturn with ⟨hdata, -, -⟩ | ⟨-, -, hmore, -⟩
      · exact ⟨fun _ => checkTimeoutEvent_untouched hturn fun hx => by simp [hdata] at hx, nofun⟩
      · cases hmore
    · rename_i l₁ hturn
      obtain ⟨⟨l₂, rest⟩, hrest, heq⟩ := Option.map_eq_some_iff.mp hrun
      cases heq
      obtain ⟨huntouched, htimedOut⟩ := ih hrest
      rw [onTimeouts_cons]
      by_cases hcalls : (l.deadlineHeap.pop now).1.data = some e ∧
          ¬ ((l.deadlineHeap.pop now).1.repeats ∧ decide (count 0 < Event.lcount) = true)
      · -- the one call for the event is made in this turn
        have hone := checkTimeoutEvent_timedOut hturn hcalls.1 hcalls.2
        rw [if_pos (by simpa [Turn.Prolongs] using hcalls)]
        exact ⟨fun h => absurd h (Nat.succ_ne_zero _), fun h => hone.untouched (huntouched (Nat.succ.inj h))⟩
      · have hnone := checkTimeoutEvent_untouched hturn (x := e) fun hdata => not_not.mp fun h => hcalls ⟨hdata, h⟩
        rw [if_neg (by simpa [Turn.Prolongs] using hcalls), Nat.add_zero]
        exact ⟨fun h => hnone.trans (huntouched h), fun h => hnone.timedOut (htimedOut h)⟩

theorem checkTimeouts_outcomes (hnow : now < 2 ^ 63) (count : Nat → Nat) (l : EventLoop Q)
    (hc : l.deadlineHeap.Clear Event.ltimeout) :
    ∃ l' turns, (∀ fuel, l.deadlineHeap.work now Event.ltimeout < fuel → checkTimeouts now fuel count l = some (l', turns)) ∧
      (∀ e t, l'.deadlineHeap.map e = some t → now < t.deadline) ∧ (∀ u ∈ turns, ∃ e, u.timeout.data = some e) ∧
      ∀ e, Outcome now (l.deadlineHeap.map e) (turnsOf turns e) (l'.deadlineHeap.map e) := by
  induction hw : l.deadlineHeap.work now Event.ltimeout using Nat.strong_induction_on generalizing count l with
  | h w ih =>
    rcases checkTimeoutEvent_cases hc hnow (count 0) with
      ⟨l', hturn, hmap, hlater⟩ | ⟨e, t, l₁, hturn, hpop, hdata, hlive, hdue, hmap, hc₁, hless⟩
    · refine ⟨l', [], fun fuel hfuel => ?_, ?_, nofun, fun e => ?_⟩
      · obtain ⟨fuel, rfl⟩ := Nat.exists_eq_succ_of_ne_zero (show fuel ≠ 0 by omega)
        simp only [checkTimeouts, hturn]
      · rwa [hmap]
      · rw [hmap]
        exact .idle _ (hlater e)
    · obtain ⟨l', turns, hrun, hpast, hnamed, hout⟩ := ih _ (hw ▸ hless) (fun i => count (i + 1)) l₁ hc₁ rfl
      refine ⟨l', ⟨t, count 0⟩ :: turns, fun fuel hfuel => ?_, hpast, List.forall_mem_cons.mpr ⟨⟨e, hdata⟩, hnamed⟩, fun x => ?_⟩
      · obtain ⟨fuel, rfl⟩ := Nat.exists_eq_succ_of_ne_zero (show fuel ≠ 0 by omega)
        simp only [checkTimeouts, hturn, hrun fuel (by omega), Option.map_some, hpop]
      · have hx := hout x
        rw [hmap] at hx
        rw [turnsOf_cons]
        by_cases hxe : x = e
        · subst hxe
          rw [Function.update_self] at hx
          rw [if_pos hdata, hlive]
          split_ifs at hx with hprolongs
          · exact .prolonged t _ hdue hprolongs _ _ hx
          · -- without a live timeout the event has no further turn
            obtain ⟨hnil, hafter⟩ := hx.of_not_due fun t ht => by cases ht
            rw [hnil, hafter]
            exact .closed t _ hdue hprolongs
        · rw [Function.update_of_ne hxe] at hx
          rwa [if_neg (show t.data ≠ some x by rw [hdata, Ne, Option.some.injEq]; exact Ne.symm hxe)]

/-- The live deadline of the event is not later than the clock. -/
def Due (now : Nat) (h : TimedHeap Q Nat) (e : Nat) : Prop := ∃ t, h.map e = some t ∧ t.deadline ≤ now

/-- The event has a live deadline before and after, and a later one after. -/
def Extended (h h' : TimedHeap Q Nat) (e : Nat) : Prop :=
  ∃ t t', h.map e = some t ∧ h'.map e = some t' ∧ t.deadline < t'.deadline

/-- What a pass does, from the heap before it to the heap after it. -/
structure ExactHeap (now : Nat) (h h' : TimedHeap Q Nat) (turns : List Turn) : Prop where
  /-- No live deadline is due afterwards. -/
  past : ∀ e t, h'.map e = some t → now < t.deadline
  /-- One turn closes each due event that is not extended, and no turn another one. -/
  once : ∀ e, Due now h e → ¬ Extended h h' e → onTimeouts turns e = 1
  no_other : ∀ e, ¬ (Due now h e ∧ ¬ Extended h h' e) → onTimeouts turns e = 0
  /-- An extended event was due, its live timeout is repeated, and a multiple of `LTIMEOUT` puts it past the clock. -/
  extended : ∀ e, Extended h h' e → ∃ t n, h.map e = some t ∧ t.deadline ≤ now ∧ t.repeats = true ∧ 0 < n ∧
    h'.map e = some (t.later Event.ltimeout n) ∧ now < (t.later Event.ltimeout n).deadline
  /-- A repeated event that is due is extended unless the connections have reached `LCOUNT` in a turn of it. -/
  extended_iff : ∀ e t, h.map e = some t → t.deadline ≤ now → t.repeats = true →
    (Extended h h' e ↔ ∀ u ∈ turns, u.timeout.data = some e → u.count < Event.lcount)
  /-- A due event that is not extended is closed and has no live deadline any more. -/
  closed : ∀ e, Due now h e → ¬ Extended h h' e → h'.map e = none
  /-- Nothing happens to an event that is not due. -/
  unchanged : ∀ e, ¬ Due now h e → h'.map e = h.map e
  /-- Every turn looks at the live timeout of a due event, or at a prolongation of it with its flag. -/
  live : ∀ u ∈ turns, ∃ e t n, u.timeout.data = some e ∧ h.map e = some t ∧ t.deadline ≤ now ∧
    u.timeout = t.later Event.ltimeout n

/-- What a pass does to the loop: each due event that is not extended went through `onTimeout` once, and nothing was
done to another one. -/
structure ExactPass (now : Nat) (l l' : EventLoop Q) (turns : List Turn) : Prop
    extends ExactHeap now l.deadlineHeap l'.deadlineHeap turns where
  timedOut : ∀ e, Due now l.deadlineHeap e → ¬ Extended l.deadlineHeap l'.deadlineHeap e → TimedOut l l' e
  untouched : ∀ e, ¬ (Due now l.deadlineHeap e ∧ ¬ Extended l.deadlineHeap l'.deadlineHeap e) → Untouched l l' e

variable {h h' : TimedHeap Q Nat} {turns : List Turn} {e : Nat}

theorem mem_turnsOf {u : Turn} : u ∈ turnsOf turns e ↔ u ∈ turns ∧ u.timeout.data = some e := by
  simp [turnsOf]

theorem Outcome.of_not_Due (ho : Outcome now (h.map e) (turnsOf turns e) (h'.map e)) (hdue : ¬ Due now h e) :
    turnsOf turns e = [] ∧ h'.map e = h.map e :=
  ho.of_not_due fun t ht => Nat.lt_of_not_le fun hle => hdue ⟨t, ht, hle⟩

/-- What the story of a due event says about the pass: it is extended and all of its turns prolong it, or it
is closed by one call of `onTimeout`. -/
theorem Outcome.of_Due (ho : Outcome now (h.map e) (turnsOf turns e) (h'.map e)) {t : Timeout Nat} (ht : h.map e = some t)
    (hdue : t.deadline ≤ now) :
    (Extended h h' e ∧ t.repeats = true ∧ (∀ u ∈ turnsOf turns e, u.Prolongs) ∧ onTimeouts turns e = 0 ∧
      ∃ n, 0 < n ∧ h'.map e = some (t.later Event.ltimeout n)) ∨
    (¬ Extended h h' e ∧ (∃ u ∈ turnsOf turns e, ¬ u.Prolongs) ∧ onTimeouts turns e = 1 ∧ h'.map e = none) := by
  rcases ho.of_due t ht hdue with ⟨hrep, hall, hzero, n, hn, hafter⟩ | ⟨hsome, hone, hafter⟩
  · refine Or.inl ⟨⟨t, _, ht, hafter, ?_⟩, hrep, hall, hzero, n, hn, hafter⟩
    exact t.deadline_lt_later (show 0 < Event.ltimeout by decide) hn
  · refine Or.inr ⟨?_, hsome, hone, hafter⟩
    rintro ⟨_, t', _, ht', _⟩
    rw [hafter] at ht'
    cases ht'

theorem ExactHeap.of_outcomes (hpast : ∀ e t, h'.map e = some t → now < t.deadline)
    (hnamed : ∀ u ∈ turns, ∃ e, u.timeout.data = some e)
    (hout : ∀ e, Outcome now (h.map e) (turnsOf turns e) (h'.map e)) : ExactHeap now h h' turns where
  past := hpast
  once e := by
    rintro ⟨t, ht, hdue⟩ hno
    rcases (hout e).of_Due ht hdue with ⟨hext, -⟩ | ⟨-, -, hone, -⟩
    · exact absurd hext hno
    · exact hone
  no_other e hno := by
    by_cases hdue : Due now h e
    · obtain ⟨t, ht, hle⟩ := hdue
      rcases (hout e).of_Due ht hle with ⟨-, -, -, hzero, -⟩ | ⟨hext, -⟩
      · exact hzero
      · exact absurd ⟨⟨t, ht, hle⟩, hext⟩ hno
    · rw [onTimeouts, ((hout e).of_not_Due hdue).1, List.countP_nil]
  extended e hext := by
    obtain ⟨t, t', ht, ht', hlt⟩ := hext
    have hdue : t.deadline ≤ now := by
      by_contra hlater
      have hsame := ((hout e).of_not_due fun u hu => by
        rw [ht, Option.some.injEq] at hu
        subst hu
        omega).2
      rw [ht, ht', Option.some.injEq] at hsame
      subst hsame
      omega
    rcases (hout e).of_Due ht hdue with ⟨-, hrep, -, -, n, hn, hafter⟩ | ⟨hno, -⟩
    · exact ⟨t, n, ht, hdue, hrep, hn, hafter, hpast e _ hafter⟩
    · exact absurd ⟨t, t', ht, ht', hlt⟩ hno
  extended_iff e t ht hdue hrep := by
    rcases (hout e).of_Due ht hdue with ⟨hext, -, hall, -⟩ | ⟨hno, ⟨u, hu, hcloses⟩, -⟩
    · exact iff_of_true hext fun u hu he => (hall u (mem_turnsOf.mpr ⟨hu, he⟩)).2
    · refine iff_of_false hno fun hfew => hcloses ⟨?_, ?_⟩
      · obtain ⟨t', n, ht', -, hu'⟩ := (hout e).turn_eq u hu
        rw [ht, Option.some.injEq] at ht'
        rw [hu', Timeout.later_repeats, ← ht', hrep]
      · exact hfew u (mem_turnsOf.mp hu).1 (mem_turnsOf.mp hu).2
  closed e := by
    rintro ⟨t, ht, hdue⟩ hno
    rcases (hout e).of_Due ht hdue with ⟨hext, -⟩ | ⟨-, -, -, hafter⟩
    · exact absurd hext hno
    · exact hafter
  unchanged e hdue := ((hout e).of_not_Due hdue).2
  live u hu := by
    obtain ⟨e, he⟩ := hnamed u hu
    obtain ⟨t, n, ht, hdue, hn⟩ := (hout e).turn_eq u (mem_turnsOf.mpr ⟨hu, he⟩)
    exact ⟨e, t, n, he, ht, hdue, hn⟩

/-- **A timeout pass ends and is exact.** For every heap whose entries, live or stale, have positive deadlines
of which no two of one event are equal or a multiple of `LTIMEOUT` apart, for every clock below `2 ^ 63` and
however the number of connections changes meanwhile: each due event that is not extended fails or is deleted,
once, and the others are as they were. -/
theorem checkTimeouts_exact (l : EventLoop Q) (now : Nat) (count : Nat → Nat) (hinv : l.deadlineHeap.Inv)
    (hpos : l.deadlineHeap.Positive) (hsep : l.deadlineHeap.Separate Event.ltimeout) (hnow : now < 2 ^ 63) :
    ∃ bound l' turns, (∀ fuel, bound < fuel → checkTimeouts now fuel count l = some (l', turns)) ∧
      ExactPass now l l' turns := by
  obtain ⟨l', turns, hrun, hpast, hnamed, hout⟩ := checkTimeouts_outcomes hnow count l ⟨hinv, hpos, hsep⟩
  have hheap := ExactHeap.of_outcomes hpast hnamed hout
  have htouched := checkTimeouts_touched (hrun _ (Nat.lt_succ_self _))
  exact ⟨_, l', turns, hrun, hheap, fun e hdue hno => (htouched e).2 (hheap.once e hdue hno),
    fun e hno => (htouched e).1 (hheap.no_other e hno)⟩

/-- Four events: an idle one with a stale entry from its last request, one that waits for a request, one whose
deadline is still to come, and an idle one that is checked when there are too many connections. -/
def busyHeap : TimedHeap (Lib.SortedQueue (Timeout.deadline (K := Nat))) Nat :=
  [⟨some 1, 900000000, false⟩, ⟨some 1, 1000000000, true⟩, ⟨some 2, 1500000000, false⟩, ⟨some 3, 3000000000, false⟩,
    ⟨some 4, 1900000000, true⟩].foldl TimedHeap.push TimedHeap.empty

/-- The second event is that of a client. -/
def busyLoop : EventLoop (Lib.SortedQueue (Timeout.deadline (K := Nat))) where
  events e := { role := if e = 2 then .client else .server, type := .reading }
  registered := [1, 2, 3, 4]
  deadlineHeap := busyHeap

/-- The first idle event is prolonged twice, the second event and the last one are closed. -/
theorem checkTimeouts_exact_busy :
    ∃ bound l' turns, (∀ fuel, bound < fuel →
        checkTimeouts 2000000000 fuel (fun i => 79997 + i) busyLoop = some (l', turns)) ∧
      ExactPass 2000000000 busyLoop l' turns ∧ (l'.events 2).type = .fail ∧ l'.executed.count 2 = 1 := by
  obtain ⟨bound, l', turns, hrun, hexact⟩ := checkTimeouts_exact busyLoop 2000000000 (fun i => 79997 + i)
    (TimedHeap.inv_empty.foldl_push _) (show ∀ t ∈ contents busyHeap.heap, 0 < t.deadline by decide)
    (show ((contents busyHeap.heap).map (TimedHeap.residue Event.ltimeout)).Nodup by decide) (by decide)
  have hlive : busyLoop.deadlineHeap.map 2 = some ⟨some 2, 1500000000, false⟩ := by decide
  have htimedOut := hexact.timedOut 2 ⟨_, hlive, by decide⟩ fun hext => by
    obtain ⟨t, n, ht, -, hrep, -⟩ := hexact.extended 2 hext
    rw [hlive, Option.some.injEq] at ht
    subst ht
    cases hrep
  exact ⟨bound, l', turns, hrun, hexact, by rw [htimedOut.event]; rfl, htimedOut.executed⟩

end EventLoop

end Raster
