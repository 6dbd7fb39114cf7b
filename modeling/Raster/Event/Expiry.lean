import Raster.Event.Registration

/-!
# Which timeout a check acts on

`EventLoop::checkTimeoutEvent` looks at the `repeat` flag of the entry that `TimedHeap::pop` returns. The
heap compares deadlines only, so an entry that was erased or overwritten, and is still in the queue, passes
for the live one if it has the same deadline. The loop is run here over a queue that also keeps what was
pushed to it, and the flag is compared with the one pushed last.
-/

set_option linter.unusedSectionVars false

namespace Raster

open Lib (MinQueue Logged)
open Lib.MinQueue (contents)

/-! ### The last push -/

namespace TimedHeap

variable {K : Type} [DecidableEq K] {Q : Type} [MinQueue Q (Timeout K) Timeout.deadline]

/-- Every due entry that passes the comparison of `pop` is the live timeout of its key itself. -/
def Unmistakable (h : TimedHeap Q K) (now : Nat) : Prop :=
  ∀ u ∈ contents h.heap, u.deadline ≤ now → (getDefault h.map u.data).eq u → getDefault h.map u.data = u

instance (h : TimedHeap Q K) (now : Nat) : Decidable (h.Unmistakable now) :=
  inferInstanceAs (Decidable (∀ u ∈ contents h.heap, _))

/-- What `pop` does when no entry can be mistaken for another: it finds nothing due and keeps the map, or it
takes a live timeout out of it. -/
theorem Inv.pop_live {h : TimedHeap Q K} (hi : h.Inv) {now : Nat} (hu : h.Unmistakable now) :
    ((h.pop now).1.data = none ∧ (h.pop now).2.map = h.map ∧ ∀ k t, h.map k = some t → now < t.deadline) ∨
    ∃ k t, (h.pop now).1 = t ∧ t.data = some k ∧ t.deadline ≤ now ∧ h.map k = some t ∧
      (h.pop now).2.map = Function.update h.map k none := by
  have hspec := pop_spec h now hi
  revert hspec
  generalize h.pop now = r
  intro hspec
  cases hspec with
  | none h' hmap hnone => exact Or.inl ⟨rfl, hmap, hnone⟩
  | some timeout h' k hkey hmem heq hdue hmin hmap =>
    have hlive := hu timeout hmem hdue (by
      rw [hkey]
      exact decide_eq_true heq)
    rw [hkey] at hlive
    have hk : h.map k = some timeout := by
      cases hmk : h.map k with
      | none =>
        -- the default stands for no key, the entry does not
        simp only [getDefault, Option.bind_some, hmk, Option.getD_none] at hlive
        rw [← hlive] at hkey
        cases hkey
      | some t =>
        simp only [getDefault, Option.bind_some, hmk, Option.getD_some] at hlive
        rw [hlive]
    exact Or.inr ⟨k, timeout, rfl, hkey, hdue, hk, hmap⟩

/-- The timeout pushed last for a key. -/
def lastPushed (h : TimedHeap (Logged Q (Timeout K)) K) (k : K) : Option (Timeout K) :=
  h.heap.pushed.find? fun t => t.data = some k

/-- The live timeout of a key is the one pushed last for it. -/
structure Recorded (h : TimedHeap (Logged Q (Timeout K)) K) : Prop where
  inv : h.Inv
  last : ∀ k t, h.map k = some t → h.lastPushed k = some t

theorem recorded_empty : (empty : TimedHeap (Logged Q (Timeout K)) K).Recorded :=
  ⟨inv_empty, fun k t hk => by simp [empty] at hk⟩

variable {h : TimedHeap (Logged Q (Timeout K)) K}

theorem Recorded.push (hr : h.Recorded) (v : Timeout K) : (h.push v).Recorded := by
  refine ⟨hr.inv.push v, fun k t hk => ?_⟩
  unfold TimedHeap.push at hk ⊢
  split at hk
  · exact hr.last k t hk
  · rename_i k' hdata
    change Function.update h.map k' (some v) k = some t at hk
    show (v :: h.heap.pushed).find? _ = some t
    by_cases hkk : k = k'
    · subst hkk
      rw [Function.update_self, Option.some.injEq] at hk
      rw [List.find?_cons_of_pos (by simp [hdata]), hk]
    · rw [Function.update_of_ne hkk] at hk
      rw [List.find?_cons_of_neg (by simpa [hdata] using Ne.symm hkk)]
      exact hr.last k t hk

theorem Recorded.erase (hr : h.Recorded) (k : Option K) : (h.erase k).Recorded :=
  ⟨hr.inv.erase k, fun k' t hk => hr.last k' t (eraseKey_eq_some.mp hk).2⟩

theorem popLoop_pushed (now fuel : Nat) (h : TimedHeap (Logged Q (Timeout K)) K)
    (r : Timeout K × TimedHeap (Logged Q (Timeout K)) K) (hr : popLoop now fuel h = some r) :
    r.2.heap.pushed = h.heap.pushed := by
  induction fuel generalizing h with
  | zero => simp [popLoop] at hr
  | succ fuel ih =>
    unfold popLoop at hr
    split at hr
    · rw [Option.some.injEq] at hr
      rw [← hr]
    · split_ifs at hr
      · rw [Option.some.injEq] at hr
        rw [← hr]
        rfl
      · rw [Option.some.injEq] at hr
        rw [← hr]
      · exact ih { h with heap := MinQueue.pop h.heap } hr

theorem pop_lastPushed (now : Nat) (k : K) : (h.pop now).2.lastPushed k = h.lastPushed k := by
  unfold lastPushed
  rw [popLoop_pushed now _ h _ (popLoop_eq_pop h now)]

theorem Recorded.pop (hr : h.Recorded) (now : Nat) : (h.pop now).2.Recorded := by
  refine ⟨hr.inv.pop now, fun k t hk => ?_⟩
  rw [pop_lastPushed]
  refine hr.last k t ?_
  have hspec := pop_spec h now hr.inv
  revert hspec hk
  generalize h.pop now = r
  intro hk hspec
  cases hspec with
  | none h' hmap hnone => exact hmap ▸ hk
  | some timeout h' k' hkey hmem heq hdue hmin hmap =>
    rw [hmap] at hk
    exact (eraseKey_eq_some.mp hk).2

/-- What `pop` returns when no entry can be mistaken for another: nothing if nothing is due, else the
timeout pushed last for its key, which is live. -/
theorem Recorded.pop_eq (hr : h.Recorded) {now : Nat} (hu : h.Unmistakable now) :
    ((h.pop now).1.data = none ∧ ∀ k t, h.map k = some t → now < t.deadline) ∨
    ∃ k t, (h.pop now).1 = t ∧ t.data = some k ∧ t.deadline ≤ now ∧ h.map k = some t ∧ h.lastPushed k = some t := by
  rcases hr.inv.pop_live hu with ⟨hdata, -, hnone⟩ | ⟨k, t, hpop, hdata, hdue, hk, -⟩
  · exact Or.inl ⟨hdata, hnone⟩
  · exact Or.inr ⟨k, t, hpop, hdata, hdue, hk, hr.last k t hk⟩

end TimedHeap

/-! ### The heap of the loop -/

namespace EventLoop

variable {Q : Type} [MinQueue Q (Timeout Nat) Timeout.deadline] {l : EventLoop Q} {e : Nat}

/-- What the operations of the heap keep; the loop changes its heap by nothing else. -/
structure HeapClosed (P : TimedHeap Q Nat → Prop) : Prop where
  push : ∀ h t, P h → P (h.push t)
  erase : ∀ h k, P h → P (h.erase k)
  pop : ∀ h now, P h → P (h.pop now).2

variable {P : TimedHeap Q Nat → Prop}

@[simp] theorem modify_deadlineHeap (f : Event → Event) : (l.modify e f).deadlineHeap = l.deadlineHeap :=
  access_deadlineHeap

@[simp] theorem setType_deadlineHeap (type : EventType) : (l.setType e type).deadlineHeap = l.deadlineHeap :=
  access_deadlineHeap

@[simp] theorem delete_deadlineHeap : (l.delete e).deadlineHeap = l.deadlineHeap := access_deadlineHeap

@[simp] theorem execute_deadlineHeap : (l.execute e).deadlineHeap = l.deadlineHeap := access_deadlineHeap

namespace HeapClosed

variable (hP : HeapClosed P)
include hP

theorem pushDeadline (t : Timeout Nat) (h : P l.deadlineHeap) : P (l.pushDeadline t).deadlineHeap :=
  hP.push _ t h

theorem dispatchEvent (h : P l.deadlineHeap) : P (l.dispatchEvent e).deadlineHeap := by
  have hacc : P (l.access e).deadlineHeap := by rwa [access_deadlineHeap]
  have hread : P ((l.access e).addReadEvent e).deadlineHeap := hP.pushDeadline _ hacc
  have hwrite : P ((l.access e).addWriteEvent e).deadlineHeap :=
    hP.pushDeadline ⟨some e, ((l.access e).events e).wdeadline, false⟩ hacc
  simp only [EventLoop.dispatchEvent]
  cases ((l.access e).events e).type with
  | next => exact hread
  | toread => exact hread
  | connect => exact hwrite
  | towrite => exact hwrite
  | _ => exact hacc

theorem removeEvent (h : P l.deadlineHeap) : P (l.removeEvent e).deadlineHeap := by
  refine hP.erase _ _ ?_
  rwa [access_deadlineHeap]

theorem restartEvent (now : Nat) (h : P l.deadlineHeap) : P (l.restartEvent e now).deadlineHeap := by
  refine hP.pushDeadline _ ?_
  rw [modify_deadlineHeap]
  exact hP.erase _ _ h

theorem closePeer (h : P l.deadlineHeap) : P (l.closePeer e).deadlineHeap := by
  have hremoved := hP.removeEvent (e := e) h
  simp only [EventLoop.closePeer]
  split_ifs
  · simpa using hremoved
  · simpa using hremoved

theorem fail (type : EventType) (h : P l.deadlineHeap) :
    P (((l.setType e type).access e).closePeer e).deadlineHeap := by
  refine hP.closePeer ?_
  simpa using h

theorem complete (o : Answers) (h : P l.deadlineHeap) : P (l.complete e o).deadlineHeap := by
  have hremoved : P ((l.removeEvent e).access e).deadlineHeap := by
    rw [access_deadlineHeap]
    exact hP.removeEvent h
  simp only [EventLoop.complete]
  cases (((l.removeEvent e).access e).events e).type with
  | readed =>
    simp only [execute_deadlineHeap]
    split_ifs
    · simpa using hremoved
    · exact hremoved
  | writed =>
    refine hP.dispatchEvent ?_
    split_ifs
    · simpa using hremoved
    · simpa using hremoved
  | _ => exact hremoved

theorem onComplete (o : Answers) (h : P l.deadlineHeap) : P (l.onComplete e o).deadlineHeap := by
  have hacc : P (l.access e).deadlineHeap := by rwa [access_deadlineHeap]
  simp only [EventLoop.onComplete]
  split_ifs
  · exact hP.fail .timeout hacc
  · exact hP.fail .timeout hacc
  · exact hP.complete o hacc

theorem onRead (o : Answers) (h : P l.deadlineHeap) : P (l.onRead e o).deadlineHeap := by
  have hreading : P (l.setType e .reading).deadlineHeap := by rwa [setType_deadlineHeap]
  simp only [EventLoop.onRead]
  cases o.read with
  | error => exact hP.fail .error hreading
  | timeout => exact hP.fail .timeout hreading
  | complete =>
    refine hP.onComplete o ?_
    rwa [setType_deadlineHeap]
  | again => exact hreading
  | closed => exact hP.closePeer hreading

theorem onWrite (o : Answers) (h : P l.deadlineHeap) : P (l.onWrite e o).deadlineHeap := by
  have hwriting : P (l.setType e .writing).deadlineHeap := by rwa [setType_deadlineHeap]
  simp only [EventLoop.onWrite]
  cases o.write with
  | error => exact hP.fail .error hwriting
  | timeout => exact hP.fail .timeout hwriting
  | complete =>
    refine hP.onComplete o ?_
    rwa [setType_deadlineHeap]
  | again => exact hwriting
  | closed => exact hwriting

theorem onListen (o : Answers) (h : P l.deadlineHeap) : P (l.onListen e o).deadlineHeap := by
  unfold EventLoop.onListen
  cases o.accepted with
  | none => exact h
  | some a =>
    simp only
    split_ifs
    · exact hP.fail .timeout h
    · refine hP.dispatchEvent ?_
      rw [setType_deadlineHeap]
      exact h

theorem onConnect (o : Answers) (h : P l.deadlineHeap) : P (l.onConnect e o).deadlineHeap := by
  unfold EventLoop.onConnect
  split_ifs
  · exact hP.fail .timeout h
  · exact hP.fail .error h
  · rwa [setType_deadlineHeap]

theorem handle (o : Answers) (h : P l.deadlineHeap) : P (l.handle e o).deadlineHeap := by
  have hacc : P (l.access e).deadlineHeap := by rwa [access_deadlineHeap]
  simp only [EventLoop.handle]
  cases ((l.access e).events e).type with
  | listen => exact hP.onListen o hacc
  | connect => exact hP.onConnect o hacc
  | next => exact hP.onRead o (hP.restartEvent o.restart hacc)
  | toread => exact hP.onRead o hacc
  | reading => exact hP.onRead o hacc
  | towrite => exact hP.onWrite o hacc
  | writing => exact hP.onWrite o hacc
  | timeout =>
    refine hP.closePeer ?_
    rwa [access_deadlineHeap]
  | _ => exact hP.closePeer hacc

theorem checkTimeoutEvent (now : Nat) (few : Bool) (h : P l.deadlineHeap) :
    P (l.checkTimeoutEvent now few).1.deadlineHeap := by
  have hpop := hP.pop _ now h
  simp only [EventLoop.checkTimeoutEvent]
  split
  · exact hpop
  · split_ifs
    · exact hP.pushDeadline _ hpop
    · exact hP.fail .timeout hpop

end HeapClosed

end EventLoop

namespace LoopState

variable {Q : Type} [MinQueue Q (Timeout Nat) Timeout.deadline] {s s' : LoopState Q}

theorem step_heapClosed {P : TimedHeap Q Nat → Prop} (hP : EventLoop.HeapClosed P) (l : Label)
    (h : P s.loop.deadlineHeap) (hs : s.step l = some s') : P s'.loop.deadlineHeap := by
  cases l with
  | addEvent e =>
    simp only [LoopState.step] at hs
    split_ifs at hs
    rw [Option.some.injEq] at hs
    subst hs
    exact h
  | change e ev =>
    simp only [LoopState.step] at hs
    split_ifs at hs
    rw [Option.some.injEq] at hs
    subst hs
    exact h
  | listen e =>
    simp only [LoopState.step] at hs
    split_ifs at hs
    rw [Option.some.injEq] at hs
    subst hs
    refine hP.dispatchEvent ?_
    rwa [EventLoop.setType_deadlineHeap]
  | swap =>
    simp only [LoopState.step] at hs
    split_ifs at hs
    rw [Option.some.injEq] at hs
    subst hs
    exact h
  | dispatch =>
    simp only [LoopState.step] at hs
    split at hs
    · rw [Option.some.injEq] at hs
      subst hs
      exact hP.dispatchEvent h
    · cases hs
  | check now =>
    simp only [LoopState.step] at hs
    split_ifs at hs
    rw [Option.some.injEq] at hs
    subst hs
    exact h
  | turn few =>
    simp only [LoopState.step] at hs
    split at hs
    · rw [Option.some.injEq] at hs
      subst hs
      exact hP.checkTimeoutEvent _ few h
    · cases hs
  | poll ready =>
    simp only [LoopState.step] at hs
    split_ifs at hs
    rw [Option.some.injEq] at hs
    subst hs
    exact h
  | handle o =>
    simp only [LoopState.step] at hs
    split at hs
    · split_ifs at hs
      rw [Option.some.injEq] at hs
      subst hs
      exact hP.handle o h
    · cases hs

/-- Whenever a timeout is about to be popped, no due entry left in the queue can be mistaken for a live one. -/
def Distinct (s : LoopState Q) (l : Label) : Prop :=
  match l, s.phase with
  | .turn _, .checking now => s.loop.deadlineHeap.Unmistakable now
  | _, _ => True

instance (s : LoopState Q) (l : Label) : Decidable (s.Distinct l) := by
  unfold Distinct
  split
  · infer_instance
  · infer_instance

theorem run_recorded {ls : List Label} {s : LoopState (Logged Q (Timeout Nat))}
    (hrun : Lib.run step start ls = some s) : s.loop.deadlineHeap.Recorded :=
  Lib.run_invariant (I := fun s : LoopState (Logged Q (Timeout Nat)) => s.loop.deadlineHeap.Recorded)
    (fun _ l _ h hs => step_heapClosed ⟨fun _ t h => h.push t, fun _ k h => h.erase k, fun _ now h => h.pop now⟩ l h hs)
    TimedHeap.recorded_empty hrun

/-- **A check acts on the timeout pushed last.** In every run in which no entry left in the queue can be
mistaken for a live one, each turn of `checkTimeoutEvent` finds nothing due and ends the check, or it acts
on the live timeout of an event, which is the one pushed last for it. If that one is not repeated, as
after `restartEvent`, the event goes to `onTimeout`; only a repeated one is prolonged by `LTIMEOUT`. -/
theorem acts_on_last_pushed {ls : List Label} {few : Bool} {s s' : LoopState (Logged Q (Timeout Nat))}
    (hok : Lib.StepsMeet step Distinct (start : LoopState (Logged Q (Timeout Nat))) (ls ++ [.turn few]))
    (hrun : Lib.run step start ls = some s) (hturn : s.step (.turn few) = some s') :
    ∃ now, s.phase = .checking now ∧
      ((s'.phase = .polling ∧ ∀ e t, s.loop.deadlineHeap.map e = some t → now < t.deadline) ∨
      ∃ e t heap, s.loop.deadlineHeap.pop now = (t, heap) ∧ t.data = some e ∧ t.deadline ≤ now ∧
        s.loop.deadlineHeap.map e = some t ∧ s.loop.deadlineHeap.lastPushed e = some t ∧
        (t.repeats = false → s'.loop = ({ s.loop with deadlineHeap := heap } : EventLoop _).expire e) ∧
        (t.repeats = true → few = true → s'.loop = ({ s.loop with deadlineHeap := heap } : EventLoop _).pushDeadline
          { t with deadline := (t.deadline + Event.ltimeout) % 2 ^ 64 })) := by
  have hr := run_recorded hrun
  simp only [LoopState.step] at hturn
  split at hturn
  · rename_i now hphase
    refine ⟨now, hphase, ?_⟩
    have hu : s.loop.deadlineHeap.Unmistakable now := by
      have := Lib.StepsMeet.at_append hok hrun
      simpa only [Distinct, hphase] using this.1
    rw [Option.some.injEq] at hturn
    subst hturn
    rcases hr.pop_eq hu with ⟨hnone, hlive⟩ | ⟨e, t, hpop, hdata, hdue, hmap, hlast⟩
    · left
      refine ⟨?_, hlive⟩
      simp [EventLoop.checkTimeoutEvent, hnone]
    · right
      refine ⟨e, t, (s.loop.deadlineHeap.pop now).2, Prod.ext hpop rfl, hdata, hdue, hmap, hlast, fun hrep => ?_,
        fun hrep hfew => ?_⟩
      · simp [EventLoop.checkTimeoutEvent, hpop, hdata, hrep]
      · simp [EventLoop.checkTimeoutEvent, hpop, hdata, hrep, hfew]
  · cases hturn

/-- A server with the read timeout `rtimeout`: a connection is accepted at 15, its first request starts at
40 and is not complete when timeouts are checked at `now`. -/
def requestLabels (rtimeout now : Nat) : List Label :=
  [.change 0 { role := .listener, timeoutOpt := ⟨100, rtimeout, 300⟩ }, .listen 0, .swap, .check 10, .turn true, .poll [0],
    .handle { now := 20, restart := 0, reset := 15, accepted := some 1, connectError := false, read := .again, write := .again },
    .swap, .check 30, .turn true, .poll [1],
    .handle { now := 0, restart := 40, reset := 0, accepted := none, connectError := false, read := .again, write := .again },
    .swap, .check now]

/-- The loop over a sorted queue with its history. -/
abbrev Replay := LoopState (Logged (Lib.SortedQueue (Timeout.deadline (K := Nat))) (Timeout Nat))

/-- With a read timeout of a millisecond the request expires. -/
theorem acts_on_last_pushed_request :
    ∃ s s' : Replay, Lib.run step start (requestLabels 1000 2000) = some s ∧ s.step (.turn true) = some s' ∧
      ∃ now, s.phase = .checking now ∧
        ((s'.phase = .polling ∧ ∀ e t, s.loop.deadlineHeap.map e = some t → now < t.deadline) ∨
        ∃ e t heap, s.loop.deadlineHeap.pop now = (t, heap) ∧ t.data = some e ∧ t.deadline ≤ now ∧
          s.loop.deadlineHeap.map e = some t ∧ s.loop.deadlineHeap.lastPushed e = some t ∧
          (t.repeats = false → s'.loop = ({ s.loop with deadlineHeap := heap } : EventLoop _).expire e) ∧
          (t.repeats = true → true = true → s'.loop = ({ s.loop with deadlineHeap := heap } : EventLoop _).pushDeadline
            { t with deadline := (t.deadline + Event.ltimeout) % 2 ^ 64 })) := by
  obtain ⟨s, hs⟩ : ∃ s : Replay, Lib.run step start (requestLabels 1000 2000) = some s := ⟨_, rfl⟩
  obtain ⟨s', hs'⟩ : ∃ s' : Replay, s.step (.turn true) = some s' := by
    cases hs
    exact ⟨_, rfl⟩
  have hok : Lib.StepsMeet step Distinct (start : Replay) (requestLabels 1000 2000 ++ [.turn true]) := by decide
  exact ⟨s, s', hs, hs', acts_on_last_pushed hok hs hs'⟩

/-- With a read timeout of 25 microseconds less than `LTIMEOUT` the idle deadline, erased when the request
started, falls on the read deadline, is found in its place, and the request is prolonged as if it were idle. -/
theorem prolonged_active_request :
    ∃ s s' : Replay, Lib.run step start (requestLabels 599999975 600000020) = some s ∧
      s.step (.turn true) = some s' ∧ s.phase = .checking 600000020 ∧
      s.loop.deadlineHeap.lastPushed 1 = some ⟨some 1, 600000015, false⟩ ∧
      (s.loop.deadlineHeap.pop 600000020).1 = ⟨some 1, 600000015, true⟩ ∧
      (s'.loop.events 1).type = .reading ∧ s'.loop.deadlineHeap.map 1 = some ⟨some 1, 1200000015, true⟩ := by
  refine ⟨_, _, rfl, rfl, rfl, ?_, ?_, ?_, ?_⟩ <;> decide

end LoopState

end Raster
