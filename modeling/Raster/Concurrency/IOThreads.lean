import Raster.Concurrency.IOThreadPool
import Raster.Lib.Tally
import Mathlib.Data.Multiset.AddSub
import Mathlib.Algebra.Order.Group.Multiset
import Mathlib.Tactic.Abel

/-!
# The tasks of an IO thread

Every task that was given to a thread is on its way to the thread's loop, waits in the loop, is in the
batch that the loop has taken, or is done; `pendingTasks` is the number of those that are not done. This
holds whatever the adders, the controller and the threads do.
-/

namespace Raster

open Lib (tally tally_update tally_eq_zero)

/-! ### Where a task is -/

/-- The tasks of the batch that are not done. -/
def IOPlace.jobs : IOPlace → List Nat
  | .calling _ jobs => jobs.map Prod.fst
  | .running _ id _ jobs => id :: jobs.map Prod.fst
  | .uncounting _ id _ jobs => id :: jobs.map Prod.fst
  | _ => []

/-- The task that is counted for the thread `t` and not handed over yet. -/
def Adder.flight (t : Nat) : Adder → Multiset Nat
  | .adding t' id _ => if t' = t then {id} else 0
  | _ => 0

/-- The thread that was picked. -/
def Adder.target : Adder → Option Nat
  | .counting t _ => some t
  | .adding t _ _ => some t
  | _ => none

namespace IOThread

def held (th : IOThread) : Multiset Nat := (th.place.jobs : Multiset Nat) + (th.callbacks.map Prod.fst : List Nat)

def doneIds (th : IOThread) : Multiset Nat := (th.done.map Prod.fst : List Nat)

end IOThread

/-! ### Steps of a thread -/

/-- What a thread can do outside `add`. -/
inductive ThreadMoves (isJoin : Bool) (now : Nat) (th : IOThread) : IOThread → Prop
  | start (hp : th.place = .starting) : ThreadMoves isJoin now th { th with place := .posting, eventLoop := .loop }
  | post (hp : th.place = .posting) : ThreadMoves isJoin now th { th with place := .testing }
  | loop (hp : th.place = .testing) (hrun : th.shouldRun = true) :
      ThreadMoves isJoin now th { th with place := .looping false }
  | stop (hp : th.place = .testing) (hrun : th.shouldRun = false) :
      ThreadMoves isJoin now th { th with place := .testingJoin }
  | stopped (once : Bool) (hp : th.place = .looping once) (hstop : th.stop = true) :
      ThreadMoves isJoin now th { th with place := .clearing once }
  | iterate (once : Bool) (hp : th.place = .looping once) (hstop : th.stop = false) :
      ThreadMoves isJoin now th { th with place := .swapping once }
  | swap (once : Bool) (hp : th.place = .swapping once) :
      ThreadMoves isJoin now th { th with place := .calling once th.callbacks, callbacks := [] }
  | called (once : Bool) (hp : th.place = .calling once []) : ThreadMoves isJoin now th { th with place := .handling once }
  | run (once : Bool) (id : Nat) (task : PoolTask) (jobs : List (Nat × PoolTask))
      (hp : th.place = .calling once ((id, task) :: jobs)) :
      ThreadMoves isJoin now th { th with place := .running once id (runTask task now) jobs }
  | ran (once : Bool) (id : Nat) (result : TaskEnd) (jobs : List (Nat × PoolTask)) (hp : th.place = .running once id result jobs) :
      ThreadMoves isJoin now th { th with place := .uncounting once id result jobs }
  | uncount (once : Bool) (id : Nat) (result : TaskEnd) (jobs : List (Nat × PoolTask))
      (hp : th.place = .uncounting once id result jobs) :
      ThreadMoves isJoin now th { th with
        place := .calling once jobs
        pendingTasks := th.pendingTasks - 1
        done := th.done ++ [(id, result)] }
  | handled (once : Bool) (hp : th.place = .handling once) :
      ThreadMoves isJoin now th { th with place := if once then .clearing once else .looping once }
  | clear (once : Bool) (hp : th.place = .clearing once) :
      ThreadMoves isJoin now th { th with place := if once then .draining else .testing, stop := false }
  | join (hp : th.place = .testingJoin) (hjoin : isJoin = true) : ThreadMoves isJoin now th { th with place := .draining }
  | giveUp (hp : th.place = .testingJoin) (hjoin : isJoin = false) : ThreadMoves isJoin now th { th with place := .leaving }
  | drain (hp : th.place = .draining) (hpos : 0 < th.pendingTasks) :
      ThreadMoves isJoin now th { th with place := .looping true }
  | drained (hp : th.place = .draining) (hnone : th.pendingTasks ≤ 0) :
      ThreadMoves isJoin now th { th with place := .leaving }
  | leave (hp : th.place = .leaving) : ThreadMoves isJoin now th { th with place := .unsetting }
  | unset (hp : th.place = .unsetting) : ThreadMoves isJoin now th { th with place := .exited, eventLoop := .null }

namespace ThreadMoves

variable {isJoin : Bool} {now : Nat} {th th' : IOThread}

theorem tasks (hs : ThreadMoves isJoin now th th') : th'.doneIds + th'.held = th.doneIds + th.held := by
  cases hs with
  | swap once hp => simp [IOThread.held, IOThread.doneIds, hp, IOPlace.jobs]
  | run once id task jobs hp => simp [IOThread.held, IOThread.doneIds, hp, IOPlace.jobs]
  | uncount once id result jobs hp =>
    simp only [IOThread.held, IOThread.doneIds, hp, IOPlace.jobs, List.map_append, List.map_cons, List.map_nil,
      ← Multiset.coe_add, ← Multiset.cons_coe, Multiset.coe_nil, ← Multiset.singleton_add, add_zero]
    abel
  | handled once hp => cases once <;> simp [IOThread.held, IOThread.doneIds, hp, IOPlace.jobs]
  | clear once hp => cases once <;> simp [IOThread.held, IOThread.doneIds, hp, IOPlace.jobs]
  | _ => simp_all [IOThread.held, IOThread.doneIds, IOPlace.jobs]

theorem counter (hs : ThreadMoves isJoin now th th') :
    th'.pendingTasks + th'.done.length = th.pendingTasks + th.done.length := by
  cases hs with
  | uncount once id result jobs hp =>
    simp only [List.length_append, List.length_singleton]
    push_cast
    omega
  | _ => rfl

theorem keeps (hs : ThreadMoves isJoin now th th') : th'.adder = th.adder ∧ th'.shouldRun = th.shouldRun := by
  cases hs <;> exact ⟨rfl, rfl⟩

end ThreadMoves

namespace IOPool

variable {p p' : IOPool} {t now m : Nat}

theorem threadStep_cases (hs : p.threadStep t now = some p') :
    ∃ th', ThreadMoves p.isJoin now (p.io t) th' ∧
      p' = { p.setThread t th' with
        stoppedThreads := if (p.io t).place = .leaving then p.stoppedThreads ++ [t] else p.stoppedThreads } := by
  unfold threadStep at hs
  simp only at hs
  split at hs <;> rename_i hp <;> try cases hs
  · exact ⟨_, .start hp, by simp [hp, setThread]⟩
  · exact ⟨_, .post hp, by simp [hp, setThread]⟩
  · by_cases hrun : (p.io t).shouldRun = true
    · exact ⟨_, .loop hp hrun, by simp [hp, setThread, hrun]⟩
    · exact ⟨_, .stop hp (Bool.not_eq_true _ ▸ hrun), by simp [hp, setThread, hrun]⟩
  · by_cases hstop : (p.io t).stop = true
    · exact ⟨_, .stopped _ hp hstop, by simp [hp, setThread, hstop]⟩
    · exact ⟨_, .iterate _ hp (Bool.not_eq_true _ ▸ hstop), by simp [hp, setThread, hstop]⟩
  · exact ⟨_, .swap _ hp, by simp [hp, setThread]⟩
  · exact ⟨_, .called _ hp, by simp [hp, setThread]⟩
  · exact ⟨_, .run _ _ _ _ hp, by simp [hp, setThread]⟩
  · exact ⟨_, .ran _ _ _ _ hp, by simp [hp, setThread]⟩
  · exact ⟨_, .uncount _ _ _ _ hp, by simp [hp, setThread]⟩
  · exact ⟨_, .handled _ hp, by simp [hp, setThread]⟩
  · exact ⟨_, .clear _ hp, by simp [hp, setThread]⟩
  · by_cases hjoin : p.isJoin = true
    · exact ⟨_, .join hp hjoin, by simp [hp, setThread, hjoin]⟩
    · exact ⟨_, .giveUp hp (Bool.not_eq_true _ ▸ hjoin), by simp [hp, setThread, hjoin]⟩
  · by_cases hpos : 0 < (p.io t).pendingTasks
    · exact ⟨_, .drain hp hpos, by simp [hp, setThread, hpos]⟩
    · exact ⟨_, .drained hp (Int.not_lt.mp hpos), by simp [hp, setThread, hpos]⟩
  · exact ⟨_, .leave hp, by simp [hp, setThread]⟩
  · exact ⟨_, .unset hp, by simp [hp, setThread]⟩

/-! ### Steps of `add` -/

/-- What a call of `add` can do, from the thread `this` of the pool or from outside. -/
inductive AddMoves (p : IOPool) (this : Option Nat) : Adder → Adder → IOPool → Prop
  | lock (task : PoolTask) : AddMoves p this (.locking task) (.unlocking task) { p with readers := p.readers + 1 }
  | unlock (task : PoolTask) : AddMoves p this (.unlocking task) (.checking task) { p with readers := p.readers - 1 }
  | throw (task : PoolTask) : AddMoves p this (.checking task) .idle p
  | check (task : PoolTask) (hsome : p.threads ≠ []) : AddMoves p this (.checking task) (.picking task) p
  | pickOwn (t : Nat) (task : PoolTask) (hthis : this = some t) : AddMoves p this (.picking task) (.counting t task) p
  | pick (t : Nat) (task : PoolTask) (hthis : this = none) (hmem : t ∈ p.threads) :
      AddMoves p this (.picking task) (.counting t task) { p with nextThread := (p.nextThread + 1) % 2 ^ 64 }
  | count (t : Nat) (task : PoolTask) : AddMoves p this (.counting t task) (.adding t p.given.length task)
      { p.setThread t { p.io t with pendingTasks := (p.io t).pendingTasks + 1 } with given := p.given ++ [(t, task)] }
  | add (t id : Nat) (task : PoolTask) : AddMoves p this (.adding t id task) .idle
      { p.setThread t { p.io t with callbacks := (p.io t).callbacks ++ [(id, task)] } with returned := p.returned ++ [id] }

/-- How a call of `add` ends the process. -/
inductive AddFails (p : IOPool) (this : Option Nat) : Adder → Prop
  | modulo (task : PoolTask) (hthis : this = none) (hnone : p.threads = []) : AddFails p this (.picking task)
  | noLoop (t id : Nat) (task : PoolTask) (hloop : (p.io t).eventLoop ≠ .loop) : AddFails p this (.adding t id task)

theorem addStep_cases {this : Option Nat} {a a' : Adder} (hs : p.addStep this a = some (p', a')) :
    AddMoves p this a a' p' ∨ AddFails p this a := by
  unfold addStep at hs
  split at hs
  · cases hs
  · split_ifs at hs
    cases hs
    exact Or.inl (.lock _)
  · cases hs
    exact Or.inl (.unlock _)
  · rename_i task
    rw [Option.some.injEq, Prod.mk.injEq] at hs
    obtain ⟨rfl, rfl⟩ := hs
    split_ifs with hempty
    · exact Or.inl (.throw task)
    · exact Or.inl (.check task fun hnil => hempty (List.isEmpty_iff.mpr hnil))
  · rename_i task
    split at hs
    · cases hs
      exact Or.inl (.pickOwn _ task rfl)
    · split at hs
      · rename_i t ht
        cases hs
        exact Or.inl (.pick t task rfl (List.mem_of_getElem? ht))
      · rename_i hnone
        refine Or.inr (.modulo task rfl ?_)
        -- the index is in range unless there are no threads
        by_contra hne
        rw [List.getElem?_eq_none_iff] at hnone
        exact absurd (Nat.mod_lt _ (List.length_pos_iff.mpr hne)) (Nat.not_lt.mpr hnone)
  · cases hs
    exact Or.inl (.count _ _)
  · rename_i t id task
    split_ifs at hs with hloop
    · cases hs
      exact Or.inl (.add t id task)
    · exact Or.inr (.noLoop t id task hloop)

/-! ### No task is lost between the adders and the loops -/

/-- The numbers of the tasks that were given to the thread `t`. -/
def givenTo (p : IOPool) (t : Nat) : Multiset Nat := ((p.given.zipIdx.filter (·.1.1 == t)).map Prod.snd : List Nat)

theorem mem_givenTo {id : Nat} : id ∈ p.givenTo t ↔ ∃ task, p.given[id]? = some (t, task) := by
  simp only [givenTo, Multiset.mem_coe, List.mem_map, List.mem_filter, List.mem_zipIdx_iff_getElem?, beq_iff_eq]
  constructor
  · rintro ⟨⟨⟨x, task⟩, i⟩, ⟨hget, rfl⟩, rfl⟩
    exact ⟨task, hget⟩
  · rintro ⟨task, hget⟩
    exact ⟨((t, task), id), ⟨hget, rfl⟩, rfl⟩

theorem nodup_givenTo : (p.givenTo t).Nodup := by
  have hsub : ((p.given.zipIdx.filter (·.1.1 == t)).map Prod.snd).Sublist (p.given.zipIdx.map Prod.snd) :=
    List.filter_sublist.map _
  refine Multiset.coe_nodup.mpr (hsub.nodup ?_)
  rw [List.zipIdx_map_snd]
  exact List.nodup_range' ..

theorem card_givenTo : Multiset.card (p.givenTo t) = (p.given.map Prod.fst).count t := by
  have hfst : p.given.zipIdx.map Prod.fst = p.given := List.zipIdx_map_fst ..
  rw [givenTo, Multiset.coe_card, List.length_map, ← List.countP_eq_length_filter, List.count, List.countP_map]
  conv_rhs => rw [← hfst, List.countP_map]
  rfl

theorem givenTo_append {x : Nat} {task : PoolTask} {q : IOPool} (hq : q.given = p.given ++ [(x, task)]) :
    q.givenTo t = p.givenTo t + if x = t then {p.given.length} else 0 := by
  rw [givenTo, givenTo, hq, List.zipIdx_append, List.filter_append, List.map_append, ← Multiset.coe_add]
  by_cases hx : x = t
  · simp [hx]
  · simp [hx]

/-- The tasks on their way to the thread `t`. -/
def flights (m : Nat) (p : IOPool) (t : Nat) : Multiset Nat :=
  tally m p.adders (Adder.flight t) + (p.io t).adder.flight t

/-- Every task that was given to a thread is on its way, held or done, and the counter says how many are not done. -/
structure Conserved (m : Nat) (p : IOPool) : Prop where
  tasks : ∀ t, p.givenTo t = (p.io t).doneIds + (p.io t).held + p.flights m t
  counter : ∀ t, (p.io t).pendingTasks + (p.io t).done.length = Multiset.card (p.givenTo t)
  own : ∀ t x, (p.io t).adder.target = some x → x = t
  outside : ∀ k, m ≤ k → p.adders k = .idle

theorem conserved_start (isJoin : Bool) (numThreads : Nat) : (start isJoin numThreads).Conserved m where
  tasks t := by
    have hnone : tally m (start isJoin numThreads).adders (Adder.flight t) = 0 := tally_eq_zero fun _ _ => rfl
    rw [flights, hnone]
    rfl
  counter t := rfl
  own t x hx := by cases hx
  outside k hk := rfl

namespace AddMoves

variable {this : Option Nat} {a a' : Adder} {q : IOPool}

theorem tasks (hs : AddMoves p this a a' q) (t : Nat) :
    q.givenTo t + ((p.io t).doneIds + (p.io t).held + a.flight t) =
      p.givenTo t + ((q.io t).doneIds + (q.io t).held + a'.flight t) := by
  cases hs with
  | count x task =>
    rw [givenTo_append rfl]
    by_cases hx : x = t
    · subst hx
      simp only [setThread, Function.update_self, IOThread.doneIds, IOThread.held, Adder.flight, if_true, add_zero]
      abel
    · simp only [setThread, Function.update_of_ne (Ne.symm hx), Adder.flight, if_neg hx, add_zero]
  | add x id task =>
    show p.givenTo t + _ = _
    by_cases hx : x = t
    · subst hx
      simp only [setThread, Function.update_self, IOThread.doneIds, IOThread.held, Adder.flight, if_true, add_zero,
        List.map_append, List.map_cons, List.map_nil, ← Multiset.coe_add, Multiset.coe_singleton]
      abel
    · simp only [setThread, Function.update_of_ne (Ne.symm hx), Adder.flight, if_neg hx, add_zero]
  | _ => rfl

theorem counter (hs : AddMoves p this a a' q) (t : Nat) :
    (q.io t).pendingTasks + (q.io t).done.length + Multiset.card (p.givenTo t) =
      (p.io t).pendingTasks + (p.io t).done.length + Multiset.card (q.givenTo t) := by
  cases hs with
  | count x task =>
    have hgiven := givenTo_append (p := p) (t := t) (q := { p.setThread x { p.io x with
      pendingTasks := (p.io x).pendingTasks + 1 } with given := p.given ++ [(x, task)] }) rfl
    rw [hgiven]
    by_cases hx : x = t
    · subst hx
      simp only [setThread, Function.update_self, if_true, Multiset.card_add, Multiset.card_singleton]
      push_cast
      omega
    · simp only [setThread, Function.update_of_ne (Ne.symm hx), if_neg hx, add_zero]
  | add x id task =>
    show _ = (p.io t).pendingTasks + (p.io t).done.length + Multiset.card (p.givenTo t)
    by_cases hx : x = t
    · subst hx
      simp only [setThread, Function.update_self]
    · simp only [setThread, Function.update_of_ne (Ne.symm hx)]
  | _ => rfl

theorem thread (hs : AddMoves p this a a' q) (t : Nat) :
    q.io t = p.io t ∨ a.target = some t ∧ (q.io t).place = (p.io t).place ∧ (q.io t).shouldRun = (p.io t).shouldRun ∧
      (q.io t).eventLoop = (p.io t).eventLoop ∧ (q.io t).adder = (p.io t).adder := by
  cases hs with
  | count x task =>
    by_cases hx : t = x
    · subst hx
      simp [setThread, Adder.target]
    · exact Or.inl (Function.update_of_ne hx ..)
  | add x id task =>
    by_cases hx : t = x
    · subst hx
      simp [setThread, Adder.target]
    · exact Or.inl (Function.update_of_ne hx ..)
  | _ => exact Or.inl rfl

theorem adder (hs : AddMoves p this a a' q) (t : Nat) : (q.io t).adder = (p.io t).adder := by
  rcases hs.thread t with heq | ⟨-, -, -, -, heq⟩
  · rw [heq]
  · exact heq

theorem frame (hs : AddMoves p this a a' q) :
    q.adders = p.adders ∧ q.threads = p.threads ∧ q.stoppedThreads = p.stoppedThreads ∧ q.controller = p.controller ∧
      q.isJoin = p.isJoin ∧ q.nextId = p.nextId ∧ q.failed = p.failed := by
  cases hs <;> exact ⟨rfl, rfl, rfl, rfl, rfl, rfl, rfl⟩

theorem target (hs : AddMoves p this a a' q) {x : Nat} (hx : a'.target = some x) :
    a.target = some x ∨ this = some x ∨ this = none ∧ x ∈ p.threads := by
  cases hs with
  | pickOwn t task hthis =>
    cases hx
    exact Or.inr (Or.inl hthis)
  | pick t task hthis hmem =>
    cases hx
    exact Or.inr (Or.inr ⟨hthis, hmem⟩)
  | count t task => exact Or.inl hx
  | _ => cases hx

end AddMoves

theorem Adder.flight_eq_zero {a : Adder} {t : Nat} (h : a.target ≠ some t) : a.flight t = 0 := by
  cases a with
  | adding x id task => exact if_neg fun hx => h (by rw [hx]; rfl)
  | _ => rfl

theorem Conserved.of_addMoves (h : p.Conserved m) {this : Option Nat} {a a' : Adder} {q : IOPool} (hs : AddMoves p this a a' q)
    {r : IOPool} (hgiven : r.given = q.given)
    (hio : ∀ t, (r.io t).doneIds = (q.io t).doneIds ∧ (r.io t).held = (q.io t).held ∧
      (r.io t).pendingTasks = (q.io t).pendingTasks ∧ (r.io t).done = (q.io t).done)
    (hflights : ∀ t, r.flights m t + a.flight t = p.flights m t + a'.flight t)
    (hown : ∀ t x, (r.io t).adder.target = some x → x = t) (houtside : ∀ k, m ≤ k → r.adders k = .idle) : r.Conserved m := by
  have hgivenTo : ∀ t, r.givenTo t = q.givenTo t := fun t => by rw [givenTo, givenTo, hgiven]
  refine ⟨fun t => ?_, fun t => ?_, hown, houtside⟩
  · obtain ⟨hdone, hheld, -, -⟩ := hio t
    rw [hgivenTo, hdone, hheld]
    ext id
    have htasks := congrArg (Multiset.count id) (hs.tasks t)
    have hbefore := congrArg (Multiset.count id) (h.tasks t)
    have hflight := congrArg (Multiset.count id) (hflights t)
    simp only [Multiset.count_add] at htasks hbefore hflight ⊢
    omega
  · obtain ⟨-, -, hpending, hdone⟩ := hio t
    rw [hgivenTo, hpending, hdone]
    have hcounter := hs.counter t
    have hbefore := h.counter t
    omega

theorem Conserved.outside_addMoves (h : p.Conserved m) {k : Nat} {a' : Adder} {q : IOPool}
    (hs : AddMoves p none (p.adders k) a' q) :
    ({ q with adders := Function.update q.adders k a' } : IOPool).Conserved m := by
  have hlt : k < m := by
    by_contra hge
    rw [h.outside k (Nat.le_of_not_lt hge)] at hs
    cases hs
  have hadders := hs.frame.1
  refine h.of_addMoves hs rfl (fun t => ⟨rfl, rfl, rfl, rfl⟩) (fun t => ?_) (fun t x hx => ?_) fun j hj => ?_
  · show tally m (Function.update q.adders k a') (Adder.flight t) + (q.io t).adder.flight t + (p.adders k).flight t =
      tally m p.adders (Adder.flight t) + (p.io t).adder.flight t + a'.flight t
    have hupdate := tally_update (f := p.adders) (w := Adder.flight t) hlt a'
    rw [hadders, hs.adder, add_right_comm, hupdate, add_right_comm]
  · have hx' : (q.io t).adder.target = some x := hx
    rw [hs.adder] at hx'
    exact h.own t x hx'
  · show Function.update q.adders k a' j = .idle
    rw [Function.update_of_ne (by omega), hadders]
    exact h.outside j hj

theorem Conserved.own_addMoves (h : p.Conserved m) {a' : Adder} {q : IOPool}
    (hs : AddMoves p (some t) (p.io t).adder a' q) : (q.setThread t { q.io t with adder := a' }).Conserved m := by
  have hadders := hs.frame.1
  have htarget : ∀ x, a'.target = some x → x = t := fun x hx => by
    rcases hs.target hx with hold | hthis | ⟨hthis, -⟩
    · exact h.own t x hold
    · exact (Option.some.inj hthis).symm
    · cases hthis
  have hrecord : ∀ x, (q.setThread t { q.io t with adder := a' }).io x = if x = t then { q.io t with adder := a' } else q.io x := by
    intro x
    by_cases hx : x = t
    · subst hx
      simp [setThread]
    · simp [setThread, hx]
  refine h.of_addMoves hs rfl (fun x => ?_) (fun x => ?_) (fun x y hy => ?_) fun j hj => ?_
  · rw [hrecord]
    split_ifs with hx
    · subst hx
      exact ⟨rfl, rfl, rfl, rfl⟩
    · exact ⟨rfl, rfl, rfl, rfl⟩
  · show tally m q.adders (Adder.flight x) + ((q.setThread t { q.io t with adder := a' }).io x).adder.flight x +
        (p.io t).adder.flight x = tally m p.adders (Adder.flight x) + (p.io x).adder.flight x + a'.flight x
    rw [hadders, hrecord]
    split_ifs with hx
    · subst hx
      rw [add_right_comm]
    · have hnone : ∀ a : Adder, (∀ y, a.target = some y → y = t) → a.flight x = 0 := fun a ha =>
        Adder.flight_eq_zero fun hax => hx (ha x hax)
      rw [hnone _ (h.own t), hnone _ htarget, hs.adder]
  · rw [hrecord] at hy
    split_ifs at hy with hx
    · exact (htarget y hy).trans hx.symm
    · rw [hs.adder] at hy
      exact h.own x y hy
  · show q.adders j = .idle
    rw [hadders]
    exact h.outside j hj

theorem Conserved.congr (h : p.Conserved m) {q : IOPool} (hgiven : q.given = p.given)
    (hadders : ∀ t, tally m q.adders (Adder.flight t) = tally m p.adders (Adder.flight t))
    (houtside : ∀ k, m ≤ k → q.adders k = .idle)
    (hio : ∀ t, (q.io t).doneIds + (q.io t).held = (p.io t).doneIds + (p.io t).held ∧
      (q.io t).pendingTasks + (q.io t).done.length = (p.io t).pendingTasks + (p.io t).done.length ∧
      ((q.io t).adder = (p.io t).adder ∨ (q.io t).adder.target = none ∧ (p.io t).adder.target = none)) : q.Conserved m := by
  have hgivenTo : ∀ t, q.givenTo t = p.givenTo t := fun t => by rw [givenTo, givenTo, hgiven]
  have hflight : ∀ t, (q.io t).adder.flight t = (p.io t).adder.flight t := by
    intro t
    rcases (hio t).2.2 with hsame | ⟨hnone, hnone'⟩
    · rw [hsame]
    · rw [Adder.flight_eq_zero (by rw [hnone]; exact nofun), Adder.flight_eq_zero (by rw [hnone']; exact nofun)]
  refine ⟨fun t => ?_, fun t => ?_, fun t x hx => ?_, houtside⟩
  · rw [hgivenTo, (hio t).1, flights, hadders, hflight]
    exact h.tasks t
  · rw [hgivenTo, (hio t).2.1]
    exact h.counter t
  · rcases (hio t).2.2 with hsame | ⟨hnone, -⟩
    · rw [hsame] at hx
      exact h.own t x hx
    · rw [hnone] at hx
      cases hx

theorem Conserved.threadMoves (h : p.Conserved m) {q : IOPool} {th : IOThread} (hs : ThreadMoves p.isJoin now (p.io t) th)
    (hio : q.io = Function.update p.io t th) (hgiven : q.given = p.given) (hadders : q.adders = p.adders) : q.Conserved m := by
  refine h.congr hgiven (fun _ => by rw [hadders]) (hadders ▸ h.outside) fun x => ?_
  rw [hio]
  by_cases hx : x = t
  · subst hx
    rw [Function.update_self]
    exact ⟨hs.tasks, hs.counter, Or.inl hs.keeps.1⟩
  · rw [Function.update_of_ne hx]
    exact ⟨rfl, rfl, Or.inl rfl⟩

theorem Conserved.outside_flight (h : p.Conserved m) {k id : Nat} {task : PoolTask} (hk : p.adders k = .adding t id task) :
    id ∈ p.givenTo t := by
  have hlt : k < m := by
    by_contra hge
    rw [h.outside k (Nat.le_of_not_lt hge)] at hk
    cases hk
  have hsplit := tally_update (f := p.adders) (w := Adder.flight t) hlt .idle
  have hmem : id ∈ tally m p.adders (Adder.flight t) := by
    rw [hk] at hsplit
    have hzero : tally m p.adders (Adder.flight t) + Adder.flight t .idle = tally m p.adders (Adder.flight t) := add_zero _
    rw [hzero] at hsplit
    rw [← hsplit]
    simp [Adder.flight]
  rw [h.tasks t, flights]
  simp [hmem]

theorem Conserved.own_flight (h : p.Conserved m) {x id : Nat} {task : PoolTask} (hx : (p.io x).adder = .adding t id task) :
    id ∈ p.givenTo t := by
  obtain rfl : t = x := h.own x t (by rw [hx]; rfl)
  rw [h.tasks t, flights, hx]
  simp [Adder.flight]

theorem Conserved.nonneg (h : p.Conserved m) (t : Nat) : 0 ≤ (p.io t).pendingTasks := by
  have hcounter := h.counter t
  have hle : (p.io t).done.length ≤ Multiset.card (p.givenTo t) := by
    rw [h.tasks t, Multiset.card_add, Multiset.card_add]
    have hcard : Multiset.card (p.io t).doneIds = (p.io t).done.length := by
      rw [IOThread.doneIds, Multiset.coe_card, List.length_map]
    omega
  omega

theorem Conserved.all_done (h : p.Conserved m) (hzero : (p.io t).pendingTasks = 0) : (p.io t).doneIds = p.givenTo t := by
  have hcounter := h.counter t
  have htasks := h.tasks t
  have hcard := congrArg Multiset.card htasks
  have hdone : Multiset.card (p.io t).doneIds = (p.io t).done.length := by
    rw [IOThread.doneIds, Multiset.coe_card, List.length_map]
  rw [Multiset.card_add, Multiset.card_add] at hcard
  have hheld : (p.io t).held = 0 := Multiset.card_eq_zero.mp (by omega)
  have hflights : p.flights m t = 0 := Multiset.card_eq_zero.mp (by omega)
  rw [htasks, hheld, hflights, add_zero, add_zero]

end IOPool

end Raster
