import Raster.Concurrency.Tasks

/-!
# `join` runs every task

`join` and `setNumThreads` return: each step of a worker or of the call makes progress, which `work`
measures, and as long as the call has not returned some step can be made. When `join` has returned all
threads have ended, the queue is empty, and so every task is done.
-/

namespace Raster

open Lib (tally tally_update tally_succ le_tally)

/-! ### What is left to do -/

/-- The steps a worker makes at most before it takes the next task, or ends. -/
def Worker.rank (observers : Nat) : Worker → Nat
  | .absent => 0
  | .exited => 0
  | .taking => 0
  | .starting => 1
  | .restoring => 1
  | .returning => 1
  | .stopping => 2
  | .telling os => 3 + os.length
  | .poisoned => 4 + observers
  | .leaving => 3
  | .testingJoin => 4
  | .testing => 5
  | .running _ _ => 6
  | .took _ _ => 7

/-- The steps of a call that resizes the pool, with what its poison and its new threads will cost. -/
def Controller.rank (observers : Nat) : Controller → Nat
  | .returning _ => 1
  | .checking _ _ => 2
  | .erasing _ i n _ => 1 + 3 * (n - i)
  | .joining _ i n _ => 2 + 3 * (n - i)
  | .taking i n _ => 3 + 3 * (n - i)
  | .poisoning i n _ => 4 + 3 * n + (n - i) * (observers + 9)
  | .settingStop n _ => 5 + 3 * n + n * (observers + 9)
  | .stopping n _ => 6 + 3 * n + n * (observers + 9)
  | .settingJoin n _ _ => 7 + 3 * n + n * (observers + 9)
  | .removing n _ _ => 8 + 3 * n + n * (observers + 9)
  | .telling todo _ => 2 + todo.length
  | .waiting todo newThreads _ => 3 + todo.length + observers * newThreads.length
  | .sorting newThreads _ => 4 + newThreads.length + observers * newThreads.length
  | .creating todo newThreads _ => 5 + 2 * todo.length + newThreads.length + observers * newThreads.length
  | .making todo newThreads _ => 6 + todo + 3 * (todo + newThreads.length) + observers * (todo + newThreads.length)
  | _ => 0

/-- The call resizes the pool. -/
def Call.Resizes : Call → Prop
  | .addObserver _ => False
  | .removeObserver _ => False
  | _ => True

def Controller.Resizes : Controller → Prop
  | .locking call => call.Resizes
  | .unlocking call => call.Resizes
  | .entering call => call.Resizes
  | .observing _ _ => False
  | .unobserving _ _ => False
  | _ => True

/-- The number of threads that a call in progress will leave. -/
def Controller.aim : Controller → Option Nat
  | .locking (.setNumThreads n) => some n
  | .unlocking (.setNumThreads n) => some n
  | .entering (.setNumThreads n) => some n
  | .making _ _ size => some size
  | .creating _ _ size => some size
  | .sorting _ size => some size
  | .waiting _ _ size => some size
  | .telling _ size => some size
  | .removing _ _ size => some size
  | .settingJoin _ _ size => some size
  | .stopping _ size => some size
  | .settingStop _ size => some size
  | .poisoning _ _ size => some size
  | .taking _ _ size => some size
  | .joining _ _ _ size => some size
  | .erasing _ _ _ size => some size
  | .checking _ size => some size
  | .returning size => some size
  | _ => none

/-- The number of threads that a call in progress removes. -/
def Controller.removes : Controller → Option Nat
  | .removing n _ _ => some n
  | .settingJoin n _ _ => some n
  | .stopping n _ => some n
  | .settingStop n _ => some n
  | .poisoning _ n _ => some n
  | .taking _ n _ => some n
  | .joining _ _ n _ => some n
  | .erasing _ _ n _ => some n
  | .checking n _ => some n
  | _ => none

namespace Pool

variable {p p' : Pool} {c c' : Controller} {t now : Nat}

/-- The steps left to a controller. -/
def remaining (p : Pool) : Controller → Nat
  | .locking call => 3 + (p.enter call).2.rank p.observers.length
  | .unlocking call => 2 + (p.enter call).2.rank p.observers.length
  | .entering call => 1 + (p.enter call).2.rank p.observers.length
  | c => c.rank p.observers.length

def work (p : Pool) (c : Controller) : Nat :=
  p.taskQueue.length * (p.observers.length + 8) + p.total (Worker.rank p.observers.length) + p.remaining c

theorem enter_congr {q : Pool} (hthreads : q.threads = p.threads) (call : Call) : (q.enter call).2 = (p.enter call).2 := by
  cases call with
  | setNumThreads n =>
    simp only [enter, hthreads]
    split_ifs <;> rfl
  | _ => simp only [enter, hthreads]

theorem remaining_congr {q : Pool} (hthreads : q.threads = p.threads) (hobservers : q.observers = p.observers) :
    q.remaining c = p.remaining c := by
  cases c <;> simp only [remaining, hobservers, enter_congr hthreads]

theorem WorkerMoves.cost {w v : Worker} (hs : WorkerMoves p t now w v p') :
    p'.taskQueue.length * (p.observers.length + 8) + v.rank p.observers.length <
      p.taskQueue.length * (p.observers.length + 8) + w.rank p.observers.length := by
  cases hs with
  | takePoison rest hqueue =>
    rw [hqueue, List.length_cons, Nat.add_mul]
    simp only [Worker.rank]
    omega
  | takeTask id task rest hqueue =>
    rw [hqueue, List.length_cons, Nat.add_mul]
    simp only [Worker.rank]
    omega
  | _ => exact Nat.add_lt_add_left (by simp [Worker.rank]) _

theorem work_workerMoves (hsound : p.Sound c) {w v : Worker} (hw : p.workers t = w) (hs : WorkerMoves p t now w v p') :
    p'.work c < p.work c := by
  have hq := hs.moves
  have hlt := hsound.listed.lt_of_moves hw hs
  have hobservers := hs.added.2
  have htotal := total_move (w := Worker.rank p.observers.length) hq hlt
  rw [hw] at htotal
  have hwork : p'.work c = p'.taskQueue.length * (p.observers.length + 8) + p'.total (Worker.rank p.observers.length) +
      p.remaining c := by
    rw [work, hobservers, remaining_congr hq.threads hobservers]
  have hcost := hs.cost
  rw [hwork, work]
  omega

theorem work_advance (hqueue : p'.taskQueue = p.taskQueue) (hworkers : p'.workers = p.workers) (hnext : p'.nextId = p.nextId)
    (hobservers : p'.observers = p.observers) (hless : p'.remaining c' < p.remaining c) : p'.work c' < p.work c := by
  unfold work total
  rw [hqueue, hworkers, hnext, hobservers]
  omega

theorem work_lock {q : Pool} (hsame : Same p q) (hqueue : q.taskQueue = p.taskQueue)
    (hobservers : q.observers = p.observers) (hless : p.remaining c' < p.remaining c) : q.work c' < p.work c := by
  refine work_advance hqueue hsame.workers hsame.nextId hobservers ?_
  rw [remaining_congr hsame.threads hobservers]
  exact hless

theorem work_controllerMoves (hsound : p.Sound c) (hresizes : c.Resizes) (hs : ControllerMoves p c c' p') :
    c'.Resizes ∧ p'.work c' < p.work c := by
  have hsize := hsound.counts.size
  cases hs with
  | observed o => exact absurd hresizes id
  | observe o t todo => exact absurd hresizes id
  | unobserved o => exact absurd hresizes id
  | unobserve o t todo => exact absurd hresizes id
  | addObserver o => exact absurd hresizes id
  | removeObserver o => exact absurd hresizes id
  | lock call q hq =>
    refine ⟨hresizes, ?_⟩
    have hqueue : p'.taskQueue = p.taskQueue ∧ p'.observers = p.observers := by
      cases call <;> simp only [Pool.lock] at hq <;> split_ifs at hq <;> cases hq <;> exact ⟨rfl, rfl⟩
    exact work_lock (lock_cases hsound.lock hq).1 hqueue.1 hqueue.2 (by simp only [remaining]; omega)
  | unlock call =>
    refine ⟨hresizes, ?_⟩
    have hqueue : (p.unlock call).taskQueue = p.taskQueue ∧ (p.unlock call).observers = p.observers := by
      cases call <;> exact ⟨rfl, rfl⟩
    exact work_lock (unlock_cases hsound.lock).1 hqueue.1 hqueue.2 (by simp only [remaining]; omega)
  | grow n hlt =>
    refine ⟨trivial, work_advance rfl rfl rfl rfl ?_⟩
    simp only [remaining, enter, hlt, if_true]
    omega
  | shrink n hgt =>
    refine ⟨trivial, work_advance rfl rfl rfl rfl ?_⟩
    have hlt : ¬ p.threads.length < n := by omega
    simp only [remaining, enter, hlt, hgt, if_true, if_false]
    omega
  | keep n heq =>
    refine ⟨trivial, work_advance rfl rfl rfl rfl ?_⟩
    simp only [remaining, enter, heq, lt_irrefl, if_false]
    omega
  | make todo newThreads size =>
    refine ⟨trivial, ?_⟩
    have htotal : tally (p.nextId + 1) p.workers (Worker.rank p.observers.length) =
        tally p.nextId p.workers (Worker.rank p.observers.length) := by
      rw [tally_succ, hsound.listed.unknown p.nextId (le_refl _)]
      rfl
    have hlength : todo + 1 + newThreads.length = todo + (newThreads ++ [p.nextId]).length := by
      rw [List.length_append, List.length_singleton]
      omega
    simp only [work, total, remaining, Controller.rank, htotal, hlength]
    omega
  | create t todo newThreads size =>
    refine ⟨trivial, ?_⟩
    obtain ⟨hlt, hw⟩ := hsound.listed.fresh t List.mem_cons_self
    have hupdate := tally_update (f := p.workers) (w := Worker.rank p.observers.length) hlt .starting
    rw [hw] at hupdate
    simp only [Worker.rank] at hupdate
    show p.taskQueue.length * (p.observers.length + 8) +
        tally p.nextId (Function.update p.workers t .starting) (Worker.rank p.observers.length) +
        (5 + 2 * todo.length + newThreads.length + p.observers.length * newThreads.length) < p.work _
    simp only [work, total, remaining, Controller.rank, List.length_cons]
    omega
  | waited newThreads size =>
    refine ⟨trivial, work_advance rfl rfl rfl rfl ?_⟩
    simp only [remaining, Controller.rank, List.length_flatMap, List.length_map, List.map_const', List.sum_replicate_nat,
      List.length_nil]
    omega
  | poison i n size hi =>
    refine ⟨trivial, ?_⟩
    have hsplit : n - i = n - (i + 1) + 1 := by omega
    simp only [work, total, remaining, Controller.rank, List.length_append, List.length_singleton]
    rw [hsplit, Nat.add_mul, Nat.add_mul]
    omega
  | erase t i n size =>
    have hi : i < n := hsize.2
    refine ⟨trivial, work_advance rfl rfl rfl rfl ?_⟩
    simp only [remaining, Controller.rank]
    omega
  | _ =>
    refine ⟨trivial, work_advance rfl rfl rfl rfl ?_⟩
    simp only [remaining, enter, Controller.rank, List.length_nil, List.length_cons, Nat.zero_add, Nat.sub_zero]
    omega

/-! ### Some step can be made -/

theorem workerStep_isSome (habs : (p.workers t).stage ≠ .absent) (hex : (p.workers t).stage ≠ .exited)
    (hqueue : p.workers t = .taking → p.taskQueue ≠ []) : (p.workerStep t now).isSome := by
  unfold workerStep
  split
  · rename_i hw
    rw [hw] at habs
    exact absurd rfl habs
  · rename_i hw
    rw [hw] at hex
    exact absurd rfl hex
  · rfl
  · rename_i hw
    have hne := hqueue hw
    split
    · rename_i hnil
      exact absurd hnil hne
    · rfl
    · rfl
  all_goals rfl

theorem Sound.taking_progress {i n size : Nat} (h : p.Sound (.taking i n size)) (hp : p.Poisoned (.taking i n size)) (hi : i < n)
    (hnone : p.stoppedThreads = []) : ∃ t, (p.workerStep t 0).isSome := by
  obtain ⟨hcstop, hcnonneg, hcalive, hcsize⟩ := h.counts
  have hcount := hp.count
  simp only [Controller.taken, Controller.quota, Controller.hand, Controller.toPoison, Controller.SizeIs, hnone,
    List.length_nil, Option.toList_none] at hcstop hcalive hcsize hcount
  by_cases hdeparting : 0 < p.total Worker.departing
  · obtain ⟨t, -, ht⟩ := Lib.exists_of_tally_pos hdeparting
    have hstage : (p.workers t).stage = .departing := by
      by_contra hne
      rw [Worker.departing, if_neg hne] at ht
      omega
    refine ⟨t, workerStep_isSome (by rw [hstage]; decide) (by rw [hstage]; decide) fun hw => ?_⟩
    rw [hw] at hstage
    cases hstage
  · by_cases hholds : 0 < p.total Worker.holdsPoison
    · obtain ⟨t, -, ht⟩ := Lib.exists_of_tally_pos hholds
      have hw : p.workers t = .poisoned := by
        by_contra hne
        rw [Worker.holdsPoison, if_neg hne] at ht
        omega
      refine ⟨t, workerStep_isSome (by rw [hw]; decide) (by rw [hw]; decide) fun hw' => ?_⟩
      rw [hw] at hw'
      cases hw'
    · -- the poison is in the queue, and some thread is there to take it
      have halive : 0 < p.total Worker.alive := by omega
      obtain ⟨t, -, ht⟩ := Lib.exists_of_tally_pos halive
      have hstage : (p.workers t).stage = .alive := by
        by_contra hne
        rw [Worker.alive, if_neg hne] at ht
        omega
      refine ⟨t, workerStep_isSome (by rw [hstage]; decide) (by rw [hstage]; decide) fun _ hnil => ?_⟩
      have : p.poisons = 0 := by rw [poisons, hnil, List.count_nil]
      omega

end Pool

namespace PoolState

variable {s s' : PoolState} {l : Label} {ls ms : List Label} {isJoin : Bool} {numThreads : Nat}

/-- A step of a worker, or of the call in progress. -/
def Label.Internal : Label → Prop
  | .controller => True
  | .worker _ _ => True
  | _ => False

theorem step_worker_isSome (hfailed : s.pool.failed = none) {t : Nat} (h : (s.pool.workerStep t 0).isSome) :
    (s.step (.worker t 0)).isSome := by
  simp [step, hfailed, h]

theorem step_controller_isSome (hfailed : s.pool.failed = none) (h : (s.pool.controllerStep s.controller).isSome) :
    (s.step .controller).isSome := by
  simp [step, hfailed, h]

/-- **A call does not get stuck.** -/
theorem Inv.progress (h : s.Inv) : s.controller = .idle ∨ ∃ l : Label, l.Internal ∧ (s.step l).isSome := by
  obtain ⟨hsound, hpoisoned⟩ := h
  have hfailed := hsound.failed
  cases hc : s.controller with
  | idle => exact Or.inl rfl
  | locking call =>
    right
    refine ⟨.controller, trivial, step_controller_isSome hfailed ?_⟩
    have hlock := hsound.lock
    rw [hc] at hlock
    simp only [Controller.holding, Prod.mk.injEq] at hlock
    cases call <;> simp [hc, Pool.controllerStep, Pool.lock, hlock]
  | waiting todo newThreads size =>
    right
    cases todo with
    | nil => exact ⟨.controller, trivial, step_controller_isSome hfailed (by simp [hc, Pool.controllerStep])⟩
    | cons t todo =>
      by_cases hw : s.pool.workers t = .starting
      · refine ⟨.worker t 0, trivial, step_worker_isSome hfailed ?_⟩
        exact Pool.workerStep_isSome (by rw [hw]; decide) (by rw [hw]; decide) fun hw' => by
          rw [hw] at hw'
          cases hw'
      · exact ⟨.controller, trivial, step_controller_isSome hfailed (by simp [hc, Pool.controllerStep, hw])⟩
  | taking i n size =>
    right
    by_cases hi : i < n
    · cases hstop : s.pool.stoppedThreads with
      | nil =>
        rw [hc] at hsound hpoisoned
        obtain ⟨t, ht⟩ := hsound.taking_progress hpoisoned hi hstop
        exact ⟨.worker t 0, trivial, step_worker_isSome hfailed ht⟩
      | cons t rest =>
        exact ⟨.controller, trivial, step_controller_isSome hfailed (by simp [hc, Pool.controllerStep, hi, hstop])⟩
    · exact ⟨.controller, trivial, step_controller_isSome hfailed (by simp [hc, Pool.controllerStep, hi])⟩
  | joining t i n size =>
    right
    by_cases hw : s.pool.workers t = .exited
    · exact ⟨.controller, trivial, step_controller_isSome hfailed (by simp [hc, Pool.controllerStep, hw])⟩
    · rw [hc] at hsound
      refine ⟨.worker t 0, trivial, step_worker_isSome hfailed ?_⟩
      have hmem := (hsound.listed.hand t rfl).1
      have hgone := (hsound.listed.gone t hmem).mpr (Or.inr rfl)
      refine Pool.workerStep_isSome (hsound.listed.listed t hmem) (fun hex => hw ?_) fun hw' => ?_
      · revert hex
        cases s.pool.workers t <;> simp [Worker.stage]
      · rw [hw'] at hgone
        simp [Worker.stage] at hgone
  | making todo newThreads size =>
    refine Or.inr ⟨.controller, trivial, step_controller_isSome hfailed ?_⟩
    cases todo <;> simp [hc, Pool.controllerStep]
  | creating todo newThreads size =>
    refine Or.inr ⟨.controller, trivial, step_controller_isSome hfailed ?_⟩
    cases todo <;> simp [hc, Pool.controllerStep]
  | telling todo size =>
    refine Or.inr ⟨.controller, trivial, step_controller_isSome hfailed ?_⟩
    cases todo <;> simp [hc, Pool.controllerStep]
  | poisoning i n size =>
    refine Or.inr ⟨.controller, trivial, step_controller_isSome hfailed ?_⟩
    by_cases hi : i < n <;> simp [hc, Pool.controllerStep, hi]
  | observing o todo =>
    refine Or.inr ⟨.controller, trivial, step_controller_isSome hfailed ?_⟩
    cases todo <;> simp [hc, Pool.controllerStep]
  | unobserving o todo =>
    refine Or.inr ⟨.controller, trivial, step_controller_isSome hfailed ?_⟩
    cases todo <;> simp [hc, Pool.controllerStep]
  | _ => exact Or.inr ⟨.controller, trivial, step_controller_isSome hfailed (by simp [hc, Pool.controllerStep])⟩

theorem JoinInv.internal (h : s.JoinInv) (hl : l.Internal) (hs : s.step l = some s') :
    s'.JoinInv ∧ (s.pool.ControllerMoves s.controller s'.controller s'.pool ∨
      s'.controller = s.controller ∧ ∃ t now w v, s.pool.workers t = w ∧ s.pool.WorkerMoves t now w v s'.pool) := by
  have h' : s'.JoinInv := step_joinInv (fun hstop => by rw [hstop] at hl; exact hl) h hs
  refine ⟨h', ?_⟩
  rcases step_cases hs with ⟨-, task, rfl, -⟩ | ⟨-, c, rfl, -⟩ | ⟨-, hmove⟩ | ⟨-, habort⟩ |
    ⟨t, now, w, v, -, hw, hmove, hc⟩ | ⟨t, now, -, -, hfailed, -, -, -⟩
  · exact absurd hl id
  · exact absurd hl id
  · exact Or.inl hmove
  · exact absurd habort.fails h.inv.sound.not_fails
  · exact Or.inr ⟨hc, t, now, w, v, hw, hmove⟩
  · rw [h'.inv.sound.failed] at hfailed
    cases hfailed

/-- **A call that resizes the pool returns.** -/
theorem JoinInv.finishes (h : s.JoinInv) (hresizes : s.controller.Resizes) :
    Lib.Finishes step Label.Internal (fun s => s.controller = .idle) s := by
  refine Lib.finishes_of_work (I := fun s => s.JoinInv ∧ s.controller.Resizes) (fun s => s.pool.work s.controller)
    (fun s l s' hI hl hs => ?_) (fun s hI => hI.1.inv.progress) ⟨h, hresizes⟩
  obtain ⟨h', hmove | ⟨hsame, t, now, w, v, hw, hmove⟩⟩ := hI.1.internal hl hs
  · obtain ⟨hc, hless⟩ := Pool.work_controllerMoves hI.1.inv.sound hI.2 hmove
    exact ⟨⟨h', hc⟩, hless⟩
  · refine ⟨⟨h', hsame ▸ hI.2⟩, ?_⟩
    show s'.pool.work s'.controller < s.pool.work s.controller
    rw [hsame]
    exact Pool.work_workerMoves hI.1.inv.sound hw hmove

theorem JoinInv.run_internal {I : Pool → Controller → Prop} (h : s.JoinInv) (hI : I s.pool s.controller)
    (hcontroller : ∀ s s' : PoolState, s.JoinInv → I s.pool s.controller →
      s.pool.ControllerMoves s.controller s'.controller s'.pool → I s'.pool s'.controller)
    (hworker : ∀ (p p' : Pool) (c : Controller) (t now : Nat) (w v : Worker), I p c → p.WorkerMoves t now w v p' → I p' c)
    (hls : ∀ l ∈ ls, l.Internal) (hrun : Lib.run step s ls = some s') : s'.JoinInv ∧ I s'.pool s'.controller := by
  refine Lib.run_invariant_where (I := fun s => s.JoinInv ∧ I s.pool s.controller) (fun s l s' hI hl hs => ?_) ⟨h, hI⟩
    (Lib.StepsMeet.of_forall fun l hl _ => hls l hl) hrun
  obtain ⟨h', hmove | ⟨hsame, t, now, w, v, -, hmove⟩⟩ := hI.1.internal hl hs
  · exact ⟨h', hcontroller s s' hI.1 hI.2 hmove⟩
  · rw [hsame]
    exact ⟨h', hworker _ _ _ t now w v hI.2 hmove⟩

/-! ### When a call has returned -/

theorem controller_aims {p p' : Pool} {c c' : Controller} {n : Nat} (haim : c.aim = some n)
    (hs : Pool.ControllerMoves p c c' p') : c'.aim = some n ∨ c' = .idle ∧ p'.threads.length = n := by
  cases hs with
  | lock call q hq => cases call <;> exact Or.inl haim
  | unlock call => cases call <;> exact Or.inl haim
  | last size hsize =>
    rw [Controller.aim, Option.some.injEq] at haim
    exact Or.inr ⟨rfl, hsize.trans haim⟩
  | _ => first | exact Or.inl haim | cases haim

/-- A `join` of a pool with threads: until it has returned, it removes some threads and leaves none, and from
its last check on the queue is empty. -/
def Drains (p : Pool) : Controller → Prop
  | .locking call => call = .join ∧ p.threads ≠ []
  | .unlocking call => call = .join ∧ p.threads ≠ []
  | .entering call => call = .join ∧ p.threads ≠ []
  | .returning size => size = 0 ∧ p.taskQueue = []
  | .idle => p.threads = [] ∧ p.taskQueue = []
  | c => c.aim = some 0 ∧ ∃ n, 0 < n ∧ c.removes = some n

theorem drains_controllerMoves {p p' : Pool} {c c' : Controller} (h : p.Sound c) (hp : p.Poisoned c) (ht : p.Tasks c)
    (hrestored : p.total Worker.restores = 0) (hd : Drains p c) (hs : Pool.ControllerMoves p c c' p') : Drains p' c' := by
  cases hs with
  | lock call q hq =>
    refine ⟨hd.1, ?_⟩
    rw [(Pool.lock_cases h.lock hq).1.threads]
    exact hd.2
  | unlock call =>
    refine ⟨hd.1, ?_⟩
    rw [(Pool.unlock_cases h.lock).1.threads]
    exact hd.2
  | join => exact ⟨rfl, p.threads.length, List.length_pos_iff.mpr hd.2, rfl⟩
  | grow n hlt => cases hd.1
  | shrink n hgt => cases hd.1
  | keep n heq => cases hd.1
  | stop => cases hd.1
  | addObserver o => cases hd.1
  | removeObserver o => cases hd.1
  | check n size hnone =>
    obtain ⟨haim, m, hpos, hm⟩ := hd
    have hn : 0 < n := by
      rw [Controller.removes, Option.some.injEq] at hm
      omega
    rw [Controller.aim, Option.some.injEq] at haim
    refine ⟨haim, List.eq_nil_iff_forall_not_mem.mpr fun x hx => ?_⟩
    -- all poison has been taken, so what is in the queue is poison, and there is none
    have hzero := (h.calm (le_refl _)).2.2
    have hcount := hp.count
    simp only [Controller.toPoison] at hcount
    have hall := ht.drained (show 0 + p.poisons < n by omega) x hx
    have hnone : p.poisons = 0 := by omega
    rw [Pool.poisons, List.count_eq_zero] at hnone
    exact hnone (hall ▸ hx)
  | last size hsize =>
    obtain ⟨rfl, hqueue⟩ := hd
    exact ⟨List.length_eq_zero_iff.mp hsize, hqueue⟩
  | told size =>
    obtain ⟨-, n, -, hn⟩ := hd
    cases hn
  | _ => first | exact hd | (obtain ⟨-, n, -, hn⟩ := hd; cases hn)

theorem JoinInv.run_added (h : s.JoinInv) (hls : ∀ l ∈ ls, l.Internal) (hrun : Lib.run step s ls = some s') :
    s'.pool.added = s.pool.added :=
  (h.run_internal (I := fun p _ => p.added = s.pool.added) rfl (fun _ _ _ hI hmove => hmove.frame.added.trans hI)
    (fun _ _ _ _ _ _ _ hI hmove => hmove.added.1.trans hI) hls hrun).2

theorem JoinInv.run_setNumThreads (h : s.JoinInv) {n : Nat} (haim : s.controller.aim = some n)
    (hls : ∀ l ∈ ls, l.Internal) (hrun : Lib.run step s ls = some s') (hidle : s'.controller = .idle) :
    s'.pool.threads.length = n := by
  have hI := (h.run_internal (I := fun p c => c.aim = some n ∨ c = .idle ∧ p.threads.length = n) (Or.inl haim)
    (fun s s' _ hI hmove => ?_) (fun p p' c t now w v hI hmove => ?_) hls hrun).2
  · rcases hI with haim | ⟨-, hlength⟩
    · rw [hidle] at haim
      cases haim
    · exact hlength
  · rcases hI with haim | ⟨hidle, -⟩
    · exact controller_aims haim hmove
    · rw [hidle] at hmove
      cases hmove
  · rw [hmove.moves.threads]
    exact hI

theorem JoinInv.run_join (h : s.JoinInv) (hd : Drains s.pool s.controller) (hls : ∀ l ∈ ls, l.Internal)
    (hrun : Lib.run step s ls = some s') (hidle : s'.controller = .idle) :
    s'.pool.threads = [] ∧ s'.pool.taskQueue = [] := by
  have hI := (h.run_internal (I := Drains) hd (fun s s' h hd hmove => ?_) (fun p p' c t now w v hd hmove => ?_) hls hrun).2
  · rw [hidle] at hI
    exact hI
  · have hrestored : s.pool.total Worker.restores = 0 := Lib.tally_eq_zero fun t _ =>
      if_neg fun hw => h.noStop.not_inBranch h.inv.sound (Or.inr hw)
    exact drains_controllerMoves h.inv.sound h.inv.poisoned h.tasks hrestored hd hmove
  · have hqueue : p.taskQueue = [] → p'.taskQueue = [] := by
      intro hnil
      cases hmove with
      | takePoison rest hq => rw [hnil] at hq; cases hq
      | takeTask id task rest hq => rw [hnil] at hq; cases hq
      | _ => exact hnil
    have hthreads := hmove.moves.threads
    cases c with
    | returning size => exact ⟨hd.1, hqueue hd.2⟩
    | idle => exact ⟨hthreads.trans hd.1, hqueue hd.2⟩
    | locking call => exact ⟨hd.1, hthreads ▸ hd.2⟩
    | unlocking call => exact ⟨hd.1, hthreads ▸ hd.2⟩
    | entering call => exact ⟨hd.1, hthreads ▸ hd.2⟩
    | _ => exact hd

theorem JoinInv.all_done (h : s.JoinInv) (hthreads : s.pool.threads = []) (hqueue : s.pool.taskQueue = []) :
    (s.pool.done.map Prod.fst).Perm (List.range s.pool.added.length) := by
  rw [List.perm_iff_count]
  intro id
  have hid := h.tasks.once id
  have hqueued : s.pool.queued id = 0 := by rw [Pool.queued, hqueue, List.countP_nil]
  have hheld : s.pool.total (Worker.holdsTask id) = 0 := Lib.tally_eq_zero fun t _ => by
    have hout := h.inv.sound.listed.unlisted t (by rw [hthreads]; exact List.not_mem_nil)
    revert hout
    cases s.pool.workers t <;> simp [Worker.stage, Worker.holdsTask]
  have hrange : (List.range s.pool.added.length).count id = if id < s.pool.added.length then 1 else 0 := by
    rw [List.Nodup.count List.nodup_range]
    simp
  rw [hrange, ← hid, hqueued, hheld, Nat.zero_add]
  rfl

theorem JoinInv.done_nodup (h : s.JoinInv) : (s.pool.done.map Prod.fst).Nodup := by
  rw [List.nodup_iff_count_le_one]
  intro id
  have hid := h.tasks.once id
  show s.pool.finished id ≤ 1
  split_ifs at hid <;> omega

/-- **`join` runs every task once.** In every run of a pool with one controller that does not stop it:

* no task is run twice, and each that was run or had expired ended as `runTask` says for its own data;
* `setNumThreads(n)` returns, whatever the order of the steps; when it has, there are `n` threads, all
  of them take tasks, and each task is in the queue, with a worker, or done;
* `join` of a pool with threads returns; when it has, every task added before is done, once. -/
theorem join_runs_every_task (hls : ∀ l ∈ ls, l ≠ .call .stop)
    (hrun : Lib.run step (start isJoin numThreads) ls = some s) :
    (s.pool.done.map Prod.fst).Nodup ∧
    (∀ id result, (id, result) ∈ s.pool.done →
      ∃ task startTime, s.pool.added[id]? = some task ∧ result = runTask task startTime) ∧
    (s.controller = .idle → ∀ n,
      Lib.Finishes step Label.Internal (fun s => s.controller = .idle) ⟨s.pool, .locking (.setNumThreads n)⟩ ∧
      ∀ ms s', (∀ l ∈ ms, l.Internal) → Lib.run step s (.call (.setNumThreads n) :: ms) = some s' → s'.controller = .idle →
        s'.pool.threads.length = n ∧
        (∀ t ∈ s'.pool.threads, (s'.pool.workers t).stage = .alive ∧ s'.pool.workers t ≠ .poisoned) ∧
        ∀ id < s.pool.added.length,
          s'.pool.queued id + s'.pool.total (Worker.holdsTask id) + (s'.pool.done.map Prod.fst).count id = 1) ∧
    (s.controller = .idle → s.pool.threads ≠ [] →
      Lib.Finishes step Label.Internal (fun s => s.controller = .idle) ⟨s.pool, .locking .join⟩ ∧
      ∀ ms s', (∀ l ∈ ms, l.Internal) → Lib.run step s (.call .join :: ms) = some s' → s'.controller = .idle →
        (s'.pool.done.map Prod.fst).Perm (List.range s.pool.added.length)) := by
  have h : s.JoinInv := run_joinInv hls joinInv_start hrun
  have hcall : ∀ c, c ≠ .stop → s.controller = .idle → s.step (.call c) = some ⟨s.pool, .locking c⟩ ∧
      JoinInv ⟨s.pool, .locking c⟩ := by
    intro c hc hidle
    have hs : s.step (.call c) = some ⟨s.pool, .locking c⟩ := by simp [step, h.inv.sound.failed, hidle]
    exact ⟨hs, step_joinInv (fun heq => hc (by cases heq; rfl)) h hs⟩
  refine ⟨h.done_nodup, h.own.done, fun hidle n => ?_, fun hidle hthreads => ?_⟩
  · obtain ⟨hs, h₁⟩ := hcall (.setNumThreads n) nofun hidle
    refine ⟨h₁.finishes trivial, fun ms s' hms hrun' hidle' => ?_⟩
    rw [Lib.run_cons, hs, Option.bind_some] at hrun'
    have h₂ := run_joinInv (fun l hl hstop => by have := hms l hl; rw [hstop] at this; exact this) h₁ hrun'
    refine ⟨h₁.run_setNumThreads rfl hms hrun' hidle', h₂.inv.workers_alive (Or.inl hidle'), fun id hid => ?_⟩
    have hadded := h₁.run_added hms hrun'
    have hone := h₂.tasks.once id
    rw [hadded, if_pos hid] at hone
    exact hone
  · obtain ⟨hs, h₁⟩ := hcall .join nofun hidle
    refine ⟨h₁.finishes trivial, fun ms s' hms hrun' hidle' => ?_⟩
    rw [Lib.run_cons, hs, Option.bind_some] at hrun'
    have h₂ := run_joinInv (fun l hl hstop => by have := hms l hl; rw [hstop] at this; exact this) h₁ hrun'
    obtain ⟨hnone, hqueue⟩ := h₁.run_join ⟨rfl, hthreads⟩ hms hrun' hidle'
    have hdone := h₂.all_done hnone hqueue
    rw [h₁.run_added hms hrun'] at hdone
    exact hdone

/-- A pool of one thread with one task is joined. -/
theorem join_runs_every_task_one :
    ∃ s s', Lib.run step (start true 1) (constructorLabels ++ [.add ⟨0, 0, false⟩, .worker 0 0]) = some s ∧
      Lib.run step s (.call .join :: (List.replicate 9 .controller ++ List.replicate 9 (.worker 0 0) ++
        List.replicate 6 .controller)) = some s' ∧
      (s'.pool.done.map Prod.fst).Perm (List.range 1) := by
  obtain ⟨s, hs⟩ : ∃ s, Lib.run step (start true 1) (constructorLabels ++ [.add ⟨0, 0, false⟩, .worker 0 0]) = some s :=
    ⟨_, rfl⟩
  obtain ⟨s', hs'⟩ : ∃ s', Lib.run step s (.call .join :: (List.replicate 9 .controller ++ List.replicate 9 (.worker 0 0) ++
      List.replicate 6 .controller)) = some s' := by
    cases hs
    exact ⟨_, rfl⟩
  have hjoin := (join_runs_every_task (by decide) hs).2.2.2
  have hstate : s.controller = .idle ∧ s.pool.threads ≠ [] ∧ s.pool.added.length = 1 := by
    cases hs
    exact ⟨rfl, nofun, rfl⟩
  have hidle' : s'.controller = .idle := by
    cases hs
    cases hs'
    rfl
  refine ⟨s, s', hs, hs', ?_⟩
  rw [← hstate.2.2]
  refine (hjoin hstate.1 hstate.2.1).2 _ s' (fun l hl => ?_) hs' hidle'
  simp only [List.mem_append, List.mem_replicate] at hl
  rcases hl with (hl | hl) | hl
  · rw [hl.2]; trivial
  · rw [hl.2]; trivial
  · rw [hl.2]; trivial

end PoolState

end Raster
