import Raster.Concurrency.ThreadPool
import Raster.Lib.Tally

/-!
# The threads of a pool

What the workers and one controller keep. A thread that is in `threads_` runs, is on its way out, or has
left and is in `stoppedThreads_` or in the hands of the controller. While `removeThreads(n)` waits,
`threadsToStop_` is `n` less the threads that have decided to leave, apart from the workers that have
taken one off and are about to put it back.

This module says what holds of the workers, of `threads_` and of `stoppedThreads_` at each place of the
controller, and proves that the workers keep it.
-/

namespace Raster

open Lib (tally tally_update tally_succ le_tally)

/-! ### Places -/

namespace Worker

/-- How far a thread is in its life. -/
inductive Stage
  | absent
  | alive
  | departing
  | returning
  | exited
  deriving DecidableEq, Repr

def stage : Worker → Stage
  | .absent => .absent
  | .telling _ => .departing
  | .stopping => .departing
  | .returning => .returning
  | .exited => .exited
  | _ => .alive

/-- The thread takes tasks, or holds one. -/
def alive (w : Worker) : Nat := if w.stage = .alive then 1 else 0

/-- The thread has decided to leave. -/
def departing (w : Worker) : Nat := if w.stage = .departing then 1 else 0

/-- The thread is about to put back what it took off `threadsToStop_`. -/
def restores (w : Worker) : Nat := if w = .restoring then 1 else 0

/-- The thread has found that the pool is being stopped. -/
def InBranch (w : Worker) : Prop := w = .leaving ∨ w = .restoring

end Worker

namespace Controller

/-- The number that `threadsToStop_` was set to, until the call is done with it. -/
def quota : Controller → Nat
  | .poisoning _ n _ => n
  | .taking _ n _ => n
  | .joining _ _ n _ => n
  | .erasing _ _ n _ => n
  | .checking n _ => n
  | _ => 0

/-- The number of threads taken from `stoppedThreads_`. -/
def taken : Controller → Nat
  | .taking i _ _ => i
  | .joining _ i _ _ => i + 1
  | .erasing _ i _ _ => i + 1
  | .checking n _ => n
  | _ => 0

/-- The thread that was taken and is not erased yet. -/
def hand : Controller → Option Nat
  | .joining t _ _ _ => some t
  | .erasing t _ _ _ => some t
  | _ => none

/-- What the call will leave in `threads_`, once `isJoin_` is set for it. -/
def decided : Controller → Option Nat
  | .stopping _ size => some size
  | .settingStop _ size => some size
  | .poisoning _ _ size => some size
  | .taking _ _ size => some size
  | .joining _ _ _ size => some size
  | .erasing _ _ _ size => some size
  | .checking _ size => some size
  | _ => none

/-- What a call knows of `threads_.size()`. -/
def SizeIs (length : Nat) : Controller → Prop
  | .making todo newThreads size => length + newThreads.length + todo = size
  | .creating todo _ size => length + todo.length = size
  | .sorting _ size => length = size
  | .waiting _ _ size => length = size
  | .telling _ size => length = size
  | .removing n isJoin size => length = size + n ∧ (isJoin = false → size = 0)
  | .settingJoin n isJoin size => length = size + n ∧ (isJoin = false → size = 0)
  | .stopping n size => length = size + n
  | .settingStop n size => length = size + n
  | .poisoning i n size => length = size + n ∧ i ≤ n
  | .taking i n size => length + i = size + n ∧ i ≤ n
  | .joining _ i n size => length + i = size + n ∧ i < n
  | .erasing _ i n size => length + i = size + n ∧ i < n
  | .checking _ size => length = size
  | .returning size => length = size
  | _ => True

/-- The threads that were made and are not created yet. -/
def fresh : Controller → List Nat
  | .making _ newThreads _ => newThreads
  | .creating todo _ _ => todo
  | _ => []

/-- Between `push_back` and `std::sort`. -/
def unsorted : Controller → Bool
  | .creating _ _ _ => true
  | .sorting _ _ => true
  | _ => false

/-- The writer and the readers of `threadsLock_`: the holder exists from one step of a call to the next. -/
def holding : Controller → Bool × Nat
  | .unlocking (.addObserver _) => (false, 1)
  | .unlocking (.removeObserver _) => (false, 1)
  | .unlocking _ => (true, 0)
  | _ => (false, 0)

/-- What the invariant reads of the place of the controller, apart from the size it expects. -/
def view (c : Controller) : Nat × Nat × Option Nat × Option Nat × List Nat × Bool :=
  (c.quota, c.taken, c.hand, c.decided, c.fresh, c.unsorted)

end Controller

namespace Pool

variable {p p' : Pool} {c c' : Controller} {t now : Nat}

/-! ### The invariant -/

/-- The weight of all threads. -/
def total (p : Pool) (w : Worker → Nat) : Nat := tally p.nextId p.workers w

/-- The numbers. -/
structure Counts (p : Pool) (c : Controller) : Prop where
  stop : p.threadsToStop + p.total Worker.restores + p.total Worker.departing + p.stoppedThreads.length + c.taken = c.quota
  nonneg : 0 ≤ p.threadsToStop + p.total Worker.restores
  alive : p.threads.length =
    p.total Worker.alive + p.total Worker.departing + p.stoppedThreads.length + c.hand.toList.length
  size : c.SizeIs p.threads.length

/-- When a worker may be in the branch that a pool being stopped takes. -/
structure Modes (p : Pool) (c : Controller) : Prop where
  branch : ∀ t, (p.workers t).InBranch ∨ p.isJoin = false ∧ p.workers t = .testingJoin →
    p.isJoin = false ∧ c.decided = some 0
  join : ∀ size, c.decided = some size → p.isJoin = false → size = 0

/-- Who is in `threads_` and `stoppedThreads_`. -/
structure Listed (p : Pool) (c : Controller) : Prop where
  unknown : ∀ t, p.nextId ≤ t → p.workers t = .absent
  listed : ∀ t ∈ p.threads, (p.workers t).stage ≠ .absent
  unlisted : ∀ t, t ∉ p.threads → (p.workers t).stage = .absent ∨ (p.workers t).stage = .exited
  gone : ∀ t ∈ p.threads, (p.workers t).stage = .returning ∨ (p.workers t).stage = .exited ↔
    t ∈ p.stoppedThreads ∨ c.hand = some t
  stopped : ∀ t ∈ p.stoppedThreads, t ∈ p.threads
  hand : ∀ t, c.hand = some t → t ∈ p.threads ∧ t ∉ p.stoppedThreads
  erasing : ∀ t i n size, c = .erasing t i n size → p.workers t = .exited
  nodup : p.threads.Nodup
  stoppedNodup : p.stoppedThreads.Nodup
  sorted : c.unsorted = false → p.threads.Pairwise (· ≤ ·)
  fresh : ∀ t ∈ c.fresh, t < p.nextId ∧ p.workers t = .absent
  freshNodup : c.fresh.Nodup

/-- What every step keeps that does not assign `threadsToStop_` too early. -/
structure Sound (p : Pool) (c : Controller) : Prop where
  counts : p.Counts c
  modes : p.Modes c
  listed : p.Listed c
  lock : (p.writer, p.readers) = c.holding
  failed : p.failed = none

theorem sound_initial (isJoin : Bool) (numThreads : Nat) : (initial isJoin).Sound (.making numThreads [] numThreads) where
  counts := {
    stop := by simp [initial, total, tally, Controller.taken, Controller.quota]
    nonneg := by simp [initial, total, tally]
    alive := by simp [initial, total, tally, Controller.hand]
    size := by simp [initial, Controller.SizeIs] }
  modes := {
    branch := by
      intro t ht
      rcases ht with ht | ht
      · rcases ht with ht | ht <;> cases ht
      · cases ht.2
    join := by
      intro size hsize
      cases hsize }
  listed := {
    unknown := fun _ _ => rfl
    listed := nofun
    unlisted := fun _ _ => Or.inl rfl
    gone := nofun
    stopped := nofun
    hand := nofun
    erasing := nofun
    nodup := List.nodup_nil
    stoppedNodup := List.nodup_nil
    sorted := fun _ => List.Pairwise.nil
    fresh := nofun
    freshNodup := List.nodup_nil }
  lock := rfl
  failed := rfl

/-! ### A worker moves -/

theorem Listed.lt_nextId (h : p.Listed c) (ht : p.workers t ≠ .absent) : t < p.nextId := by
  by_contra hge
  exact ht (h.unknown t (Nat.le_of_not_lt hge))

/-- Only the worker `t` moves; the counter and the queues may change, and what is kept of the run. -/
structure Moves (t : Nat) (v : Worker) (p q : Pool) : Prop where
  workers : q.workers = Function.update p.workers t v
  threads : q.threads = p.threads
  nextId : q.nextId = p.nextId
  isJoin : q.isJoin = p.isJoin
  lock : (q.writer, q.readers) = (p.writer, p.readers)
  failed : q.failed = p.failed

/-- What a worker can do: the place it is in, the place it goes to, and the pool after it. -/
inductive WorkerMoves (p : Pool) (t now : Nat) : Worker → Worker → Pool → Prop
  | post : WorkerMoves p t now .starting .taking (p.setWorker t .taking)
  | takePoison (rest : List CPUTask) (hqueue : p.taskQueue = .poison :: rest) :
      WorkerMoves p t now .taking .poisoned { p.setWorker t .poisoned with taskQueue := rest }
  | takeTask (id : Nat) (task : PoolTask) (rest : List CPUTask) (hqueue : p.taskQueue = .task id task :: rest) :
      WorkerMoves p t now .taking (.took id task) { p.setWorker t (.took id task) with taskQueue := rest }
  | count (hpos : 0 < p.threadsToStop) : WorkerMoves p t now .poisoned (.telling p.observers)
      { p.setWorker t (.telling p.observers) with threadsToStop := p.threadsToStop - 1 }
  | tellAll : WorkerMoves p t now (.telling []) .stopping (p.setWorker t .stopping)
  | tell (o : Nat) (os : List Nat) : WorkerMoves p t now (.telling (o :: os)) (.telling os)
      ((p.setWorker t (.telling os)).tell .threadStopped o t)
  | stop : WorkerMoves p t now .stopping .returning
      { p.setWorker t .returning with stoppedThreads := p.stoppedThreads ++ [t] }
  | exit : WorkerMoves p t now .returning .exited (p.setWorker t .exited)
  | begin (id : Nat) (task : PoolTask) : WorkerMoves p t now (.took id task) (.running id (runTask task now))
      (p.setWorker t (.running id (runTask task now)))
  | finish (id : Nat) (result : TaskEnd) : WorkerMoves p t now (.running id result) .testing
      { p.setWorker t .testing with done := p.done ++ [(id, result)] }
  | wanted (hpos : 0 < p.threadsToStop) : WorkerMoves p t now .testing .testingJoin (p.setWorker t .testingJoin)
  | unwanted (hneg : p.threadsToStop ≤ 0) : WorkerMoves p t now .testing .taking (p.setWorker t .taking)
  | join (hjoin : p.isJoin = true) : WorkerMoves p t now .testingJoin .taking (p.setWorker t .taking)
  | notJoin (hjoin : p.isJoin = false) : WorkerMoves p t now .testingJoin .leaving (p.setWorker t .leaving)
  | leave (hpos : 0 < p.threadsToStop) : WorkerMoves p t now .leaving .stopping
      { p.setWorker t .stopping with threadsToStop := p.threadsToStop - 1 }
  | tooLate (hneg : p.threadsToStop ≤ 0) : WorkerMoves p t now .leaving .restoring
      { p.setWorker t .restoring with threadsToStop := p.threadsToStop - 1 }
  | restore : WorkerMoves p t now .restoring .taking { p.setWorker t .taking with threadsToStop := p.threadsToStop + 1 }

theorem workerStep_cases (hs : p.workerStep t now = some p') :
    (∃ w v, p.workers t = w ∧ WorkerMoves p t now w v p') ∨
    p'.failed = some .threadsToStop ∧ p.workers t = .poisoned ∧ p.threadsToStop ≤ 0 ∧
      Moves t (.telling p.observers) p { p' with failed := p.failed } ∧ p'.notices = p.notices := by
  unfold workerStep at hs
  split at hs
  · cases hs
  · cases hs
  · rename_i hw
    cases hs
    exact Or.inl ⟨_, _, hw, .post⟩
  · rename_i hw
    split at hs
    · cases hs
    · rename_i rest hqueue
      cases hs
      exact Or.inl ⟨_, _, hw, .takePoison rest hqueue⟩
    · rename_i id task rest hqueue
      cases hs
      exact Or.inl ⟨_, _, hw, .takeTask id task rest hqueue⟩
  · rename_i hw
    rw [Option.some.injEq] at hs
    subst hs
    by_cases hpos : 0 < p.threadsToStop
    · left
      simp only [check, hpos, decide_true, if_true]
      exact ⟨_, _, hw, .count hpos⟩
    · right
      simp only [check, hpos, decide_false]
      exact ⟨rfl, hw, Int.not_lt.mp hpos, ⟨rfl, rfl, rfl, rfl, rfl, rfl⟩, rfl⟩
  · rename_i hw
    cases hs
    exact Or.inl ⟨_, _, hw, .tellAll⟩
  · rename_i o os hw
    cases hs
    exact Or.inl ⟨_, _, hw, .tell o os⟩
  · rename_i hw
    cases hs
    exact Or.inl ⟨_, _, hw, .stop⟩
  · rename_i hw
    cases hs
    exact Or.inl ⟨_, _, hw, .exit⟩
  · rename_i id task hw
    cases hs
    exact Or.inl ⟨_, _, hw, .begin id task⟩
  · rename_i id result hw
    cases hs
    exact Or.inl ⟨_, _, hw, .finish id result⟩
  · rename_i hw
    rw [Option.some.injEq] at hs
    subst hs
    split_ifs with hpos
    · exact Or.inl ⟨_, _, hw, .wanted hpos⟩
    · exact Or.inl ⟨_, _, hw, .unwanted (Int.not_lt.mp hpos)⟩
  · rename_i hw
    rw [Option.some.injEq] at hs
    subst hs
    split_ifs with hjoin
    · exact Or.inl ⟨_, _, hw, .join hjoin⟩
    · exact Or.inl ⟨_, _, hw, .notJoin (Bool.not_eq_true _ ▸ hjoin)⟩
  · rename_i hw
    rw [Option.some.injEq] at hs
    subst hs
    split_ifs with hpos
    · exact Or.inl ⟨_, _, hw, .leave (by omega)⟩
    · exact Or.inl ⟨_, _, hw, .tooLate (by omega)⟩
  · rename_i hw
    cases hs
    exact Or.inl ⟨_, _, hw, .restore⟩

theorem WorkerMoves.moves {w v : Worker} (hs : WorkerMoves p t now w v p') : Moves t v p p' := by
  cases hs <;> exact ⟨rfl, rfl, rfl, rfl, rfl, rfl⟩

theorem WorkerMoves.added {w v : Worker} (hs : WorkerMoves p t now w v p') :
    p'.added = p.added ∧ p'.observers = p.observers := by
  cases hs <;> exact ⟨rfl, rfl⟩

theorem WorkerMoves.stopped {w v : Worker} (hs : WorkerMoves p t now w v p') (hw : w ≠ .stopping) :
    p'.stoppedThreads = p.stoppedThreads := by
  cases hs with
  | stop => exact absurd rfl hw
  | _ => rfl

theorem Listed.lt_of_moves {w v : Worker} (h : p.Listed c) (hw : p.workers t = w) (hs : WorkerMoves p t now w v p') :
    t < p.nextId := by
  refine h.lt_nextId fun habs => ?_
  rw [habs] at hw
  subst hw
  cases hs

theorem Listed.move (h : p.Listed c) {w v : Worker} (hw : p.workers t = w)
    (hfrom : w.stage = .alive ∨ w.stage = .departing) (hto : v.stage = .alive ∨ v.stage = .departing)
    {q : Pool} (hq : Moves t v p q) (hstopped : q.stoppedThreads = p.stoppedThreads) : q.Listed c := by
  obtain ⟨hworkers, hthreads, hnext, -, -, -⟩ := hq
  have hne : w ≠ .absent ∧ w ≠ .exited := by
    constructor
    · rintro rfl
      simp [Worker.stage] at hfrom
    · rintro rfl
      simp [Worker.stage] at hfrom
  have hother : ∀ x, x ≠ t → q.workers x = p.workers x := fun x hx => by rw [hworkers, Function.update_of_ne hx]
  have hself : q.workers t = v := by rw [hworkers, Function.update_self]
  have hmem : t ∈ p.threads := by
    by_contra hnot
    rcases h.unlisted t hnot with hs | hs
    · rw [hw] at hs
      simp [hs] at hfrom
    · rw [hw] at hs
      simp [hs] at hfrom
  have hlt : t < p.nextId := h.lt_nextId (by rw [hw]; exact hne.1)
  refine ⟨fun x hx => ?_, fun x hx => ?_, fun x hx => ?_, fun x hx => ?_, fun x hx => ?_, fun x hx => ?_,
    fun x i n size hc => ?_, hthreads ▸ h.nodup, hstopped ▸ h.stoppedNodup, hthreads ▸ h.sorted, fun x hx => ?_,
    h.freshNodup⟩
  · rw [hnext] at hx
    rw [hother x (by omega)]
    exact h.unknown x hx
  · rw [hthreads] at hx
    by_cases hxt : x = t
    · rw [hxt, hself]
      rcases hto with hs | hs <;> simp [hs]
    · rw [hother x hxt]
      exact h.listed x hx
  · rw [hthreads] at hx
    rw [hother x (fun hxt => hx (hxt ▸ hmem))]
    exact h.unlisted x hx
  · rw [hthreads] at hx
    rw [hstopped]
    by_cases hxt : x = t
    · rw [hxt, hself, ← h.gone t hmem, hw]
      constructor
      · intro hs
        rcases hto with hv | hv <;> simp [hv] at hs
      · intro hs
        rcases hfrom with hv | hv <;> simp [hv] at hs
    · rw [hother x hxt]
      exact h.gone x hx
  · rw [hthreads]
    rw [hstopped] at hx
    exact h.stopped x hx
  · rw [hthreads, hstopped]
    exact h.hand x hx
  · have hx := h.erasing x i n size hc
    rw [hother x ?_]
    · exact hx
    · rintro rfl
      exact hne.2 (hw.symm.trans hx)
  · obtain ⟨hx₁, hx₂⟩ := h.fresh x hx
    rw [hnext, hother x ?_]
    · exact ⟨hx₁, hx₂⟩
    · rintro rfl
      exact hne.1 (hw.symm.trans hx₂)

theorem total_move {w : Worker → Nat} {v : Worker} {q : Pool} (hq : Moves t v p q) (ht : t < p.nextId) :
    q.total w + w (p.workers t) = p.total w + w v := by
  unfold total
  rw [hq.workers, hq.nextId]
  exact tally_update ht v

theorem Modes.move (h : p.Modes c) {v : Worker} {q : Pool} (hq : Moves t v p q)
    (hbranch : v.InBranch ∨ p.isJoin = false ∧ v = .testingJoin → p.isJoin = false ∧ c.decided = some 0) : q.Modes c := by
  refine ⟨fun x hx => ?_, fun size hd hj => ?_⟩
  · rw [hq.isJoin] at hx ⊢
    by_cases hxt : x = t
    · rw [hxt, hq.workers, Function.update_self] at hx
      exact hbranch hx
    · rw [hq.workers, Function.update_of_ne hxt] at hx
      exact h.branch x hx
  · rw [hq.isJoin] at hj
    exact h.join size hd hj

/-- A move of a thread keeps the invariant. The counter goes down when the thread decides to leave, and it goes
down and up again when the thread has to put its one back. -/
theorem Sound.move (h : p.Sound c) {w v : Worker} (hw : p.workers t = w)
    (hfrom : w.stage = .alive ∨ w.stage = .departing) (hto : v.stage = .alive ∨ v.stage = .departing)
    {q : Pool} (hq : Moves t v p q) (hstopped : q.stoppedThreads = p.stoppedThreads)
    (hstop : q.threadsToStop + v.restores + v.departing = p.threadsToStop + w.restores + w.departing)
    (hpos : v.departing ≤ w.departing ∨ 0 < p.threadsToStop)
    (hbranch : v.InBranch ∨ p.isJoin = false ∧ v = .testingJoin → p.isJoin = false ∧ c.decided = some 0) :
    q.Sound c := by
  have hlt : t < p.nextId := h.listed.lt_nextId (by
    rw [hw]
    rintro rfl
    simp [Worker.stage] at hfrom)
  have hrestores := total_move (w := Worker.restores) hq hlt
  have hdeparting := total_move (w := Worker.departing) hq hlt
  have halive := total_move (w := Worker.alive) hq hlt
  rw [hw] at hrestores hdeparting halive
  have hone : ∀ x : Worker, x.stage = .alive ∨ x.stage = .departing → x.alive + x.departing = 1 := by
    intro x hx
    unfold Worker.alive Worker.departing
    rcases hx with hx | hx <;> simp [hx]
  have hwone := hone w hfrom
  have hvone := hone v hto
  have hrest : w.restores ≤ p.total Worker.restores := by
    have := le_tally (w := Worker.restores) (f := p.workers) hlt
    rwa [hw] at this
  obtain ⟨hcstop, hcnonneg, hcalive, hcsize⟩ := h.counts
  refine ⟨⟨?_, ?_, ?_, ?_⟩, h.modes.move hq hbranch, h.listed.move hw hfrom hto hq hstopped, ?_, ?_⟩
  · rw [hstopped]
    omega
  · omega
  · rw [hq.threads, hstopped]
    omega
  · rw [hq.threads]
    exact hcsize
  · rw [hq.lock]
    exact h.lock
  · rw [hq.failed]
    exact h.failed

theorem Listed.leave (h : p.Listed c) (hmem : t ∈ p.threads) {v : Worker} (hv : v = .returning ∨ v = .exited)
    {q : Pool} (hq : Moves t v p q) (hsame : ∀ x, x ≠ t → (x ∈ q.stoppedThreads ↔ x ∈ p.stoppedThreads))
    (hto : t ∈ q.stoppedThreads ∨ c.hand = some t) (hhand : c.hand = some t → t ∉ q.stoppedThreads)
    (hnodup : q.stoppedThreads.Nodup) (herasing : p.workers t = .exited → v = .exited) : q.Listed c := by
  have hother : ∀ x, x ≠ t → q.workers x = p.workers x := fun x hx => by rw [hq.workers, Function.update_of_ne hx]
  have hself : q.workers t = v := by rw [hq.workers, Function.update_self]
  have hlisted := h.listed t hmem
  have hne : p.workers t ≠ .absent := fun habs => hlisted (by rw [habs]; rfl)
  have hstage : v.stage = .returning ∨ v.stage = .exited := by
    rcases hv with rfl | rfl
    · exact Or.inl rfl
    · exact Or.inr rfl
  refine ⟨fun x hx => ?_, fun x hx => ?_, fun x hx => ?_, fun x hx => ?_, fun x hx => ?_, fun x hx => ?_,
    fun x i n size hc => ?_, hq.threads ▸ h.nodup, hnodup, hq.threads ▸ h.sorted, fun x hx => ?_, h.freshNodup⟩
  · rw [hq.nextId] at hx
    have hlt := h.lt_nextId hne
    rw [hother x (by omega)]
    exact h.unknown x hx
  · rw [hq.threads] at hx
    by_cases hxt : x = t
    · rw [hxt, hself]
      rcases hstage with hs | hs <;> simp [hs]
    · rw [hother x hxt]
      exact h.listed x hx
  · rw [hq.threads] at hx
    rw [hother x (fun hxt => hx (hxt ▸ hmem))]
    exact h.unlisted x hx
  · rw [hq.threads] at hx
    by_cases hxt : x = t
    · rw [hxt, hself]
      exact ⟨fun _ => hto, fun _ => hstage⟩
    · rw [hother x hxt, hsame x hxt]
      exact h.gone x hx
  · rw [hq.threads]
    by_cases hxt : x = t
    · exact hxt ▸ hmem
    · exact h.stopped x ((hsame x hxt).mp hx)
  · obtain ⟨hx₁, hx₂⟩ := h.hand x hx
    rw [hq.threads]
    refine ⟨hx₁, ?_⟩
    by_cases hxt : x = t
    · rw [hxt] at hx ⊢
      exact hhand hx
    · rw [hsame x hxt]
      exact hx₂
  · have hx := h.erasing x i n size hc
    by_cases hxt : x = t
    · rw [hxt] at hx ⊢
      rw [hself]
      exact herasing hx
    · rw [hother x hxt]
      exact hx
  · obtain ⟨hx₁, hx₂⟩ := h.fresh x hx
    rw [hq.nextId, hother x ?_]
    · exact ⟨hx₁, hx₂⟩
    · rintro rfl
      exact hne hx₂

theorem Listed.inPool (h : p.Listed c) (hs : (p.workers t).stage ≠ .absent) (he : (p.workers t).stage ≠ .exited) :
    t ∈ p.threads := by
  by_contra hnot
  rcases h.unlisted t hnot with hx | hx
  · exact hs hx
  · exact he hx

theorem Listed.stop (h : p.Listed c) (hw : p.workers t = .stopping) {q : Pool} (hq : Moves t .returning p q)
    (hstopped : q.stoppedThreads = p.stoppedThreads ++ [t]) : q.Listed c := by
  have hmem : t ∈ p.threads := h.inPool (by rw [hw]; decide) (by rw [hw]; decide)
  have hgone : ¬ (t ∈ p.stoppedThreads ∨ c.hand = some t) := by
    rw [← h.gone t hmem, hw]
    decide
  refine h.leave hmem (Or.inl rfl) hq (fun x hx => ?_) (Or.inl ?_) (fun hh => ?_) ?_ (fun hh => ?_)
  · simp [hstopped, hx]
  · simp [hstopped]
  · exact absurd (Or.inr hh) hgone
  · rw [hstopped, ← List.concat_eq_append]
    exact List.Nodup.concat (fun hmem => hgone (Or.inl hmem)) h.stoppedNodup
  · rw [hw] at hh
    cases hh

theorem Listed.exit (h : p.Listed c) (hw : p.workers t = .returning) {q : Pool} (hq : Moves t .exited p q)
    (hstopped : q.stoppedThreads = p.stoppedThreads) : q.Listed c := by
  have hmem : t ∈ p.threads := h.inPool (by rw [hw]; decide) (by rw [hw]; decide)
  have hgone : t ∈ p.stoppedThreads ∨ c.hand = some t := by
    rw [← h.gone t hmem, hw]
    decide
  refine h.leave hmem (Or.inr rfl) hq (fun x _ => ?_) ?_ (fun hh => ?_) ?_ fun _ => rfl
  · rw [hstopped]
  · rw [hstopped]
    exact hgone
  · rw [hstopped]
    exact (h.hand t hh).2
  · rw [hstopped]
    exact h.stoppedNodup

theorem Listed.workerMoves (h : p.Listed c) {w v : Worker} (hw : p.workers t = w) (hs : WorkerMoves p t now w v p') :
    p'.Listed c := by
  have hq := hs.moves
  cases hs with
  | stop => exact h.stop hw hq rfl
  | exit => exact h.exit hw hq rfl
  | count hpos => exact h.move hw (Or.inl rfl) (Or.inr rfl) hq rfl
  | leave hpos => exact h.move hw (Or.inl rfl) (Or.inr rfl) hq rfl
  | tellAll => exact h.move hw (Or.inr rfl) (Or.inr rfl) hq rfl
  | tell o os => exact h.move hw (Or.inr rfl) (Or.inr rfl) hq rfl
  | _ => exact h.move hw (Or.inl rfl) (Or.inl rfl) hq rfl

theorem Sound.stopped (h : p.Sound c) (hw : p.workers t = .stopping) {q : Pool} (hq : Moves t .returning p q)
    (hstop : q.threadsToStop = p.threadsToStop) (hstopped : q.stoppedThreads = p.stoppedThreads ++ [t]) : q.Sound c := by
  have hlt : t < p.nextId := h.listed.lt_nextId (by rw [hw]; decide)
  have hrestores := total_move (w := Worker.restores) hq hlt
  have hdeparting := total_move (w := Worker.departing) hq hlt
  have halive := total_move (w := Worker.alive) hq hlt
  rw [hw] at hrestores hdeparting halive
  simp only [Worker.restores, Worker.departing, Worker.alive, Worker.stage, reduceCtorEq, if_true, if_false]
    at hrestores hdeparting halive
  have hlength : q.stoppedThreads.length = p.stoppedThreads.length + 1 := by rw [hstopped, List.length_append]; rfl
  obtain ⟨hcstop, hcnonneg, hcalive, hcsize⟩ := h.counts
  refine ⟨⟨?_, ?_, ?_, ?_⟩, h.modes.move hq (by simp [Worker.InBranch]), h.listed.stop hw hq hstopped, hq.lock ▸ h.lock,
    hq.failed ▸ h.failed⟩
  · omega
  · omega
  · rw [hq.threads]
    omega
  · rw [hq.threads]
    exact hcsize

theorem Sound.exited (h : p.Sound c) (hw : p.workers t = .returning) : (p.setWorker t .exited).Sound c := by
  have hlt : t < p.nextId := h.listed.lt_nextId (by rw [hw]; decide)
  have hmoves : Moves t .exited p (p.setWorker t .exited) := ⟨rfl, rfl, rfl, rfl, rfl, rfl⟩
  have hrestores := total_move (w := Worker.restores) hmoves hlt
  have hdeparting := total_move (w := Worker.departing) hmoves hlt
  have halive := total_move (w := Worker.alive) hmoves hlt
  rw [hw] at hrestores hdeparting halive
  simp only [Worker.restores, Worker.departing, Worker.alive, Worker.stage, reduceCtorEq, if_false, Nat.add_zero]
    at hrestores hdeparting halive
  obtain ⟨hcstop, hcnonneg, hcalive, hcsize⟩ := h.counts
  refine ⟨⟨?_, ?_, ?_, hcsize⟩, h.modes.move hmoves (by simp [Worker.InBranch]), h.listed.exit hw hmoves rfl, h.lock, h.failed⟩
  · rw [hrestores, hdeparting]
    exact hcstop
  · rw [hrestores]
    exact hcnonneg
  · rw [halive, hdeparting]
    exact hcalive

theorem Sound.decided_of_pos (h : p.Sound c) (hpos : 0 < p.threadsToStop) : ∃ size, c.decided = some size := by
  have hstop := h.counts.stop
  have hquota : 0 < c.quota := by omega
  cases c with
  | poisoning i n size => exact ⟨size, rfl⟩
  | taking i n size => exact ⟨size, rfl⟩
  | joining t i n size => exact ⟨size, rfl⟩
  | erasing t i n size => exact ⟨size, rfl⟩
  | checking n size => exact ⟨size, rfl⟩
  | _ => exact absurd hquota (Nat.lt_irrefl 0)

/-- **A step of a worker** keeps the invariant, if its check holds. -/
theorem Sound.workerMoves (h : p.Sound c) {w v : Worker} (hw : p.workers t = w) (hs : WorkerMoves p t now w v p') :
    p'.Sound c := by
  have hq := hs.moves
  cases hs with
  | stop => exact h.stopped hw hq rfl rfl
  | exit => exact h.exited hw
  | count hpos =>
    refine h.move hw (Or.inl rfl) (Or.inr rfl) hq rfl ?_ (Or.inr hpos) (by simp [Worker.InBranch])
    simp [Worker.restores, Worker.departing, Worker.stage]
  | tellAll => exact h.move hw (Or.inr rfl) (Or.inr rfl) hq rfl rfl (Or.inl (le_refl _)) (by simp [Worker.InBranch])
  | tell o os => exact h.move hw (Or.inr rfl) (Or.inr rfl) hq rfl rfl (Or.inl (le_refl _)) (by simp [Worker.InBranch])
  | wanted hpos =>
    refine h.move hw (Or.inl rfl) (Or.inl rfl) hq rfl rfl (Or.inl (le_refl _)) fun hb => ?_
    have hj : p.isJoin = false := by
      rcases hb with hb | hb
      · rcases hb with hb | hb <;> cases hb
      · exact hb.1
    obtain ⟨size, hsize⟩ := h.decided_of_pos hpos
    exact ⟨hj, by rw [hsize, h.modes.join size hsize hj]⟩
  | notJoin hjoin =>
    exact h.move hw (Or.inl rfl) (Or.inl rfl) hq rfl rfl (Or.inl (le_refl _)) fun _ => h.modes.branch t (Or.inr ⟨hjoin, hw⟩)
  | leave hpos =>
    refine h.move hw (Or.inl rfl) (Or.inr rfl) hq rfl ?_ (Or.inr hpos) (by simp [Worker.InBranch])
    simp [Worker.restores, Worker.departing, Worker.stage]
  | tooLate hneg =>
    refine h.move hw (Or.inl rfl) (Or.inl rfl) hq rfl ?_ (Or.inl (le_refl _)) fun _ => h.modes.branch t (Or.inl (Or.inl hw))
    simp [Worker.restores, Worker.departing, Worker.stage]
  | restore =>
    refine h.move hw (Or.inl rfl) (Or.inl rfl) hq rfl ?_ (Or.inl (le_refl _)) (by simp [Worker.InBranch])
    simp [Worker.restores, Worker.departing, Worker.stage]
  | _ =>
    -- the thread goes on in its loop
    exact h.move hw (Or.inl rfl) (Or.inl rfl) hq rfl rfl (Or.inl (le_refl _)) (by simp [Worker.InBranch])

end Pool

end Raster
