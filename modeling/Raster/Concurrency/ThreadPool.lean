import Mathlib.Algebra.Group.Nat.Defs
import Mathlib.Data.List.Sort
import Mathlib.Logic.Function.Basic
import Raster.Lib.Machine

/-!
# `CPUThreadPool`

`raster/concurrency/ThreadPool.cpp` and `CPUThreadPool.cpp`. Workers take tasks from one queue; to remove
`n` of them, `n` poison tasks are put behind the tasks, and the workers that leave are collected from a
second queue and joined. After each task a worker also looks at the number of threads to stop, and leaves
at once if the pool is being stopped and not joined.

The workers and the functions that change the pool are programs of small steps: every step makes one
access to what they share. `RWSpinLock::WriteHolder{&threadsLock_};` constructs a temporary that is
destroyed in the same statement, so the lock is taken in one step and released in the next, before the
function looks at `threads_`. A failed `RDDCHECK` stops everything.
-/

namespace Raster

/-- `struct Task`: what `runTask` looks at. A null `expireCallback_` is `false`. -/
structure PoolTask where
  enqueueTime : Nat
  expiration : Nat
  expireCallback : Bool
  deriving DecidableEq, Repr

/-- `CPUTask`: a task that was added, with its number, or the poison. -/
inductive CPUTask
  | task (id : Nat) (task : PoolTask)
  | poison
  deriving DecidableEq, Repr

/-- How `runTask` ended. -/
inductive TaskEnd
  /-- `func_` was called; what it throws is logged. -/
  | ran
  /-- The task had expired; whether `expireCallback_` was called. -/
  | expired (called : Bool)
  deriving DecidableEq, Repr

/-- The test in `runTask`, with the clock at its start. -/
def runTask (task : PoolTask) (startTime : Nat) : TaskEnd :=
  let waitTime := (startTime + 2 ^ 64 - task.enqueueTime) % 2 ^ 64
  if 0 < task.expiration ∧ task.expiration ≤ waitTime then .expired task.expireCallback else .ran

/-- Where a thread is in `CPUThreadPool::threadRun`. -/
inductive Worker
  /-- The thread is not created yet. -/
  | absent
  /-- Before `startupBaton.post()`. -/
  | starting
  /-- At `taskQueue_.take()`. -/
  | taking
  /-- At `RDDCHECK(threadsToStop_-- > 0)`. -/
  | poisoned
  /-- In the loop over the observers, which are still to be told. -/
  | telling (observers : List Nat)
  /-- At `stoppedThreads_.add(thread)`. -/
  | stopping
  /-- At `return`. -/
  | returning
  | exited
  /-- In `runTask`, before the clock is read. -/
  | took (id : Nat) (task : PoolTask)
  | running (id : Nat) (result : TaskEnd)
  /-- At the test `threadsToStop_ > 0`. -/
  | testing
  /-- At the test `!isJoin_`, after the first one succeeded. -/
  | testingJoin
  /-- At `--threadsToStop_ >= 0`. -/
  | leaving
  /-- At `threadsToStop_++`. -/
  | restoring
  deriving DecidableEq, Repr

/-- The calls of `ThreadPool::Observer`. -/
inductive NoticeKind
  | threadStarted
  | threadStopped
  | threadPreviouslyStarted
  | threadNotYetStopped
  deriving DecidableEq, Repr

structure Notice where
  kind : NoticeKind
  observer : Nat
  thread : Nat
  deriving DecidableEq, Repr

/-- The `RDDCHECK`s, by the condition they test. -/
inductive Check
  /-- `threadsToStop_-- > 0`. -/
  | threadsToStop
  /-- `stoppedThreads_.size() == 0`. -/
  | stoppedThreads
  /-- The two after `std::equal_range`. -/
  | equalRange
  /-- `threads_.size()` is what the function was asked for. -/
  | threads
  deriving DecidableEq, Repr

/-- A pool with its workers. Threads, observers and tasks are named by numbers; `done` and `notices` keep
what was run and what the observers were told. -/
structure Pool where
  taskQueue : List CPUTask := []
  threadsToStop : Int := 0
  /-- Not initialised by the constructor. -/
  isJoin : Bool
  threads : List Nat := []
  stoppedThreads : List Nat := []
  observers : List Nat := []
  /-- `threadsLock_`: whether there is a writer, and the number of readers. -/
  writer : Bool := false
  readers : Nat := 0
  nextId : Nat := 0
  workers : Nat → Worker := fun _ => .absent
  /-- The tasks added so far. -/
  added : List PoolTask := []
  done : List (Nat × TaskEnd) := []
  notices : List Notice := []
  failed : Option Check := none

namespace Pool

/-! ### The workers -/

def setWorker (p : Pool) (t : Nat) (w : Worker) : Pool := { p with workers := Function.update p.workers t w }

def tell (p : Pool) (kind : NoticeKind) (observer thread : Nat) : Pool :=
  { p with notices := p.notices ++ [⟨kind, observer, thread⟩] }

/-- `RDDCHECK`. -/
def check (p : Pool) (c : Check) (holds : Bool) : Pool := if holds then p else { p with failed := some c }

/-- One step of `CPUThreadPool::threadRun`; `now` is the clock, if it is read. -/
def workerStep (p : Pool) (t now : Nat) : Option Pool :=
  match p.workers t with
  | .absent => none
  | .exited => none
  | .starting => some (p.setWorker t .taking)
  | .taking =>
    match p.taskQueue with
    | [] => none
    | .poison :: rest => some { p.setWorker t .poisoned with taskQueue := rest }
    | .task id task :: rest => some { p.setWorker t (.took id task) with taskQueue := rest }
  | .poisoned =>
    some ({ p.setWorker t (.telling p.observers) with threadsToStop := p.threadsToStop - 1 }.check .threadsToStop
      (decide (0 < p.threadsToStop)))
  | .telling [] => some (p.setWorker t .stopping)
  | .telling (o :: os) => some ((p.setWorker t (.telling os)).tell .threadStopped o t)
  | .stopping => some { p.setWorker t .returning with stoppedThreads := p.stoppedThreads ++ [t] }
  | .returning => some (p.setWorker t .exited)
  | .took id task => some (p.setWorker t (.running id (runTask task now)))
  | .running id result => some { p.setWorker t .testing with done := p.done ++ [(id, result)] }
  | .testing => some (p.setWorker t (if 0 < p.threadsToStop then .testingJoin else .taking))
  | .testingJoin => some (p.setWorker t (if p.isJoin then .taking else .leaving))
  | .leaving =>
    some { p.setWorker t (if 0 ≤ p.threadsToStop - 1 then .stopping else .restoring) with
      threadsToStop := p.threadsToStop - 1 }
  | .restoring => some { p.setWorker t .taking with threadsToStop := p.threadsToStop + 1 }

def add (p : Pool) (task : PoolTask) : Pool :=
  { p with
    taskQueue := p.taskQueue ++ [.task p.added.length task]
    added := p.added ++ [task] }

end Pool

/-! ### The functions that change the pool -/

/-- The functions of `ThreadPool` that a controller calls. -/
inductive Call
  | setNumThreads (n : Nat)
  | stop
  | join
  | addObserver (o : Nat)
  | removeObserver (o : Nat)
  deriving DecidableEq, Repr

/-- Where a controller is. `size` is the number of threads that the last check of its call expects. -/
inductive Controller
  /-- In no call. -/
  | idle
  /-- At the construction of the holder of `threadsLock_`, and at its destruction. -/
  | locking (call : Call)
  | unlocking (call : Call)
  /-- At the first look at `threads_`, or at `observers_`. -/
  | entering (call : Call)
  /-- In `addThreads`: `makeThread`, with the number of threads to make. -/
  | making (todo : Nat) (newThreads : List Nat) (size : Nat)
  /-- `createThread` and `push_back`. -/
  | creating (todo newThreads : List Nat) (size : Nat)
  | sorting (newThreads : List Nat) (size : Nat)
  /-- `startupBaton.wait()`. -/
  | waiting (todo newThreads : List Nat) (size : Nat)
  /-- `threadStarted`, with the observers and threads to come. -/
  | telling (todo : List (Nat × Nat)) (size : Nat)
  /-- In `removeThreads(n, isJoin)`: at its first check. -/
  | removing (n : Nat) (isJoin : Bool) (size : Nat)
  | settingJoin (n : Nat) (isJoin : Bool) (size : Nat)
  /-- In `stopThreads`: at its check. -/
  | stopping (n size : Nat)
  | settingStop (n size : Nat)
  /-- In the loop that adds poison. -/
  | poisoning (i n size : Nat)
  /-- At `stoppedThreads_.take()`. -/
  | taking (i n size : Nat)
  /-- At `handle.join()`. -/
  | joining (t i n size : Nat)
  | erasing (t i n size : Nat)
  /-- At the last check of `removeThreads`. -/
  | checking (n size : Nat)
  /-- At the last check of the call. -/
  | returning (size : Nat)
  /-- In the loop of `addObserver`. -/
  | observing (o : Nat) (todo : List Nat)
  /-- In the loop of `removeObserver`. -/
  | unobserving (o : Nat) (todo : List Nat)
  deriving DecidableEq, Repr

/-- `std::equal_range` on a sorted vector, as two indices. -/
def equalRange (l : List Nat) (t : Nat) : Nat × Nat := ((l.takeWhile (· < t)).length, (l.takeWhile (· ≤ t)).length)

namespace Pool

/-- Where the body of a call begins. -/
def enter (p : Pool) : Call → Pool × Controller
  | .setNumThreads n =>
    let current := p.threads.length
    if current < n then (p, .making (n - current) [] n)
    else if n < current then (p, .removing (current - n) true n)
    else (p, .returning n)
  | .stop => (p, .removing p.threads.length false 0)
  | .join => (p, .removing p.threads.length true 0)
  | .addObserver o => ({ p with observers := p.observers ++ [o] }, .observing o p.threads)
  | .removeObserver o => (p, .unobserving o p.threads)

/-- The holder of `threadsLock_` that a call constructs. -/
def lock (p : Pool) : Call → Option Pool
  | .addObserver _ => if p.writer then none else some { p with readers := p.readers + 1 }
  | .removeObserver _ => if p.writer then none else some { p with readers := p.readers + 1 }
  | _ => if p.writer ∨ p.readers ≠ 0 then none else some { p with writer := true }

def unlock (p : Pool) : Call → Pool
  | .addObserver _ => { p with readers := p.readers - 1 }
  | .removeObserver _ => { p with readers := p.readers - 1 }
  | _ => { p with writer := false }

/-- One step of a controller. -/
def controllerStep (p : Pool) : Controller → Option (Pool × Controller)
  | .idle => none
  | .locking call => (p.lock call).map fun p => (p, .unlocking call)
  | .unlocking call => some (p.unlock call, .entering call)
  | .entering call => some (p.enter call)
  | .making 0 newThreads size => some (p, .creating newThreads newThreads size)
  | .making (todo + 1) newThreads size =>
    some ({ p with nextId := p.nextId + 1 }, .making todo (newThreads ++ [p.nextId]) size)
  | .creating [] newThreads size => some (p, .sorting newThreads size)
  | .creating (t :: todo) newThreads size =>
    some ({ p.setWorker t .starting with threads := p.threads ++ [t] }, .creating todo newThreads size)
  | .sorting newThreads size =>
    -- by the number of creation; `std::sort` has the addresses that the pointers hold
    some ({ p with threads := p.threads.insertionSort (· ≤ ·) }, .waiting newThreads newThreads size)
  | .waiting [] newThreads size =>
    some (p, .telling (p.observers.flatMap fun o => newThreads.map fun t => (o, t)) size)
  | .waiting (t :: todo) newThreads size =>
    if p.workers t = .starting then none else some (p, .waiting todo newThreads size)
  | .telling [] size => some (p, .returning size)
  | .telling ((o, t) :: todo) size => some (p.tell .threadStarted o t, .telling todo size)
  | .removing n isJoin size =>
    some (p.check .stoppedThreads (p.stoppedThreads.length == 0), .settingJoin n isJoin size)
  | .settingJoin n isJoin size => some ({ p with isJoin }, .stopping n size)
  | .stopping n size => some (p.check .stoppedThreads (p.stoppedThreads.length == 0), .settingStop n size)
  | .settingStop n size => some ({ p with threadsToStop := n }, .poisoning 0 n size)
  | .poisoning i n size =>
    if i < n then some ({ p with taskQueue := p.taskQueue ++ [.poison] }, .poisoning (i + 1) n size)
    else some (p, .taking 0 n size)
  | .taking i n size =>
    if i < n then
      match p.stoppedThreads with
      | [] => none
      | t :: rest => some ({ p with stoppedThreads := rest }, .joining t i n size)
    else some (p, .checking n size)
  | .joining t i n size => if p.workers t = .exited then some (p, .erasing t i n size) else none
  | .erasing t i n size =>
    let (first, last) := equalRange p.threads t
    some ({ p with threads := p.threads.eraseIdx first }.check .equalRange
      (decide (first ≠ p.threads.length ∧ first + 1 = last)), .taking (i + 1) n size)
  | .checking _ size => some (p.check .stoppedThreads (p.stoppedThreads.length == 0), .returning size)
  | .returning size => some (p.check .threads (p.threads.length == size), .idle)
  | .observing _ [] => some (p, .idle)
  | .observing o (t :: todo) => some (p.tell .threadPreviouslyStarted o t, .observing o todo)
  | .unobserving o [] => some ({ p with observers := p.observers.erase o }, .idle)
  | .unobserving o (t :: todo) => some (p.tell .threadNotYetStopped o t, .unobserving o todo)

/-- The pool when its constructor calls `addThreads`. -/
def initial (isJoin : Bool) : Pool := { isJoin }

end Pool

/-! ### One controller -/

/-- A pool with the one thread that adds tasks to it and resizes it. -/
structure PoolState where
  pool : Pool
  controller : Controller

namespace PoolState

inductive Label
  /-- The controller calls `add`. -/
  | add (task : PoolTask)
  | call (c : Call)
  /-- The controller makes a step in its call. -/
  | controller
  /-- The thread `t` makes a step, at the time `now`. -/
  | worker (t now : Nat)
  deriving DecidableEq, Repr

def step (s : PoolState) (l : Label) : Option PoolState :=
  if s.pool.failed.isSome then none
  else
    match l with
    | .add task => if s.controller = .idle then some { s with pool := s.pool.add task } else none
    | .call c => if s.controller = .idle then some { s with controller := .locking c } else none
    | .controller => (s.pool.controllerStep s.controller).map fun r => ⟨r.1, r.2⟩
    | .worker t now => (s.pool.workerStep t now).map fun pool => { s with pool }

/-- The constructor with `numThreads`. -/
def start (isJoin : Bool) (numThreads : Nat) : PoolState := ⟨Pool.initial isJoin, .making numThreads [] numThreads⟩

end PoolState

end Raster
