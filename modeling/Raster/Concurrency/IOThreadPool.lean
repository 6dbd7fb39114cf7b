import Raster.Concurrency.ThreadPool

/-!
# `IOThreadPool`

`raster/concurrency/IOThreadPool.cpp`, with the loop of `io/event/EventLoop.cpp` that its threads run.
`add` picks a thread, counts the task in the thread's `pendingTasks` and hands it to the thread's event
loop as a callback. To remove a thread, its `shouldRun` is cleared and its loop is stopped; the thread
then runs single iterations until it has no pending tasks.

As in `CPUThreadPool`, every step makes one access to what is shared, and the holders of `threadsLock_`
are gone in the step after they are made. The functions of tasks and the handlers of events are the
caller's: while one of them runs, the thread may call `add` itself. The observers are left out.
-/

namespace Raster

/-- A call of `IOThreadPool::add` in progress. -/
inductive Adder
  | idle
  /-- At the construction of the holder of `threadsLock_`, and at its destruction. -/
  | locking (task : PoolTask)
  | unlocking (task : PoolTask)
  /-- At `threads_.empty()`. -/
  | checking (task : PoolTask)
  /-- At `pickThread()`. -/
  | picking (task : PoolTask)
  /-- At `ioThread->pendingTasks++`. -/
  | counting (t : Nat) (task : PoolTask)
  /-- At `ioThread->eventLoop->addCallback`. -/
  | adding (t id : Nat) (task : PoolTask)
  deriving DecidableEq, Repr

/-- Where a thread is in `IOThreadPool::threadRun`. In the loop, `once` says which of `loop` and `loopOnce`
it is, and `jobs` are the callbacks that were swapped out and are not done. -/
inductive IOPlace
  | absent
  /-- At `ioThread->eventLoop = …`. -/
  | starting
  /-- At `startupBaton.post()`. -/
  | posting
  /-- At the test of `shouldRun`. -/
  | testing
  /-- At the test of `stop_`. -/
  | looping (once : Bool)
  | swapping (once : Bool)
  /-- At the next callback. -/
  | calling (once : Bool) (jobs : List (Nat × PoolTask))
  /-- In the function of a task, or in its expire callback. -/
  | running (once : Bool) (id : Nat) (result : TaskEnd) (jobs : List (Nat × PoolTask))
  /-- At `ioThread->pendingTasks--`. -/
  | uncounting (once : Bool) (id : Nat) (result : TaskEnd) (jobs : List (Nat × PoolTask))
  /-- In `checkTimeoutEvent`, or with the events that `poll` returned. -/
  | handling (once : Bool)
  /-- At `stop_ = false`. -/
  | clearing (once : Bool)
  /-- At the test of `isJoin_`. -/
  | testingJoin
  /-- At the test of `pendingTasks`. -/
  | draining
  /-- At `stoppedThreads_.add(ioThread)`. -/
  | leaving
  /-- At `ioThread->eventLoop = nullptr`. -/
  | unsetting
  | exited
  deriving DecidableEq, Repr

/-- `ioThread->eventLoop`, which the constructor does not initialise. -/
inductive LoopPtr
  | unset
  | loop
  | null
  deriving DecidableEq, Repr

/-- `struct IOThread`, with its event loop. -/
structure IOThread where
  place : IOPlace := .absent
  shouldRun : Bool := true
  pendingTasks : Int := 0
  eventLoop : LoopPtr := .unset
  /-- `stop_` and `callbacks_` of the event loop; a callback runs a task, which has a number. -/
  stop : Bool := false
  callbacks : List (Nat × PoolTask) := []
  /-- The call of `add` that the thread itself is in. -/
  adder : Adder := .idle
  /-- The tasks whose wrapped functions have returned. -/
  done : List (Nat × TaskEnd) := []
  deriving DecidableEq, Repr

/-- What ends the process. -/
inductive IOFault
  | check (c : Check)
  /-- `nextThread_++ % threads_.size()` with no threads. -/
  | modulo
  /-- `ioThread->eventLoop->addCallback` without a loop. -/
  | noLoop
  deriving DecidableEq, Repr

/-- The thread runs a function of its user, which may call `add`. -/
def IOPlace.inUser : IOPlace → Bool
  | .running .. => true
  | .handling _ => true
  | _ => false

inductive IOCall
  | setNumThreads (n : Nat)
  | stop
  | join
  deriving DecidableEq, Repr

/-- Where the controller is; `size` is the number of threads that the last check of its call expects. -/
inductive IOController
  | idle
  | locking (call : IOCall)
  | unlocking (call : IOCall)
  | entering (call : IOCall)
  | making (todo : Nat) (newThreads : List Nat) (size : Nat)
  | creating (todo newThreads : List Nat) (size : Nat)
  | sorting (newThreads : List Nat) (size : Nat)
  | waiting (todo : List Nat) (size : Nat)
  | removing (n : Nat) (isJoin : Bool) (size : Nat)
  | settingJoin (n : Nat) (isJoin : Bool) (size : Nat)
  /-- In `stopThreads`: at `threads_[i]->shouldRun = false`, and at `eventLoop->stop()`. -/
  | stopping (i n size : Nat)
  | stoppingLoop (t i n size : Nat)
  | taking (i n size : Nat)
  | joining (t i n size : Nat)
  | erasing (t i n size : Nat)
  | checking (size : Nat)
  | returning (size : Nat)
  deriving DecidableEq, Repr

/-- The pool, its threads, the threads outside it that call `add`, and the one that resizes it. -/
structure IOPool where
  /-- Not initialised by the constructor. -/
  isJoin : Bool
  threads : List Nat := []
  stoppedThreads : List Nat := []
  writer : Bool := false
  readers : Nat := 0
  nextId : Nat := 0
  nextThread : Nat := 0
  io : Nat → IOThread := fun _ => {}
  adders : Nat → Adder := fun _ => .idle
  controller : IOController
  /-- The tasks that were counted, with the threads they were given to; their numbers are their positions. -/
  given : List (Nat × PoolTask) := []
  /-- The tasks whose `add` has returned. -/
  returned : List Nat := []
  failed : Option IOFault := none

namespace IOPool

def setThread (p : IOPool) (t : Nat) (th : IOThread) : IOPool := { p with io := Function.update p.io t th }

def fail (p : IOPool) (fault : IOFault) : IOPool := { p with failed := some fault }

/-! ### `add` -/

/-- One step of `add`, called by the pool's thread `this` or from outside; what the caller goes on with. -/
def addStep (p : IOPool) (this : Option Nat) : Adder → Option (IOPool × Adder)
  | .idle => none
  | .locking task => if p.writer then none else some ({ p with readers := p.readers + 1 }, .unlocking task)
  | .unlocking task => some ({ p with readers := p.readers - 1 }, .checking task)
  | .checking task => some (p, if p.threads.isEmpty then .idle else .picking task)
  | .picking task =>
    match this with
    | some t => some (p, .counting t task)
    | none =>
      match p.threads[p.nextThread % p.threads.length]? with
      | some t => some ({ p with nextThread := (p.nextThread + 1) % 2 ^ 64 }, .counting t task)
      | none => some (p.fail .modulo, .idle)
  | .counting t task =>
    some ({ p.setThread t { p.io t with pendingTasks := (p.io t).pendingTasks + 1 } with given := p.given ++ [(t, task)] },
      .adding t p.given.length task)
  | .adding t id task =>
    if (p.io t).eventLoop = .loop then
      some ({ p.setThread t { p.io t with callbacks := (p.io t).callbacks ++ [(id, task)] } with
        returned := p.returned ++ [id] }, .idle)
    else some (p.fail .noLoop, .idle)

/-! ### The threads -/

/-- One step of `threadRun` outside `add`; `now` is the clock, if it is read. -/
def threadStep (p : IOPool) (t now : Nat) : Option IOPool :=
  let th := p.io t
  match th.place with
  | .absent => none
  | .exited => none
  | .starting => some (p.setThread t { th with place := .posting, eventLoop := .loop })
  | .posting => some (p.setThread t { th with place := .testing })
  | .testing => some (p.setThread t { th with place := if th.shouldRun then .looping false else .testingJoin })
  | .looping once => some (p.setThread t { th with place := if th.stop then .clearing once else .swapping once })
  | .swapping once => some (p.setThread t { th with place := .calling once th.callbacks, callbacks := [] })
  | .calling once [] => some (p.setThread t { th with place := .handling once })
  | .calling once ((id, task) :: jobs) =>
    some (p.setThread t { th with place := .running once id (runTask task now) jobs })
  | .running once id result jobs => some (p.setThread t { th with place := .uncounting once id result jobs })
  | .uncounting once id result jobs =>
    some (p.setThread t { th with
      place := .calling once jobs
      pendingTasks := th.pendingTasks - 1
      done := th.done ++ [(id, result)] })
  | .handling once => some (p.setThread t { th with place := if once then .clearing once else .looping once })
  | .clearing once => some (p.setThread t { th with place := if once then .draining else .testing, stop := false })
  | .testingJoin => some (p.setThread t { th with place := if p.isJoin then .draining else .leaving })
  | .draining => some (p.setThread t { th with place := if 0 < th.pendingTasks then .looping true else .leaving })
  | .leaving => some { p.setThread t { th with place := .unsetting } with stoppedThreads := p.stoppedThreads ++ [t] }
  | .unsetting => some (p.setThread t { th with place := .exited, eventLoop := .null })

/-! ### The functions that change the pool -/

/-- The first look at `threads_`. -/
def enter (p : IOPool) : IOCall → IOController
  | .setNumThreads n =>
    let current := p.threads.length
    if current < n then .making (n - current) [] n
    else if n < current then .removing (current - n) true n
    else .returning n
  | .stop => .removing p.threads.length false 0
  | .join => .removing p.threads.length true 0

/-- `RDDCHECK`, and where the controller goes on. -/
def check (p : IOPool) (c : Check) (holds : Bool) (next : IOController) : IOPool :=
  if holds then { p with controller := next } else p.fail (.check c)

def controllerStep (p : IOPool) : Option IOPool :=
  match p.controller with
  | .idle => none
  | .locking call =>
    if p.writer ∨ p.readers ≠ 0 then none else some { p with writer := true, controller := .unlocking call }
  | .unlocking call => some { p with writer := false, controller := .entering call }
  | .entering call => some { p with controller := p.enter call }
  | .making 0 newThreads size => some { p with controller := .creating newThreads newThreads size }
  | .making (todo + 1) newThreads size =>
    some { p with nextId := p.nextId + 1, controller := .making todo (newThreads ++ [p.nextId]) size }
  | .creating [] newThreads size => some { p with controller := .sorting newThreads size }
  | .creating (t :: todo) newThreads size =>
    some { p.setThread t { p.io t with place := .starting } with
      threads := p.threads ++ [t]
      controller := .creating todo newThreads size }
  | .sorting newThreads size =>
    -- by the number of creation; `std::sort` has the addresses that the pointers hold
    some { p with threads := p.threads.insertionSort (· ≤ ·), controller := .waiting newThreads size }
  | .waiting [] size => some { p with controller := .returning size }
  | .waiting (t :: todo) size =>
    if (p.io t).place = .starting ∨ (p.io t).place = .posting then none
    else some { p with controller := .waiting todo size }
  | .removing n isJoin size => some (p.check .stoppedThreads (p.stoppedThreads.length == 0) (.settingJoin n isJoin size))
  | .settingJoin n isJoin size => some { p with isJoin, controller := .stopping 0 n size }
  | .stopping i n size =>
    if i < n then
      match p.threads[i]? with
      | some t => some { p.setThread t { p.io t with shouldRun := false } with controller := .stoppingLoop t i n size }
      | none => none
    else some { p with controller := .taking 0 n size }
  | .stoppingLoop t i n size =>
    -- under `eventLoopShutdownLock_`
    some { p.setThread t { p.io t with stop := (p.io t).stop || (p.io t).eventLoop == .loop } with
      controller := .stopping (i + 1) n size }
  | .taking i n size =>
    if i < n then
      match p.stoppedThreads with
      | [] => none
      | t :: rest => some { p with stoppedThreads := rest, controller := .joining t i n size }
    else some { p with controller := .checking size }
  | .joining t i n size => if (p.io t).place = .exited then some { p with controller := .erasing t i n size } else none
  | .erasing t i n size =>
    let (first, last) := equalRange p.threads t
    some ({ p with threads := p.threads.eraseIdx first }.check .equalRange
      (decide (first ≠ p.threads.length ∧ first + 1 = last)) (.taking (i + 1) n size))
  | .checking size => some (p.check .stoppedThreads (p.stoppedThreads.length == 0) (.returning size))
  | .returning size => some (p.check .threads (p.threads.length == size) .idle)

/-! ### The system -/

inductive Label
  /-- The outside thread `k` calls `add`, or the function that the pool's thread `t` runs does. -/
  | add (k : Nat) (task : PoolTask)
  | addOwn (t : Nat) (task : PoolTask)
  /-- One of them makes a step in its call. -/
  | adder (k : Nat)
  | own (t : Nat)
  | call (c : IOCall)
  | controller
  /-- The thread `t` makes another step, at the time `now`. -/
  | thread (t now : Nat)
  deriving DecidableEq, Repr

/-- With `m` threads outside the pool. -/
def step (m : Nat) (p : IOPool) (l : Label) : Option IOPool :=
  if p.failed.isSome then none
  else
    match l with
    | .add k task =>
      if k < m ∧ p.adders k = .idle then some { p with adders := Function.update p.adders k (.locking task) } else none
    | .addOwn t task =>
      if (p.io t).adder = .idle ∧ (p.io t).place.inUser then some (p.setThread t { p.io t with adder := .locking task })
      else none
    | .adder k => (p.addStep none (p.adders k)).map fun r => { r.1 with adders := Function.update r.1.adders k r.2 }
    | .own t => (p.addStep (some t) (p.io t).adder).map fun r => r.1.setThread t { r.1.io t with adder := r.2 }
    | .call c => if p.controller = .idle then some { p with controller := .locking c } else none
    | .controller => p.controllerStep
    | .thread t now => if (p.io t).adder = .idle then p.threadStep t now else none

/-- The constructor with `numThreads`. -/
def start (isJoin : Bool) (numThreads : Nat) : IOPool := { isJoin, controller := .making numThreads [] numThreads }

end IOPool

end Raster
