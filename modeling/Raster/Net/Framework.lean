import Raster.Net.Actor
import Raster.Coroutine.Fiber
import Raster.Event.Action
import Raster.Parallel.Schedule

/-!
# The framework as a whole

Fibers, their executors, the events of clients and of the server, the event loops, the groups and the
graphs of jobs in one machine. A step is what one thread does without another one looking: a worker
takes a fiber, the code of a fiber connects, yields or ends, the worker of a fiber that has blocked
invokes the next callback, a loop takes over an event or handles one, a graph delivers an edge.

* `AsyncClient::connect`, `close` and `fetchNoWait`, `MultiAsyncClient::yield` and `Scheduler::run` are
  what the code of a fiber does. The data it sends and receives is not looked at.
* An event loop is a number; which loop `IOThreadPool::getEventLoop` picks is a choice of the step, and
  so is what the handler does to a registered event, which is one of the actions of `Raster.Action`.
* `Executor::callback` walks the list of an executor without a lock, and the first callback may let another
  worker go on with the fiber: what that one connects is put on the list that is walked.
* Timestamps are 0: what the clock decides is a choice, too.
* Fibers and events have addresses that are not used again, and an event whose client is destroyed without
  keep-alive stays in memory.
-/

namespace Raster

namespace Fiber

variable {α : Type}

/-- How many callbacks were in the list at the last `BLOCK`. -/
def fired (f : Fiber α) : Nat := (f.invoked.getLastD []).length

/-- The callbacks registered since the last `BLOCK`. -/
def fresh (f : Fiber α) : List α := f.executor.callbacks.drop f.fired

/-- The callbacks that were in the list at the last `BLOCK`, which the next one invokes again. -/
def old (f : Fiber α) : List α := f.executor.callbacks.take f.fired

/-- The callbacks that were in the list at the last `BLOCK` for the first time. -/
def awaited (f : Fiber α) : List α :=
  (f.invoked.getLastD []).drop (f.invoked.dropLast.getLastD []).length

end Fiber

open Raster.Fiber (Callback)
open EventLoop (Dispatchable)

/-- What the executor of a fiber runs. -/
inductive Task
  /-- `FunctionExecutor`. -/
  | function
  /-- `EventExecutor`. -/
  | request (event : Nat)
  /-- `AsyncClientExecutor`. -/
  | client (event : Nat)
  /-- The executor of a node of a graph. -/
  | job (graph : Nat)
  deriving DecidableEq, Repr

structure TaskFiber extends Fiber Callback where
  task : Task := .function
  deriving DecidableEq, Repr

/-- The graph of a `Scheduler`, after `go` with the executor of `owner`. -/
structure ActorDAG where
  owner : Nat
  src : Nat
  dag : DAG Nat
  /-- The run of the graph, once `schedule(src)` was called. -/
  exec : Option (DAG.Exec Nat) := none

namespace ActorDAG

/-- `DAG::schedule(src)`, for the first time or again. -/
def schedule (x : ActorDAG) : ActorDAG :=
  match x.exec with
  | none => { x with exec := some (DAG.Exec.start x.dag x.src) }
  | some y => { x with exec := some { y with loops := y.loops ++ [{ rest := y.dag.schedule x.src }] } }

/-- The schedules of the executor of a node that has finished. -/
def finish (f : Nat) (x : ActorDAG) : ActorDAG :=
  { x with exec := x.exec.map fun y => (y.step (.finish f)).getD y }

end ActorDAG

/-- A walk of `Executor::callback` through the list of a fiber, by the callbacks that are still ahead of it. -/
structure Walk where
  fiber : Nat
  ahead : List Callback
  deriving DecidableEq, Repr

namespace Walk

/-- A callback is put at the end of the list of the fiber `f`, ahead of every walk through it. -/
def addCallback (f : Nat) (c : Callback) (w : Walk) : Walk :=
  if w.fiber = f then { w with ahead := w.ahead ++ [c] } else w

/-- The callback that is the next one was invoked. -/
def next (w : Walk) : Walk := { w with ahead := w.ahead.tail }

end Walk

structure Framework where
  actor : Actor := { events := fun _ => {} }
  fibers : Nat → TaskFiber := fun _ => {}
  graphs : List ActorDAG := []
  /-- The walks of the workers of fibers that have blocked. -/
  walks : List Walk := []
  /-- The events added to a loop (`EventLoop::events_`), with the loop. -/
  pending : List (Nat × Nat) := []
  /-- The events in the poll of a loop, with the loop. -/
  registered : List (Nat × Nat) := []
  /-- The events that `dispatchEvent` could not add. -/
  dropped : List Nat := []
  /-- The events in `EventPool`. -/
  idle : List Nat := []
  nextEvent : Nat := 0

namespace Framework

def modifyFiber (s : Framework) (f : Nat) (g : TaskFiber → TaskFiber) : Framework :=
  { s with fibers := Function.update s.fibers f (g (s.fibers f)) }

def modifyEvent (s : Framework) (e : Nat) (g : Event → Event) : Framework :=
  { s with actor := { s.actor with events := s.actor.events.modify e g } }

/-- The callbacks that the workers of fibers that have blocked have still to invoke. -/
def calling (s : Framework) : List Callback := s.walks.flatMap Walk.ahead

/-- The callback that the walk `i` comes to next. -/
def current (s : Framework) (i : Nat) : Option Callback := s.walks[i]?.bind fun w => w.ahead.head?

/-- `Executor::addCallback` for the executor of the fiber `f`. -/
def addCallback (s : Framework) (f : Nat) (c : Callback) : Framework :=
  { s.modifyFiber f fun x => { x with executor := x.executor.addCallback c } with
    walks := s.walks.map (Walk.addCallback f c) }

/-- `new Event`, at the address `nextEvent`. -/
def newEvent (s : Framework) (ev : Event) : Framework :=
  { s with
    actor := { s.actor with events := Function.update s.actor.events s.nextEvent ev }
    nextEvent := s.nextEvent + 1 }

/-- `Actor::execute(executor)` for an executor without a fiber. -/
def newFiber (s : Framework) (fiber : TaskFiber) : Framework :=
  { s with
    fibers := Function.update s.fibers s.actor.nextFiber fiber
    actor := { s.actor with nextFiber := s.actor.nextFiber + 1 }.addFiber s.actor.nextFiber 0 }

def Running (s : Framework) (f : Nat) : Prop := (s.fibers f).status = .running

instance (s : Framework) (f : Nat) : Decidable (s.Running f) := by
  unfold Running
  infer_instance

/-- The fibers in the queues of the CPU pools. -/
def queue (s : Framework) : List Nat := s.actor.pool.map Prod.fst

/-! ### The clients -/

/-- `AsyncClient::initConnection`: the event of an idle connection, or a new one. -/
def initConnection (s : Framework) (reuse : Option Nat) (channel : Nat) : Option (Nat × Framework) :=
  match reuse with
  | some e =>
    if e ∈ s.idle then
      some (e, { s.modifyEvent e fun ev => (ev.reset 0).setType .towrite with idle := s.idle.erase e })
    else none
  | none => some (s.nextEvent, s.newEvent { seqid := 1, type := .connect, role := .client, channel })

/-- `AsyncClient::connect` in the fiber `f`. -/
def connect (s : Framework) (f : Nat) (reuse : Option Nat) (channel : Nat) : Option Framework :=
  if s.Running f then
    match s.initConnection reuse channel with
    | none => none
    | some (e, s) =>
      some ((s.modifyEvent e fun ev => ev.setExecutor f).addCallback f (.addEvent e))
  else none

/-- `connect` and `fetchNoWait` of a client in callback mode: `Actor::execute(AsyncClient*)`. -/
def fetchNoWait (s : Framework) (reuse : Option Nat) (channel : Nat) : Option Framework :=
  match s.initConnection reuse channel with
  | none => none
  | some (e, s) =>
    some (s.newFiber { task := .client e, executor := Executor.addCallback {} (.addEvent e) })

/-- `AsyncClient::close` of a keep-alive client whose event has not failed. -/
def close (s : Framework) (f e : Nat) : Option Framework :=
  let ev := s.actor.events e
  if s.Running f ∧ ev.role = .client ∧ ev.executor = some f ∧ ev.type ≠ .fail ∧ e ∉ s.idle then
    some { s with idle := s.idle ++ [e] }
  else none

/-! ### Fibers -/

/-- The executor is one that can be run: an `EventExecutor` needs a channel with a processor, and
`Event::processor` throws for the channel of a client. -/
def Runnable (s : Framework) : Task → Prop
  | .request e => (s.actor.events e).role ≠ .client
  | _ => True

instance (s : Framework) (t : Task) : Decidable (s.Runnable t) := by
  cases t <;> unfold Runnable <;> infer_instance

/-- A worker takes a fiber from a queue: one that is new or blocked. With a fiber that another worker runs
or has deleted, `FiberManager::run` would enter a context in use or a freed one. -/
def run (s : Framework) (f poolId : Nat) : Option Framework :=
  let x := s.fibers f
  if (f, poolId) ∈ s.actor.pool ∧ (x.status = .init ∨ x.status = .block) ∧ x.deleted = false ∧ s.Runnable x.task then
    some ({ s with actor := { s.actor with pool := s.actor.pool.erase (f, poolId) } }.modifyFiber f fun x =>
      { x with toFiber := x.activate })
  else none

/-- The fiber yields with `BLOCK`; its worker is about to walk through the callbacks. -/
def block (s : Framework) (f : Nat) : Framework :=
  { s.modifyFiber f fun x => { x with toFiber := x.afterYield .block } with
    walks := s.walks ++ [{ fiber := f, ahead := (s.fibers f).executor.callbacks }] }

/-- `FiberManager::yield` in a fetch. -/
def yield (s : Framework) (f : Nat) : Option Framework := if s.Running f then some (s.block f) else none

/-- `MultiAsyncClient::yield` and `yieldMultiTask` on connected clients of the fiber. -/
def yieldGroup (s : Framework) (f : Nat) (events : List Nat) : Option Framework :=
  if s.Running f ∧ ∀ e ∈ events, (s.actor.events e).executor = some f ∧ e ∉ s.idle then
    match s.actor.waitGroup events with
    | none => none
    | some (false, _) => some s
    | some (true, actor) => some ({ s with actor }.block f)
  else none

/-- The graph of a scheduler with `n` executors, whose fibers are those from `first` on. -/
def schedulerCmds (first n : Nat) (edges : List (Nat × Nat)) : List (DAG.Cmd Nat) :=
  (List.range n).map (fun i => .add (first + i)) ++ edges.map fun p => .dependency p.1 p.2

/-- `Scheduler::run` with `n` executors; `go` throws if there is a cycle. -/
def runScheduler (s : Framework) (f n : Nat) (edges : List (Nat × Nat)) : Option Framework :=
  let first := s.actor.nextFiber
  if s.Running f ∧ 0 < n then
    match Lib.run DAG.build DAG.empty (schedulerCmds first n edges) with
    | none => none
    | some g =>
      match g.go f with
      | .error _ => none
      | .ok (src, dag) =>
        let s' : Framework := { s with
          graphs := s.graphs ++ [{ owner := f, src, dag }]
          fibers := fun x => if first ≤ x ∧ x < first + n then { task := .job s.graphs.length } else s.fibers x
          actor := { s.actor with nextFiber := first + n } }
        some ((s'.addCallback f (.schedule s.graphs.length)).block f)
  else none

/-! ### Graphs -/

def modifyGraph (s : Framework) (d : Nat) (g : ActorDAG → ActorDAG) : Framework :=
  { s with graphs := s.graphs.modify d g }

/-- A step of a loop of `DAG::schedule`. -/
def stepGraph (s : Framework) (d : Nat) (l : DAG.Exec.Label Nat) : Option Framework :=
  match s.graphs[d]? with
  | none => none
  | some x =>
    match x.exec.bind (·.step l) with
    | none => none
    | some y => some { s with graphs := s.graphs.set d { x with exec := some y } }

/-- `execute(nodes_[key].executor)`: the fiber of the executor, which is new unless it is the sink. -/
def executeNode (s : Framework) (d j : Nat) : Option Framework :=
  match s.stepGraph d (.execute j) with
  | none => none
  | some s =>
    match s.graphs[d]?.bind ActorDAG.exec with
    | none => none
    | some y =>
      match y.running.getLastD none with
      | none => none
      | some f => some { s with actor := s.actor.addFiber f 0 }

/-! ### Events and loops -/

/-- `EventLoop::addEvent` of the loop `l`. -/
def addEvent (s : Framework) (e l : Nat) : Framework := { s with pending := s.pending ++ [(l, e)] }

/-- `Actor::forwardEvent`, to the loop `l`. -/
def forwardEvent (s : Framework) (e l : Nat) : Framework :=
  let copy : Event := { seqid := 1, role := .client, channel := (s.actor.events e).channel }
  (s.newEvent (copy.setForward.setType .writed)).addEvent s.nextEvent l

/-- One turn of the loop over the targets in `Actor::addEvent`: before the walk `i` hands over the event of a
client, it may forward copies. -/
def forward (s : Framework) (i l : Nat) : Option Framework :=
  match s.current i with
  | some (.addEvent e) => if (s.actor.events e).role = .client then some (s.forwardEvent e l) else none
  | _ => none

/-- The walk `i` is past the callback that was its next one. -/
def advance (s : Framework) (i : Nat) : Framework := { s with walks := s.walks.modify i Walk.next }

/-- The walk `i` invokes its next callback. -/
def call (s : Framework) (i l : Nat) : Option Framework :=
  match s.current i with
  | none => none
  | some (.addEvent e) => some ((s.advance i).addEvent e l)
  | some (.schedule d) => some ((s.advance i).modifyGraph d ActorDAG.schedule)

/-- The walk `i` comes to the end of the list. -/
def endWalk (s : Framework) (i : Nat) : Option Framework :=
  if s.walks[i]?.map Walk.ahead = some [] then some { s with walks := s.walks.eraseIdx i } else none

/-- The code of the fiber ends; a request sets the type of its event and adds it to the loop `l`. -/
def exit (s : Framework) (f l : Nat) : Option Framework :=
  if s.Running f then
    let s' := s.modifyFiber f fun x => { x with toFiber := x.afterYield .exit }
    match (s.fibers f).task with
    | .request e => some ((s'.modifyEvent e fun ev => ev.setType .towrite).addEvent e l)
    | .job d => some (s'.modifyGraph d (ActorDAG.finish f))
    | _ => some s'
  else none

/-- `EventLoop::dispatchEvent` in the loop `l`. -/
def dispatchEvent (s : Framework) (l e : Nat) : Framework :=
  if Dispatchable (s.actor.events e).type then
    { s with registered := if (l, e) ∈ s.registered then s.registered else s.registered ++ [(l, e)] }
  else { s with dropped := s.dropped ++ [e] }

/-- A loop takes over an event that was added. -/
def dispatch (s : Framework) (l e : Nat) : Option Framework :=
  if (l, e) ∈ s.pending then some ({ s with pending := s.pending.erase (l, e) }.dispatchEvent l e) else none

/-- A connection is accepted by the loop `l`. -/
def accept (s : Framework) (l channel : Nat) : Framework :=
  (s.newEvent { seqid := 1, type := .next, role := .server, channel }).dispatchEvent l s.nextEvent

/-- `Actor::execute(Event*)`. -/
def execute (s : Framework) (e : Nat) : Option Framework :=
  match s.actor.execute e with
  | none => none
  | some actor =>
    some { s with
      actor
      fibers := if (s.actor.events e).executor = none then
          Function.update s.fibers s.actor.nextFiber
            { task := .request e, executor := Executor.addSchedule {} (.addEvent e) }
        else s.fibers }

/-- The event after an action of the handler, off the poll of its loop. -/
def unregister (s : Framework) (l e : Nat) (ev : Event) : Framework :=
  { s.modifyEvent e (fun _ => ev) with registered := s.registered.erase (l, e) }

/-- The loop `l` handles a registered event. -/
def handle (s : Framework) (l e : Nat) (a : Action) : Option Framework :=
  if (l, e) ∈ s.registered ∧ a.Possible (s.actor.events e).type then
    let (ev, disposition) := a.apply (s.actor.events e)
    match disposition with
    | .stays => some (s.modifyEvent e fun _ => ev)
    | .dispatched => some ((s.unregister l e ev).dispatchEvent l e)
    | .executed => (s.unregister l e ev).execute e
    | .deleted => some (s.unregister l e ev)
  else none

/-! ### The machine -/

inductive Label
  /-- `Actor::execute(VoidFunc)`. -/
  | spawn
  | run (f poolId : Nat)
  | connect (f : Nat) (reuse : Option Nat) (channel : Nat)
  | close (f e : Nat)
  | yield (f : Nat)
  | yieldGroup (f : Nat) (events : List Nat)
  | runScheduler (f n : Nat) (edges : List (Nat × Nat))
  | exit (f l : Nat)
  | fetchNoWait (reuse : Option Nat) (channel : Nat)
  | forward (i l : Nat)
  | call (i l : Nat)
  | endWalk (i : Nat)
  | dispatch (l e : Nat)
  | accept (l channel : Nat)
  | handle (l e : Nat) (a : Action)
  | decrement (d j : Nat)
  | executeNode (d j : Nat)
  | leave (d j : Nat)
  deriving DecidableEq, Repr

def step (s : Framework) : Label → Option Framework
  | .spawn => some (s.newFiber {})
  | .run f poolId => s.run f poolId
  | .connect f reuse channel => s.connect f reuse channel
  | .close f e => s.close f e
  | .yield f => s.yield f
  | .yieldGroup f events => s.yieldGroup f events
  | .runScheduler f n edges => s.runScheduler f n edges
  | .exit f l => s.exit f l
  | .fetchNoWait reuse channel => s.fetchNoWait reuse channel
  | .forward i l => s.forward i l
  | .call i l => s.call i l
  | .endWalk i => s.endWalk i
  | .dispatch l e => s.dispatch l e
  | .accept l channel => some (s.accept l channel)
  | .handle l e a => s.handle l e a
  | .decrement d j => s.stepGraph d (.decrement j)
  | .executeNode d j => s.executeNode d j
  | .leave d j => s.stepGraph d (.leave j)

/-- Nothing has happened yet. -/
def start : Framework := {}

end Framework

end Raster
