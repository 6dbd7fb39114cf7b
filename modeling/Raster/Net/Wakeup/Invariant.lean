import Raster.Net.HandOver

/-!
# Waking a fiber

A fiber that has blocked is queued again by the completion of an event (`Actor::execute(Event*)`), by
the last completion of a group, or by the sink of a graph. It must not be queued twice, or while it
runs, or after it is gone; so each of the three must belong to the `BLOCK` that the fiber is in.

`FiberManager::run` hands over at a `BLOCK` all events that the fiber has connected, whatever it is that
the fiber then waits for. If it has connected two clients and yields for one of them, each completion
queues it. `WaitsForAll` is the condition under which this does not happen: a fiber that yields for a
single fetch has connected at most one client since its last `BLOCK`, a group contains all of them, and
there is none when a graph is run; what is handed over for the second time is complete, so that the
loop drops it; and no callback is added while a worker still walks through the callbacks of the fiber, since
that walk would hand over an event that the fiber does not wait for yet.

The invariant follows each event from its connection to its completion, and ties it to the fiber: as
long as an event is awaited, it is named in one place, its executor is the fiber, and the fiber is
blocked and not queued.
-/

namespace Raster

namespace ActorDAG

/-- The keys that were handed over. -/
def executed (x : ActorDAG) : List Nat := (x.exec.map DAG.Exec.executed).getD []

/-- The sink was handed over, and nothing will be any more. -/
def Over (x : ActorDAG) : Prop := ∃ y, x.exec = some y ∧ y.Over

/-- The key of the sink: `go` adds it after the source. -/
def sink (x : ActorDAG) : Nat := x.src + 1

end ActorDAG

namespace Framework

open Raster.Fiber (Callback)
open EventLoop (Dispatchable)

/-! ### The condition -/

/-- The events that the callbacks hand over. -/
def handedOver (l : List Callback) : List Nat :=
  l.filterMap fun c =>
    match c with
    | .addEvent e => some e
    | .schedule _ => none

theorem mem_handedOver {l : List Callback} {e : Nat} : e ∈ handedOver l ↔ .addEvent e ∈ l := by
  simp only [handedOver, List.mem_filterMap]
  constructor
  · rintro ⟨c, hc, heq⟩
    cases c with
    | addEvent e' =>
      cases heq
      exact hc
    | schedule d => cases heq
  · intro h
    exact ⟨_, h, rfl⟩

theorem count_handedOver (l : List Callback) (e : Nat) : (handedOver l).count e = l.count (.addEvent e) := by
  induction l with
  | nil => rfl
  | cons c l ih =>
    unfold handedOver at ih ⊢
    cases c with
    | addEvent e' => simp [List.count_cons, ih]
    | schedule d => simp [ih]

/-- The events that a `BLOCK` hands over for the second time are complete. -/
def OldComplete (s : Framework) (f : Nat) : Prop :=
  ∀ e, .addEvent e ∈ (s.fibers f).old → (s.actor.events e).type = .readed ∨ (s.actor.events e).type = .fail

instance (s : Framework) (f : Nat) : Decidable (s.OldComplete f) :=
  decidable_of_iff (∀ e ∈ handedOver (s.fibers f).old, (s.actor.events e).type = .readed ∨ (s.actor.events e).type = .fail) <| by
    simp only [OldComplete, mem_handedOver]

/-- The fiber waits for all that its `BLOCK` hands over, and adds nothing to a list that is walked. A group that
has an event of another group is not made, and the fiber goes on. -/
def WaitsForAll (s : Framework) : Label → Prop
  | .connect f reuse _ => (∀ e ∈ reuse, s.Settled e) ∧ s.Still f
  | .fetchNoWait reuse _ => ∀ e ∈ reuse, s.Settled e
  | .yield f => (s.fibers f).fresh.length ≤ 1 ∧ s.OldComplete f
  | .yieldGroup f events => (∀ e ∈ events, (s.actor.events e).group = 0) →
      (∀ e, .addEvent e ∈ (s.fibers f).fresh → e ∈ events) ∧ s.OldComplete f
  | .runScheduler f _ _ => (s.fibers f).fresh = [] ∧ s.OldComplete f ∧ s.Still f
  | _ => True

instance (s : Framework) (x : Label) : Decidable (s.WaitsForAll x) :=
  match x with
  | .yieldGroup f events =>
    decidable_of_iff ((∀ e ∈ events, (s.actor.events e).group = 0) →
      (∀ e ∈ handedOver (s.fibers f).fresh, e ∈ events) ∧ s.OldComplete f) <| by
        simp only [WaitsForAll, mem_handedOver]
  | .connect _ _ _ => inferInstanceAs (Decidable (_ ∧ _))
  | .fetchNoWait reuse _ => inferInstanceAs (Decidable (∀ e ∈ reuse, s.Settled e))
  | .yield _ => inferInstanceAs (Decidable (_ ∧ _))
  | .runScheduler _ _ _ => inferInstanceAs (Decidable (_ ∧ _ ∧ _))
  | .spawn | .run _ _ | .close _ _ | .exit _ _ | .forward _ _ | .call _ _ | .endWalk _ | .dispatch _ _ | .accept _ _
  | .handle _ _ _ | .decrement _ _ | .executeNode _ _ | .leave _ _ => isTrue trivial

/-- No client is in callback mode. -/
def FiberMode : Label → Prop
  | .fetchNoWait _ _ => False
  | _ => True

instance : ∀ x, Decidable (FiberMode x)
  | .fetchNoWait _ _ => isFalse id
  | .connect _ _ _ | .yield _ | .runScheduler _ _ _ | .yieldGroup _ _ | .spawn | .run _ _ | .close _ _ | .exit _ _
  | .forward _ _ | .call _ _ | .endWalk _ | .dispatch _ _ | .accept _ _ | .handle _ _ _ | .decrement _ _
  | .executeNode _ _ | .leave _ _ => isTrue trivial

/-! ### Events -/

/-- The events that the fiber has connected since its last `BLOCK`. -/
def freshEvents (s : Framework) (f : Nat) : List Nat := handedOver (s.fibers f).fresh

theorem mem_freshEvents {s : Framework} {f e : Nat} : e ∈ s.freshEvents f ↔ .addEvent e ∈ (s.fibers f).fresh :=
  mem_handedOver

/-- The completion of the event queues the fiber. The event of a client in callback mode has no executor;
`callback` says that there may be such clients. -/
def Owned (callback : Prop) (ev : Event) (f : Nat) : Prop := ev.executor = some f ∨ callback ∧ ev.executor = none

/-- Where an event is, and whose it is. -/
inductive Place
  | absent
  /-- Connected by the fiber since its last `BLOCK`. -/
  | fresh (f : Nat)
  /-- Handed over at the `BLOCK` that the fiber is in. -/
  | awaited (f : Nat)
  /-- Completed or failed, or the copy of a forwarded event. -/
  | done
  /-- Read by the server, and with a request. -/
  | request (f : Nat)
  /-- With a loop of the server. -/
  | server
  /-- A connection of the server that was closed. -/
  | gone
  deriving DecidableEq, Repr

/-- The types of an event of a client before it completes. -/
def Pending (type : EventType) : Prop := type ∈ [.connect, .towrite, .writing, .toread, .reading]

def Complete (type : EventType) : Prop := type ∈ [.readed, .fail, .writed]

def Place.Fits (callback : Prop) : Place → View → Prop
  | .absent, v => v.ev.role = .none ∧ v.tokens = 0
  | .fresh f, v => v.ev.role = .client ∧ Owned callback v.ev f ∧ Prepared v.ev.type ∧ v.tokens = 0
  | .awaited f, v => v.ev.role = .client ∧ Owned callback v.ev f ∧ Pending v.ev.type ∧
      (v.registered = 0 → Prepared v.ev.type) ∧ v.tokens = 1
  | .done, v => v.ev.role = .client ∧ Complete v.ev.type ∧ v.registered = 0
  | .request f, v => v.ev.role = .server ∧ v.ev.executor = some f ∧ v.tokens = 0
  | .server, v => v.ev.role = .server ∧ v.calling = 0 ∧ v.tokens = 1 ∧
      (v.ev.type ∈ [.next, .reading] ∧ v.ev.executor = none ∧ v.registered = 1 ∨
        v.ev.type ∈ [.towrite, .writing] ∧ (v.registered = 0 → v.ev.type = .towrite))
  | .gone, v => v.ev.role = .server ∧ v.tokens = 0

/-- `waits f` are the events that the fiber `f` is blocked on and that have not completed. -/
structure EventsInv (callback : Prop) (place : Nat → Place) (waits : Nat → List Nat) (s : Framework) : Prop where
  fits : ∀ e, (place e).Fits callback (s.view e)
  unused : ∀ e, s.nextEvent ≤ e → place e = .absent
  fresh : ∀ f e, .addEvent e ∈ (s.fibers f).fresh → place e = .fresh f
  fresh_once : ∀ f e, (s.fibers f).fresh.count (.addEvent e) ≤ 1
  grows : ∀ f, (s.fibers f).Grows
  client : ∀ f e, .addEvent e ∈ (s.fibers f).executor.callbacks → (s.view e).ev.role = .client
  awaited : ∀ f e, place e = .awaited f → .addEvent e ∈ (s.fibers f).awaited
  mem_waits : ∀ f e, e ∈ waits f ↔ place e = .awaited f
  serving : ∀ f e, (s.fibers f).task = .request e → (s.fibers f).deleted = false →
    place e = .request f ∨ (s.view e).ev.role = .client ∧ (s.fibers f).status ≠ .running
  idle : ∀ e ∈ s.idle, (s.view e).ev.role = .client
  requests : ∀ q ∈ s.actor.requests, (s.view q.2).ev.role = .server ∨ callback

/-! ### Fibers -/

/-- The fiber has blocked and nothing has queued it since. -/
def Blocked (s : Framework) (f : Nat) : Prop :=
  (s.fibers f).status = .block ∧ (s.fibers f).deleted = false ∧ f ∉ s.queue

/-- The fiber has not been queued yet. -/
def Unstarted (s : Framework) (f : Nat) : Prop :=
  (s.fibers f).status = .init ∧ (s.fibers f).deleted = false ∧ f ∉ s.queue

structure FibersInv (waits : Nat → List Nat) (s : Framework) : Prop where
  blocked : ∀ f, waits f ≠ [] → s.Blocked f
  queue_nodup : s.queue.Nodup
  queued : ∀ f ∈ s.queue, f < s.actor.nextFiber ∧ (s.fibers f).deleted = false ∧
    ((s.fibers f).status = .init ∨ (s.fibers f).status = .block)
  unused : ∀ f, s.actor.nextFiber ≤ f → s.fibers f = {}
  running : ∀ f, s.Running f → (s.fibers f).deleted = false

/-! ### Groups -/

/-- The events that a fiber waits for are one event, or members of a group with a counter that is not
smaller; and no two fibers wait for the same group. -/
structure GroupsInv (waits : Nat → List Nat) (s : Framework) : Prop where
  group : s.actor.group.Inv
  fresh : ∀ f e, .addEvent e ∈ (s.fibers f).fresh → (s.actor.events e).group = 0
  nodup : ∀ f, (waits f).Nodup
  single : ∀ f, ∀ e ∈ waits f, (s.actor.events e).group = 0 → waits f = [e]
  same : ∀ f, ∀ e ∈ waits f, ∀ e' ∈ waits f, (s.actor.events e').group = (s.actor.events e).group
  counter : ∀ f, ∀ e ∈ waits f, (s.actor.events e).group ≠ 0 →
    (waits f).length ≤ s.actor.group.countAt (s.actor.events e).group
  keys : ∀ f g, ∀ e ∈ waits f, ∀ e' ∈ waits g, (s.actor.events e).group ≠ 0 →
    (s.actor.events e).group = (s.actor.events e').group → f = g

/-! ### Graphs -/

/-- The graph `d`: the fibers of its jobs are its own, and its owner is blocked on it until the sink is
handed over. -/
structure GraphInv (waits : Nat → List Nat) (s : Framework) (d : Nat) (x : ActorDAG) : Prop where
  ready : x.dag.Ready x.src
  leads : ∀ a < x.dag.size, a ≠ x.sink → ∃ b, x.dag.Edge a b
  sink_executor : (x.dag.node x.sink).executor = some x.owner
  job : ∀ i f, (x.dag.node i).executor = some f → i ≠ x.sink → (s.fibers f).task = .job d ∧ f < s.actor.nextFiber
  unstarted : ∀ i f, (x.dag.node i).executor = some f → i ≠ x.sink → i ∉ x.executed → s.Unstarted f
  waiting : ¬ x.Over → s.Blocked x.owner ∧ waits x.owner = []
  pending : x.exec = none → s.calling.count (.schedule d) = 1
  live : ∀ y, x.exec = some y → y.Over ∨
    DAG.Exec.Inv x.dag x.src y ∧ x.sink ∉ y.executed ∧ .schedule d ∉ s.calling

structure GraphsInv (waits : Nat → List Nat) (s : Framework) : Prop where
  graph : ∀ (d : Nat) (x : ActorDAG), s.graphs[d]? = some x → GraphInv waits s d x
  owner : ∀ (d d' : Nat) (x x' : ActorDAG), s.graphs[d]? = some x → s.graphs[d']? = some x' → ¬ x.Over → ¬ x'.Over →
    x.owner = x'.owner → d = d'
  callback : ∀ f (d : Nat), .schedule d ∈ (s.fibers f).executor.callbacks → ∃ x, s.graphs[d]? = some x ∧ x.owner = f
  calling : ∀ d, .schedule d ∈ s.calling → d < s.graphs.length

structure Inv (callback : Prop) (place : Nat → Place) (waits : Nat → List Nat) (s : Framework) : Prop where
  events : EventsInv callback place waits s
  fibers : FibersInv waits s
  groups : GroupsInv waits s
  graphs : GraphsInv waits s

end Framework

end Raster
