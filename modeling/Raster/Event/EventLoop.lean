import Raster.Event.Event
import Raster.Util.TimedHeap
import Raster.Net.Protocol

/-!
# The event loop and its handler

`raster/io/event/EventLoop.cpp` and `EventHandler.cpp`. The loop has the events that are registered
with its poll, a heap with their deadlines and a list of events that other threads have added. The
handler moves an event through its types: connect, write and read for a client, read and write for
the server, with the timeouts, errors and closed connections in between.

Events are named by their addresses. The loop also keeps what the handler does to them: which were
deleted, which were passed to `Actor::execute`, which `dispatchEvent` could not add, and each operation
on an event after it was deleted.
-/

namespace Raster

open Lib (MinQueue)

structure EventLoop (Q : Type) where
  events : Events
  /-- The events in the poll, without the waker. -/
  registered : List Nat := []
  deadlineHeap : TimedHeap Q Nat
  /-- `events_`. -/
  pending : List Nat := []
  deleted : List Nat := []
  executed : List Nat := []
  dropped : List Nat := []
  misused : List Nat := []

namespace EventLoop

variable {Q : Type} [MinQueue Q (Timeout Nat) Timeout.deadline]

/-- A field of the event is read or written. -/
def access (l : EventLoop Q) (e : Nat) : EventLoop Q :=
  if e ∈ l.deleted then { l with misused := l.misused ++ [e] } else l

def modify (l : EventLoop Q) (e : Nat) (f : Event → Event) : EventLoop Q :=
  { l.access e with events := l.events.modify e f }

def setType (l : EventLoop Q) (e : Nat) (type : EventType) : EventLoop Q := l.modify e fun ev => ev.setType type

def delete (l : EventLoop Q) (e : Nat) : EventLoop Q :=
  let l := l.access e
  { l with deleted := e :: l.deleted }

/-- `new Event`: the address may be one that was freed before. -/
def allocate (l : EventLoop Q) (e : Nat) (ev : Event) : EventLoop Q :=
  { l with events := Function.update l.events e ev, deleted := l.deleted.filter (· ≠ e) }

/-- The event is passed to `Actor::execute`. -/
def execute (l : EventLoop Q) (e : Nat) : EventLoop Q :=
  let l := l.access e
  { l with executed := l.executed ++ [e] }

/-! ### `EventLoop` -/

/-- `poll_.add`; adding a descriptor twice is an error of `epoll_ctl` and changes nothing. -/
def pollAdd (l : EventLoop Q) (e : Nat) : EventLoop Q :=
  { l with registered := if e ∈ l.registered then l.registered else l.registered ++ [e] }

def pollRemove (l : EventLoop Q) (e : Nat) : EventLoop Q :=
  { l with registered := l.registered.filter (· ≠ e) }

def pushDeadline (l : EventLoop Q) (t : Timeout Nat) : EventLoop Q :=
  { l with deadlineHeap := l.deadlineHeap.push t }

def eraseDeadline (l : EventLoop Q) (e : Nat) : EventLoop Q :=
  { l with deadlineHeap := l.deadlineHeap.erase (some e) }

def addListenEvent (l : EventLoop Q) (e : Nat) : EventLoop Q := l.pollAdd e

def addReadEvent (l : EventLoop Q) (e : Nat) : EventLoop Q :=
  let ev := l.events e
  (l.pushDeadline (if ev.type = .next then ⟨some e, ev.edeadline, true⟩ else ⟨some e, ev.rdeadline, false⟩)).pollAdd e

def addWriteEvent (l : EventLoop Q) (e : Nat) : EventLoop Q :=
  (l.pushDeadline ⟨some e, (l.events e).wdeadline, false⟩).pollAdd e

def dispatchEvent (l : EventLoop Q) (e : Nat) : EventLoop Q :=
  let l := l.access e
  match (l.events e).type with
  | .listen => l.addListenEvent e
  | .next => l.addReadEvent e
  | .toread => l.addReadEvent e
  | .connect => l.addWriteEvent e
  | .towrite => l.addWriteEvent e
  | _ => { l with dropped := l.dropped ++ [e] }

def removeEvent (l : EventLoop Q) (e : Nat) : EventLoop Q := ((l.access e).eraseDeadline e).pollRemove e

def restartEvent (l : EventLoop Q) (e now : Nat) : EventLoop Q :=
  let l := (l.eraseDeadline e).modify e fun ev => ev.restart now
  l.pushDeadline ⟨some e, (l.events e).rdeadline, false⟩

/-! ### `EventHandler` -/

/-- What the clock, the sockets and the allocator answer during one call of the handler. -/
structure Answers where
  /-- The clock at the test for a timeout. -/
  now : Nat
  /-- The clock at `Event::restart`. -/
  restart : Nat
  /-- The clock at `Event::reset`, also of a new event. -/
  reset : Nat
  /-- The address of the event for an accepted connection, if there is one and it is kept. -/
  accepted : Option Nat
  connectError : Bool
  read : IOResult
  write : IOResult
  deriving DecidableEq, Repr

def closePeer (l : EventLoop Q) (e : Nat) : EventLoop Q :=
  let l := (l.removeEvent e).access e
  if (l.events e).role = .client then (l.setType e .fail).execute e else l.delete e

def onTimeout (l : EventLoop Q) (e : Nat) : EventLoop Q := (l.access e).closePeer e

def onError (l : EventLoop Q) (e : Nat) : EventLoop Q := (l.access e).closePeer e

/-- `onComplete` after its tests for a timeout. For the server `READED` comes before `WRITED`, for a
client after it. -/
def complete (l : EventLoop Q) (e : Nat) (o : Answers) : EventLoop Q :=
  let l := (l.removeEvent e).access e
  match (l.events e).type with
  | .readed =>
    let l := if (l.events e).role = .client ∧ (l.events e).forward then l.delete e else l
    l.execute e
  | .writed =>
    let l := if (l.events e).role = .server then (l.modify e fun ev => ev.reset o.reset).setType e .next
      else l.setType e .toread
    l.dispatchEvent e
  | _ => l

def onComplete (l : EventLoop Q) (e : Nat) (o : Answers) : EventLoop Q :=
  let l := l.access e
  if (l.events e).type = .readed ∧ (l.events e).isReadTimeout o.now then (l.setType e .timeout).onTimeout e
  else if (l.events e).type = .writed ∧ (l.events e).isWriteTimeout o.now then (l.setType e .timeout).onTimeout e
  else l.complete e o

def onRead (l : EventLoop Q) (e : Nat) (o : Answers) : EventLoop Q :=
  let l := l.setType e .reading
  match o.read with
  | .error => (l.setType e .error).onError e
  | .timeout => (l.setType e .timeout).onTimeout e
  | .complete => (l.setType e .readed).onComplete e o
  | .again => l
  | .closed => l.closePeer e

def onWrite (l : EventLoop Q) (e : Nat) (o : Answers) : EventLoop Q :=
  let l := l.setType e .writing
  match o.write with
  | .error => (l.setType e .error).onError e
  | .timeout => (l.setType e .timeout).onTimeout e
  | .complete => (l.setType e .writed).onComplete e o
  | .again => l
  | .closed => l

/-- The event that `onListen` makes for an accepted connection on the channel of the listening one. -/
def acceptedEvent (listening : Event) (now : Nat) : Event :=
  { role := .server, channel := listening.channel, timeoutOpt := listening.timeoutOpt, starttime := now, seqid := 1 }

def onListen (l : EventLoop Q) (e : Nat) (o : Answers) : EventLoop Q :=
  match o.accepted with
  | none => l
  | some evnew =>
    let l := l.allocate evnew (acceptedEvent (l.events e) o.reset)
    if (l.events evnew).isConnectTimeout o.now then (l.setType evnew .timeout).onTimeout evnew
    else (l.setType evnew .next).dispatchEvent evnew

def onConnect (l : EventLoop Q) (e : Nat) (o : Answers) : EventLoop Q :=
  if (l.events e).isConnectTimeout o.now then (l.setType e .timeout).onTimeout e
  else if o.connectError then (l.setType e .error).onError e
  else l.setType e .towrite

def handle (l : EventLoop Q) (e : Nat) (o : Answers) : EventLoop Q :=
  let l := l.access e
  match (l.events e).type with
  | .listen => l.onListen e o
  | .connect => l.onConnect e o
  | .next => (l.restartEvent e o.restart).onRead e o
  | .toread => l.onRead e o
  | .reading => l.onRead e o
  | .towrite => l.onWrite e o
  | .writing => l.onWrite e o
  | .timeout => l.onTimeout e
  | _ => l.closePeer e

/-- The rest of a turn of `checkTimeoutEvent` for an event that `pop` returned, when it is not repeated. -/
def expire (l : EventLoop Q) (e : Nat) : EventLoop Q := (l.setType e .timeout).onTimeout e

/-- One turn of the loop of `checkTimeoutEvent`, and whether there is another one; `few` is the test
`Socket::count() < Socket::LCOUNT`. -/
def checkTimeoutEvent (l : EventLoop Q) (now : Nat) (few : Bool) : EventLoop Q × Bool :=
  let (timeout, deadlineHeap) := l.deadlineHeap.pop now
  let l := { l with deadlineHeap }
  match timeout.data with
  | none => (l, false)
  | some e =>
    if timeout.repeats ∧ few then
      (l.pushDeadline { timeout with deadline := (timeout.deadline + Event.ltimeout) % 2 ^ 64 }, true)
    else (l.expire e, true)

end EventLoop

end Raster
