import Mathlib.Algebra.Group.Nat.Defs
import Mathlib.Logic.Function.Basic
import Mathlib.Tactic.SplitIfs

/-!
# Events

`raster/io/event/Event.h` and `Event.cpp`: the part of an event that the loop, the handler and the
actor look at. The clock is an argument wherever the source reads it, and time is in microseconds,
a 64-bit number: sums and differences are taken modulo `2 ^ 64`.
-/

namespace Raster

/-- The values of `Event::type_`. -/
inductive EventType
  | init
  | fail
  | listen
  | timeout
  | error
  | toread
  | reading
  | readed
  | towrite
  | writing
  | writed
  | next
  | connect
  | waker
  deriving DecidableEq, Repr

/-- The values of `Socket::role_`. -/
inductive Role
  | none
  | listener
  | server
  | client
  deriving DecidableEq, Repr

structure TimeoutOption where
  ctimeout : Nat
  rtimeout : Nat
  wtimeout : Nat
  deriving DecidableEq, Repr

/-- An event; executors are named by the fiber they belong to. -/
structure Event where
  seqid : Nat := 0
  type : EventType := .init
  group : Nat := 0
  forward : Bool := false
  role : Role := .none
  /-- `channel()->id()`. -/
  channel : Nat := 0
  executor : Option Nat := none
  /-- The first of the timestamps. -/
  starttime : Nat := 0
  timeoutOpt : TimeoutOption := ⟨0, 0, 0⟩
  deriving DecidableEq, Repr

namespace Event

/-- `Socket::LTIMEOUT`: 10 minutes. -/
def ltimeout : Nat := 600000000

/-- `Socket::LCOUNT`. -/
def lcount : Nat := 80000

def restart (e : Event) (now : Nat) : Event := { e with starttime := now }

def reset (e : Event) (now : Nat) : Event :=
  { e.restart now with
    -- `int seqid_` overflows, and `std::max(++seqid_, 1)` begins again at 1
    seqid := if e.seqid + 1 < 2 ^ 31 then e.seqid + 1 else 1
    type := .init
    group := 0
    forward := false
    executor := none }

def setType (e : Event) (type : EventType) : Event := { e with type }

def setGroup (e : Event) (group : Nat) : Event := { e with group }

def setExecutor (e : Event) (executor : Nat) : Event := { e with executor := some executor }

def setForward (e : Event) : Event := { e with forward := true }

/-- `timePassed(starttime())`. -/
def cost (e : Event) (now : Nat) : Nat := (now + 2 ^ 64 - e.starttime) % 2 ^ 64

def edeadline (e : Event) : Nat := (e.starttime + ltimeout) % 2 ^ 64

def rdeadline (e : Event) : Nat := (e.starttime + e.timeoutOpt.rtimeout) % 2 ^ 64

def wdeadline (e : Event) : Nat := (e.starttime + e.timeoutOpt.wtimeout) % 2 ^ 64

def isConnectTimeout (e : Event) (now : Nat) : Bool := e.cost now > e.timeoutOpt.ctimeout

def isReadTimeout (e : Event) (now : Nat) : Bool := e.cost now > e.timeoutOpt.rtimeout

def isWriteTimeout (e : Event) (now : Nat) : Bool := e.cost now > e.timeoutOpt.wtimeout

end Event

/-- The events by their addresses. -/
abbrev Events := Nat → Event

namespace Events

/-- The events after `f` was applied to one of them. -/
def modify (es : Events) (e : Nat) (f : Event → Event) : Events := Function.update es e (f (es e))

@[simp] theorem modify_same (es : Events) (e : Nat) (f : Event → Event) : es.modify e f e = f (es e) :=
  Function.update_self ..

@[simp] theorem modify_of_ne (es : Events) {e e' : Nat} (h : e' ≠ e) (f : Event → Event) :
    es.modify e f e' = es e' :=
  Function.update_of_ne h ..

theorem modify_apply (es : Events) (e e' : Nat) (f : Event → Event) :
    es.modify e f e' = if e' = e then f (es e') else es e' := by
  split_ifs with h
  · rw [h, modify_same]
  · rw [modify_of_ne es h]

end Events

end Raster
