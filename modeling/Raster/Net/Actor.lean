import Raster.Event.Event
import Raster.Parallel.Group

/-!
# The actor: fibers, events and groups

`raster/net/Actor.h` and `Actor.cpp`. `Actor::execute(Event*)` is called when an event completed or
failed: an event without an executor is a new request and gets a fiber of its own, and otherwise the
fiber of the executor is queued again, unless the event belongs to a group that is not complete yet.
`Actor::waitGroup` puts the events a fiber is about to wait for into one group.
-/

namespace Raster

structure Actor where
  group : Group := Group.make 100
  events : Events
  /-- The name of the next fiber that is created. -/
  nextFiber : Nat := 0
  /-- The fibers made by `EventExecutor`s, with the events that they add again when they exit. -/
  requests : List (Nat × Nat) := []
  /-- The fibers handed to `addFiber`, with their pools. -/
  pool : List (Nat × Nat) := []

namespace Actor

def addFiber (a : Actor) (fiber poolId : Nat) : Actor := { a with pool := a.pool ++ [(fiber, poolId)] }

/-- The branch of `execute(Event*)` for an event without an executor: a new `EventExecutor`, its
schedule and its fiber. -/
def newRequest (a : Actor) (event : Nat) : Actor :=
  let fiber := a.nextFiber
  let a := { a with
    events := a.events.modify event fun e => e.setExecutor fiber
    requests := a.requests ++ [(fiber, event)]
    nextFiber := fiber + 1 }
  a.addFiber fiber (a.events event).channel

/-- `execute(Event*)`; `none` where the assertion in `Group::finish` fails. -/
def execute (a : Actor) (event : Nat) : Option Actor :=
  match (a.events event).executor with
  | none => some (a.newRequest event)
  | some fiber =>
    let i := (a.events event).group
    let a := { a with events := a.events.modify event fun e => e.setGroup 0 }
    if i = 0 then some (a.addFiber fiber (a.events event).channel)
    else
      match a.group.finish i with
      | none => none
      | some (true, group) => some ({ a with group }.addFiber fiber (a.events event).channel)
      | some (false, group) => some { a with group }

def setGroups (es : Events) (group : Nat) (events : List Nat) : Events :=
  events.foldl (fun es e => es.modify e fun e => e.setGroup group) es

/-- Whether the group was made; `none` where the assertion in `Group::create` fails. -/
def waitGroup (a : Actor) (events : List Nat) : Option (Bool × Actor) :=
  if events.any fun e => (a.events e).group ≠ 0 then some (false, a)
  else
    match a.group.create events.length with
    | none => none
    | some (i, group) => some (true, { a with group, events := setGroups a.events i events })

theorem execute_cases {a a' : Actor} {event : Nat} (h : a.execute event = some a') :
    (a.events event).executor = none ∧ a' = a.newRequest event ∨
    ∃ fiber, (a.events event).executor = some fiber ∧ ∃ queued group,
      ((a.events event).group = 0 ∧ queued = true ∧ group = a.group ∨
        (a.events event).group ≠ 0 ∧ a.group.finish (a.events event).group = some (queued, group)) ∧
      a' = { a with
        group
        events := a.events.modify event fun e => e.setGroup 0
        pool := if queued then a.pool ++ [(fiber, (a.events event).channel)] else a.pool } := by
  unfold execute at h
  split at h
  · rename_i hnone
    exact Or.inl ⟨hnone, (Option.some.inj h).symm⟩
  · rename_i fiber hsome
    refine Or.inr ⟨fiber, hsome, ?_⟩
    simp only at h
    split_ifs at h with hzero
    · rw [Option.some.injEq] at h
      exact ⟨true, a.group, Or.inl ⟨hzero, rfl, rfl⟩, by rw [← h]; simp [addFiber, Event.setGroup]⟩
    · split at h
      · cases h
      · rename_i group hfinish
        rw [Option.some.injEq] at h
        exact ⟨true, group, Or.inr ⟨hzero, hfinish⟩, by rw [← h]; simp [addFiber, Event.setGroup]⟩
      · rename_i group hfinish
        rw [Option.some.injEq] at h
        exact ⟨false, group, Or.inr ⟨hzero, hfinish⟩, by rw [← h]; simp⟩

theorem waitGroup_made {a a' : Actor} {events : List Nat} (h : a.waitGroup events = some (true, a')) :
    (∀ e ∈ events, (a.events e).group = 0) ∧ ∃ i group, a.group.create events.length = some (i, group) ∧
      a' = { a with group, events := setGroups a.events i events } := by
  unfold waitGroup at h
  split_ifs at h with hany
  · simp at h
  · split at h
    · cases h
    · rename_i i group hcreate
      simp only [Option.some.injEq, Prod.mk.injEq, true_and] at h
      refine ⟨fun e he => ?_, i, group, hcreate, h.symm⟩
      simp only [List.any_eq_true, decide_eq_true_eq, not_exists, not_and, not_not] at hany
      exact hany e he

theorem setGroups_apply (es : Events) (group : Nat) (events : List Nat) (e : Nat) :
    setGroups es group events e = if e ∈ events then (es e).setGroup group else es e := by
  induction events generalizing es with
  | nil => simp [setGroups]
  | cons e' events ih =>
    show setGroups (es.modify e' fun e => e.setGroup group) group events e = _
    rw [ih, Events.modify_apply]
    by_cases h1 : e = e' <;> by_cases h2 : e ∈ events <;> simp [h1, h2, Event.setGroup]

end Actor

end Raster
