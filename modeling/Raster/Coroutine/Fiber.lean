import Raster.Lib.Machine
import Mathlib.Data.List.Count

/-!
# A fiber and the callbacks of its executor

`raster/coroutine/Executor.h`, `Fiber.h` and `FiberManager.h`. Code running in a fiber registers
callbacks with `Executor::addCallback` (`AsyncClient::connect` the hand-over of its event,
`Scheduler::run` the start of its graph); when the fiber yields with `BLOCK`, `FiberManager::run`
calls `Executor::callback`, which goes through the whole list.

`Executor::callback` leaves the list as it is. `logOf` is what is invoked at the blocks of a run, and
`freshLogOf` what was registered since the block before. The two agree exactly for the runs that
block at most once after the first registration.
-/

namespace Raster

/-- `Executor`: the two lists, in the order of registration. -/
structure Executor (α : Type) where
  callbacks : List α := []
  schedules : List α := []
  deriving DecidableEq, Repr

namespace Executor

variable {α : Type}

def addCallback (e : Executor α) (callback : α) : Executor α := { e with callbacks := e.callbacks ++ [callback] }

/-- The functions `callback` calls, in order, and the executor after it. -/
def callback (e : Executor α) : List α × Executor α := (e.callbacks, e)

def addSchedule (e : Executor α) (schedule : α) : Executor α := { e with schedules := e.schedules ++ [schedule] }

/-- The functions `schedule` calls, in order, and the executor after it. -/
def schedule (e : Executor α) : List α × Executor α := (e.schedules, e)

end Executor

/-- The values of `Fiber::status_`. -/
inductive FiberStatus
  | init
  | runable
  | running
  | block
  | exit
  deriving DecidableEq, Repr

/-- A fiber with its executor, and what `FiberManager::run` has called so far. -/
structure Fiber (α : Type) where
  status : FiberStatus := .init
  executor : Executor α := {}
  deleted : Bool := false
  /-- For each `BLOCK` the callbacks that were invoked at it. -/
  invoked : List (List α) := []
  /-- The schedules invoked at the exit. -/
  scheduled : List α := []
  deriving DecidableEq, Repr

namespace Fiber

variable {α : Type}

/-- What happens to a fiber. -/
inductive Act (α : Type)
  /-- `FiberManager::run` on a worker, up to the point where the code of the fiber runs. -/
  | run
  /-- `Executor::addCallback`, by the code of the fiber or before its first run. -/
  | addCallback (callback : α)
  /-- `FiberManager::yield` and the rest of `FiberManager::run`. -/
  | block
  /-- `FiberManager::exit` and the rest of `FiberManager::run`. -/
  | exit
  deriving DecidableEq, Repr

/-- The first half of `FiberManager::run`: `setStatus(RUNABLE)` and `execute`. -/
def activate (f : Fiber α) : Fiber α := { f with status := .running }

/-- The second half of `FiberManager::run`, after the fiber yielded with `status`. -/
def afterYield (f : Fiber α) (status : FiberStatus) : Fiber α :=
  match status with
  | .block =>
    let (called, executor) := f.executor.callback
    { f with status, executor, invoked := f.invoked ++ [called] }
  | _ =>
    let (called, executor) := f.executor.schedule
    { f with status, executor, scheduled := f.scheduled ++ called, deleted := true }

def step (f : Fiber α) : Act α → Option (Fiber α)
  | .run => if f.status = .init ∨ f.status = .block then some f.activate else none
  | .addCallback c =>
    if f.status = .init ∨ f.status = .running then
      some { f with executor := f.executor.addCallback c }
    else none
  | .block => if f.status = .running then some (f.afterYield .block) else none
  | .exit => if f.status = .running then some (f.afterYield .exit) else none

/-! ### What is invoked at each block -/

/-- The callbacks invoked at each block of `acts`, when `callbacks` are in the list before. -/
def logOf (callbacks : List α) : List (Act α) → List (List α)
  | [] => []
  | .addCallback c :: acts => logOf (callbacks ++ [c]) acts
  | .block :: acts => callbacks :: logOf callbacks acts
  | .run :: acts => logOf callbacks acts
  | .exit :: acts => logOf callbacks acts

/-- The callbacks registered before each block of `acts` and after the block before it, when `fresh`
were registered since the last block. -/
def freshLogOf (fresh : List α) : List (Act α) → List (List α)
  | [] => []
  | .addCallback c :: acts => freshLogOf (fresh ++ [c]) acts
  | .block :: acts => fresh :: freshLogOf [] acts
  | .run :: acts => freshLogOf fresh acts
  | .exit :: acts => freshLogOf fresh acts

theorem run_invoked (f f' : Fiber α) (acts : List (Act α)) (h : Lib.run step f acts = some f') :
    f'.invoked = f.invoked ++ logOf f.executor.callbacks acts := by
  induction acts generalizing f with
  | nil =>
    rw [Lib.run_nil, Option.some.injEq] at h
    simp [h, logOf]
  | cons act acts ih =>
    obtain ⟨u, hu, hrest⟩ := Lib.run_cons_eq_some.mp h
    rw [ih u hrest]
    cases act with
    | run =>
      simp only [step] at hu
      split_ifs at hu
      rw [Option.some.injEq] at hu
      subst hu
      rfl
    | addCallback c =>
      simp only [step] at hu
      split_ifs at hu
      rw [Option.some.injEq] at hu
      subst hu
      rfl
    | block =>
      simp only [step] at hu
      split_ifs at hu
      rw [Option.some.injEq] at hu
      subst hu
      simp [afterYield, Executor.callback, logOf]
    | exit =>
      simp only [step] at hu
      split_ifs at hu
      rw [Option.some.injEq] at hu
      subst hu
      rfl

/-- The blocks of a run. -/
def blocks (acts : List (Act α)) : Nat := acts.countP fun a => a matches .block

/-- The part of a run from its first registration on. -/
def fromFirstCallback (acts : List (Act α)) : List (Act α) :=
  acts.dropWhile fun a => !(a matches .addCallback _)

theorem logOf_eq_fresh_of_old (old fresh : List α) (hold : old ≠ []) (acts : List (Act α)) :
    logOf (old ++ fresh) acts = freshLogOf fresh acts ↔ blocks acts = 0 := by
  induction acts generalizing fresh with
  | nil => simp [logOf, freshLogOf, blocks]
  | cons act acts ih =>
    cases act with
    | run => simpa [logOf, freshLogOf, blocks] using ih fresh
    | exit => simpa [logOf, freshLogOf, blocks] using ih fresh
    | addCallback c =>
      have := ih (fresh ++ [c])
      simpa [logOf, freshLogOf, blocks, List.append_assoc] using this
    | block => simp [logOf, freshLogOf, blocks, hold]

theorem logOf_eq_fresh_of_new (fresh : List α) (hfresh : fresh ≠ []) (acts : List (Act α)) :
    logOf fresh acts = freshLogOf fresh acts ↔ blocks acts ≤ 1 := by
  induction acts generalizing fresh with
  | nil => simp [logOf, freshLogOf, blocks]
  | cons act acts ih =>
    cases act with
    | run => simpa [logOf, freshLogOf, blocks] using ih fresh hfresh
    | exit => simpa [logOf, freshLogOf, blocks] using ih fresh hfresh
    | addCallback c =>
      have := ih (fresh ++ [c]) (by simp)
      simpa [logOf, freshLogOf, blocks] using this
    | block =>
      have := logOf_eq_fresh_of_old fresh [] hfresh acts
      rw [List.append_nil] at this
      simp [logOf, freshLogOf, this, blocks]

theorem logOf_eq_fresh_iff (acts : List (Act α)) :
    logOf [] acts = freshLogOf [] acts ↔ blocks (fromFirstCallback acts) ≤ 1 := by
  induction acts with
  | nil => simp [logOf, freshLogOf, blocks, fromFirstCallback]
  | cons act acts ih =>
    cases act with
    | run => simpa [logOf, freshLogOf, fromFirstCallback] using ih
    | exit => simpa [logOf, freshLogOf, fromFirstCallback] using ih
    | addCallback c =>
      have := logOf_eq_fresh_of_new [c] (by simp) acts
      simpa [logOf, freshLogOf, fromFirstCallback, blocks] using this
    | block => simpa [logOf, freshLogOf, fromFirstCallback] using ih

/-- **Each callback is invoked exactly once, at the first block after its registration, exactly in the
runs that block at most once from the first registration on.** -/
theorem invoked_once_iff {f : Fiber α} {acts : List (Act α)} (h : Lib.run step {} acts = some f) :
    f.invoked = freshLogOf [] acts ↔ blocks (fromFirstCallback acts) ≤ 1 := by
  rw [run_invoked _ _ _ h]
  exact logOf_eq_fresh_iff acts

/-- The two functions that `Executor::addCallback` is called with: `Actor::addEvent` on the event of a
client and `DAG::schedule` on the source of a graph. -/
inductive Callback
  | addEvent (event : Nat)
  | schedule (dag : Nat)
  deriving DecidableEq, Repr

/-- A fiber with one fetch. -/
theorem invoked_once_one_fetch :
    ∃ f, Lib.run step {} [.run, .addCallback (Callback.addEvent 1), .block, .run, .exit] = some f ∧
      f.invoked = [[.addEvent 1]] := by
  refine ⟨_, rfl, ?_⟩
  have h : Lib.run step {} [.run, .addCallback (Callback.addEvent 1), .block, .run, .exit] = some _ := rfl
  exact (invoked_once_iff h).mpr (by decide)

/-- A fiber that runs a graph and then fetches: the graph is started a second time. -/
theorem invoked_twice_two_blocks :
    ∃ f, Lib.run step {} [.run, .addCallback (Callback.schedule 1), .block,
        .run, .addCallback (.addEvent 2), .block] = some f ∧
      f.invoked = [[.schedule 1], [.schedule 1, .addEvent 2]] ∧
      f.invoked ≠ freshLogOf [] [.run, .addCallback (Callback.schedule 1), .block,
        .run, .addCallback (.addEvent 2), .block] := by
  refine ⟨_, rfl, ?_, ?_⟩ <;> decide

end Fiber

end Raster
