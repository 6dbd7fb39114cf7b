import Raster.Concurrency.Accounting

/-!
# Where the tasks are

In the queue, with a worker, or done; each task is in exactly one of these. As long as the pool is not
stopped, the poison of a call is behind all tasks, so the first worker that takes some finds no task
behind it.
-/

namespace Raster

open Lib (tally tally_update tally_succ le_tally)

/-- The worker has the task. -/
def Worker.holdsTask (id : Nat) : Worker → Nat
  | .took id' _ => if id' = id then 1 else 0
  | .running id' _ => if id' = id then 1 else 0
  | _ => 0

def CPUTask.isTask (id : Nat) : CPUTask → Bool
  | .task id' _ => id' == id
  | .poison => false

namespace Pool

variable {p p' : Pool} {c c' : Controller} {t now : Nat}

/-! ### Where the tasks are -/

/-- How often a task is in the queue, and how often it is done. -/
def queued (p : Pool) (id : Nat) : Nat := p.taskQueue.countP (CPUTask.isTask id)

def finished (p : Pool) (id : Nat) : Nat := (p.done.map Prod.fst).count id

/-- Each task that was added is in one place, and no task is behind poison. -/
structure Tasks (p : Pool) (c : Controller) : Prop where
  once : ∀ id, p.queued id + p.total (Worker.holdsTask id) + p.finished id = if id < p.added.length then 1 else 0
  behind : p.taskQueue.Pairwise fun x y => x = .poison → y = .poison
  drained : c.toPoison + p.poisons < c.quota → ∀ x ∈ p.taskQueue, x = .poison

theorem tasks_initial (isJoin : Bool) (numThreads : Nat) : (initial isJoin).Tasks (.making numThreads [] numThreads) where
  once := by simp [initial, queued, finished, total, tally]
  behind := List.Pairwise.nil
  drained := nofun

/-- The data of each task stays with it, and its end is what `runTask` makes of them. -/
structure Own (p : Pool) : Prop where
  queue : ∀ id task, .task id task ∈ p.taskQueue → p.added[id]? = some task
  took : ∀ t id task, p.workers t = .took id task → p.added[id]? = some task
  running : ∀ t id result, p.workers t = .running id result →
    ∃ task startTime, p.added[id]? = some task ∧ result = runTask task startTime
  done : ∀ id result, (id, result) ∈ p.done → ∃ task startTime, p.added[id]? = some task ∧ result = runTask task startTime

theorem own_initial (isJoin : Bool) : (initial isJoin).Own := ⟨nofun, nofun, nofun, nofun⟩

theorem Tasks.move (h : p.Tasks c) {w v : Worker} (hw : p.workers t = w) (hlt : t < p.nextId) {q : Pool} (hq : Moves t v p q)
    (hadded : q.added = p.added) (hqueue : q.taskQueue = p.taskQueue)
    (honce : ∀ id, v.holdsTask id + q.finished id = w.holdsTask id + p.finished id) : q.Tasks c := by
  refine ⟨fun id => ?_, hqueue ▸ h.behind, ?_⟩
  · have htotal := total_move (w := Worker.holdsTask id) hq hlt
    rw [hw] at htotal
    have hid := h.once id
    have hv := honce id
    have hqueued : q.queued id = p.queued id := by rw [queued, hqueue, queued]
    rw [hadded]
    omega
  · rw [poisons, hqueue]
    exact h.drained

theorem Tasks.take (h : p.Tasks c) (hw : p.workers t = .taking) (hlt : t < p.nextId) {x : CPUTask} {rest : List CPUTask}
    (hqueue : p.taskQueue = x :: rest) {v : Worker} {q : Pool} (hq : Moves t v p q) (hadded : q.added = p.added)
    (hrest : q.taskQueue = rest) (hdone : q.done = p.done)
    (hv : ∀ id, v.holdsTask id = if x.isTask id then 1 else 0) : q.Tasks c := by
  have hbehind := h.behind
  rw [hqueue, List.pairwise_cons] at hbehind
  refine ⟨fun id => ?_, hrest ▸ hbehind.2, fun hless y hy => ?_⟩
  · have htotal := total_move (w := Worker.holdsTask id) hq hlt
    rw [hw, hv id] at htotal
    have hid := h.once id
    have hqueued : p.queued id = q.queued id + if x.isTask id then 1 else 0 := by
      rw [queued, hqueue, List.countP_cons, queued, hrest]
    have hfinished : q.finished id = p.finished id := by rw [finished, hdone, finished]
    have hnone : Worker.taking.holdsTask id = 0 := rfl
    rw [hadded]
    omega
  · rw [hrest] at hy
    by_cases hx : x = .poison
    · exact hbehind.1 y hy hx
    · -- a task was first, so poison had not been taken before
      have hpoisons : p.poisons = q.poisons := by
        rw [poisons, hqueue, List.count_cons_of_ne hx, poisons, hrest]
      have hall := h.drained (by rw [hpoisons]; exact hless) x (by rw [hqueue]; exact List.mem_cons_self)
      exact absurd hall hx

theorem Tasks.workerMoves (h : p.Tasks c) (hsound : p.Sound c) {w v : Worker} (hw : p.workers t = w)
    (hs : WorkerMoves p t now w v p') : p'.Tasks c := by
  have hq := hs.moves
  have hadded := hs.added.1
  have hlt := hsound.listed.lt_of_moves hw hs
  cases hs with
  | takePoison rest hqueue => exact h.take hw hlt hqueue hq hadded rfl rfl fun _ => rfl
  | takeTask id task rest hqueue =>
    refine h.take hw hlt hqueue hq hadded rfl rfl fun id' => ?_
    simp [Worker.holdsTask, CPUTask.isTask]
  | finish id result =>
    refine h.move hw hlt hq hadded rfl fun id' => ?_
    simp only [finished, List.map_append, List.map_cons, List.map_nil, List.count_append, Worker.holdsTask]
    rw [List.count_singleton]
    simp only [beq_iff_eq]
    omega
  | _ => exact h.move hw hlt hq hadded rfl fun _ => rfl

theorem Tasks.controllerMoves (h : p.Tasks c) (hsound : p.Sound c) (hs : ControllerMoves p c c' p') : p'.Tasks c' := by
  have hframe := hs.frame
  have hadded := hframe.added
  have hholds : ∀ id, p'.total (Worker.holdsTask id) = p.total (Worker.holdsTask id) := fun id =>
    hsound.total_frame hframe _ rfl rfl
  have hfinished : ∀ id, p'.finished id = p.finished id := fun id => by rw [finished, hframe.done, finished]
  rcases hframe.queue with ⟨hqueue, -, hto, hquota⟩ | ⟨n, size, rfl, rfl, hqueue, -⟩ | ⟨i, n, size, hi, rfl, rfl, hqueue, -⟩
  · refine ⟨fun id => ?_, hqueue ▸ h.behind, ?_⟩
    · rw [hholds, hfinished, hadded, queued, hqueue]
      exact h.once id
    · rw [hto, poisons, hqueue]
      exact fun hless => h.drained (lt_of_lt_of_le hless hquota)
  · refine ⟨fun id => ?_, hqueue ▸ h.behind, fun hless => ?_⟩
    · rw [hholds, hfinished, hadded, queued, hqueue]
      exact h.once id
    · simp only [Controller.toPoison, Controller.quota] at hless
      omega
  · refine ⟨fun id => ?_, ?_, fun hless => ?_⟩
    · rw [hholds, hfinished, hadded, queued, hqueue, List.countP_append]
      exact h.once id
    · rw [hqueue, List.pairwise_append]
      refine ⟨h.behind, List.pairwise_singleton _ _, fun x _ y hy _ => ?_⟩
      exact List.mem_singleton.mp hy
    · have hpoisons : p'.poisons = p.poisons + 1 := by
        rw [poisons, hqueue, List.count_append, poisons]
        rfl
      simp only [Controller.toPoison, Controller.quota] at hless
      have hall := h.drained (by
        simp only [Controller.toPoison, Controller.quota]
        omega)
      rw [hqueue]
      intro x hx
      rcases List.mem_append.mp hx with hx | hx
      · exact hall x hx
      · exact List.mem_singleton.mp hx

theorem Tasks.add (h : p.Tasks .idle) (hnone : p.poisons = 0) (task : PoolTask) : (p.add task).Tasks .idle := by
  refine ⟨fun id => ?_, ?_, nofun⟩
  · have hid := h.once id
    have hqueued : (p.add task).queued id = p.queued id + if p.added.length = id then 1 else 0 := by
      rw [queued, Pool.add, List.countP_append, queued]
      simp [List.countP_cons, CPUTask.isTask]
    have hlength : (p.add task).added.length = p.added.length + 1 := List.length_append
    have hsame : (p.add task).total (Worker.holdsTask id) = p.total (Worker.holdsTask id) := rfl
    have hdone : (p.add task).finished id = p.finished id := rfl
    rw [hlength, hsame, hdone, hqueued]
    split_ifs at hid ⊢ <;> omega
  · show (p.taskQueue ++ [CPUTask.task p.added.length task]).Pairwise _
    rw [List.pairwise_append]
    refine ⟨h.behind, List.pairwise_singleton _ _, fun x hx y _ hpoison => ?_⟩
    rw [poisons, List.count_eq_zero] at hnone
    exact absurd (hpoison ▸ hx) hnone

theorem Own.workerMoves (h : p.Own) {w v : Worker} (hw : p.workers t = w) (hs : WorkerMoves p t now w v p') : p'.Own := by
  have hworkers := hs.moves.workers
  have hadded := hs.added.1
  have hqueue : ∀ x, x ∈ p'.taskQueue → x ∈ p.taskQueue := by
    cases hs with
    | takePoison rest hq => exact fun x hx => hq ▸ List.mem_cons_of_mem _ hx
    | takeTask id task rest hq => exact fun x hx => hq ▸ List.mem_cons_of_mem _ hx
    | _ => exact fun x hx => hx
  have hplace : ∀ x, p'.workers x = v ∨ p'.workers x = p.workers x := by
    intro x
    by_cases hxt : x = t
    · left
      rw [hworkers, hxt, Function.update_self]
    · right
      rw [hworkers, Function.update_of_ne hxt]
  refine ⟨fun id task hmem => ?_, fun x id task hx => ?_, fun x id result hx => ?_, fun id result hmem => ?_⟩
  · rw [hadded]
    exact h.queue id task (hqueue _ hmem)
  · rw [hadded]
    rcases hplace x with hv | hsame
    · rw [hv] at hx
      subst hx
      cases hs with
      | takeTask _ _ rest hq => exact h.queue id task (by rw [hq]; exact List.mem_cons_self)
    · exact h.took x id task (hsame ▸ hx)
  · rw [hadded]
    rcases hplace x with hv | hsame
    · rw [hv] at hx
      subst hx
      cases hs with
      | begin _ task => exact ⟨task, now, h.took t id task hw, rfl⟩
    · exact h.running x id result (hsame ▸ hx)
  · rw [hadded]
    cases hs with
    | finish id' result' =>
      rcases List.mem_append.mp hmem with hmem | hmem
      · exact h.done id result hmem
      · simp only [List.mem_singleton, Prod.mk.injEq] at hmem
        obtain ⟨rfl, rfl⟩ := hmem
        exact h.running t _ _ hw
    | _ => exact h.done id result hmem

theorem Own.controllerMoves (h : p.Own) (hs : ControllerMoves p c c' p') : p'.Own := by
  have hframe := hs.frame
  have hplace : ∀ x, p'.workers x = p.workers x ∨ p'.workers x = .starting := by
    intro x
    rcases hframe.workers with hworkers | ⟨t, todo, newThreads, size, rfl, hworkers⟩
    · exact Or.inl (by rw [hworkers])
    · by_cases hxt : x = t
      · exact Or.inr (by rw [hworkers, hxt, Function.update_self])
      · exact Or.inl (by rw [hworkers, Function.update_of_ne hxt])
  have hqueue : ∀ id task, CPUTask.task id task ∈ p'.taskQueue → CPUTask.task id task ∈ p.taskQueue := by
    intro id task hmem
    rcases hframe.queue with ⟨hqueue, -⟩ | ⟨n, size, -, -, hqueue, -⟩ | ⟨i, n, size, -, -, -, hqueue, -⟩
    · rwa [hqueue] at hmem
    · rwa [hqueue] at hmem
    · rw [hqueue] at hmem
      simpa using hmem
  refine ⟨fun id task hmem => ?_, fun x id task hx => ?_, fun x id result hx => ?_, fun id result hmem => ?_⟩
  · rw [hframe.added]
    exact h.queue id task (hqueue id task hmem)
  · rw [hframe.added]
    rcases hplace x with hsame | hstart
    · exact h.took x id task (hsame ▸ hx)
    · rw [hstart] at hx
      cases hx
  · rw [hframe.added]
    rcases hplace x with hsame | hstart
    · exact h.running x id result (hsame ▸ hx)
    · rw [hstart] at hx
      cases hx
  · rw [hframe.added]
    exact h.done id result (hframe.done ▸ hmem)

theorem getElem?_add {task task' : PoolTask} {id : Nat} (h : p.added[id]? = some task') :
    (p.add task).added[id]? = some task' := by
  rw [Pool.add, List.getElem?_append_left (List.getElem?_eq_some_iff.mp h).1]
  exact h

theorem Own.add (h : p.Own) (task : PoolTask) : (p.add task).Own := by
  refine ⟨fun id task' hmem => ?_, fun x id task' hx => getElem?_add (h.took x id task' hx), fun x id result hx => ?_,
    fun id result hmem => ?_⟩
  · rcases List.mem_append.mp hmem with hmem | hmem
    · exact getElem?_add (h.queue id task' hmem)
    · simp only [List.mem_singleton, CPUTask.task.injEq] at hmem
      obtain ⟨rfl, rfl⟩ := hmem
      simp [Pool.add]
  · obtain ⟨task', startTime, hadded, hresult⟩ := h.running x id result hx
    exact ⟨task', startTime, getElem?_add hadded, hresult⟩
  · obtain ⟨task', startTime, hadded, hresult⟩ := h.done id result hmem
    exact ⟨task', startTime, getElem?_add hadded, hresult⟩

end Pool

/-! ### Runs without `stop` -/

/-- The call does not stop the pool. -/
def Controller.Joins : Controller → Prop
  | .locking call => call ≠ .stop
  | .unlocking call => call ≠ .stop
  | .entering call => call ≠ .stop
  | .removing _ isJoin _ => isJoin = true
  | .settingJoin _ isJoin _ => isJoin = true
  | _ => True

namespace Pool

variable {p p' : Pool} {c c' : Controller} {t now : Nat}

/-- No call stops the pool, so `isJoin_` is set whenever threads are to be removed. -/
structure NoStop (p : Pool) (c : Controller) : Prop where
  joins : c.Joins
  isJoin : c.decided ≠ none → p.isJoin = true

theorem NoStop.controllerMoves (h : p.NoStop c) (hs : ControllerMoves p c c' p') : p'.NoStop c' := by
  obtain ⟨hjoins, hjoin⟩ := h
  cases hs with
  | stop => exact absurd rfl hjoins
  | setJoin n isJoin size => exact ⟨trivial, fun _ => hjoins⟩
  | lock call q hq => exact ⟨hjoins, nofun⟩
  | unlock call => exact ⟨hjoins, nofun⟩
  | shrink n hgt => exact ⟨rfl, nofun⟩
  | join => exact ⟨rfl, nofun⟩
  | remove n isJoin size hnone => exact ⟨hjoins, nofun⟩
  | stopThreads n size hnone => exact ⟨trivial, fun _ => hjoin nofun⟩
  | setStop n size => exact ⟨trivial, fun _ => hjoin nofun⟩
  | poison i n size hi => exact ⟨trivial, fun _ => hjoin nofun⟩
  | poisoned i n size hi => exact ⟨trivial, fun _ => hjoin nofun⟩
  | take t rest i n size hi hstop => exact ⟨trivial, fun _ => hjoin nofun⟩
  | taken i n size hi => exact ⟨trivial, fun _ => hjoin nofun⟩
  | collect t i n size hexit => exact ⟨trivial, fun _ => hjoin nofun⟩
  | erase t i n size => exact ⟨trivial, fun _ => hjoin nofun⟩
  | _ => exact ⟨trivial, nofun⟩

theorem NoStop.not_inBranch (h : p.NoStop c) (hsound : p.Sound c) : ¬ (p.workers t).InBranch := by
  intro hb
  obtain ⟨hfalse, hdecided⟩ := hsound.modes.branch t (Or.inl hb)
  have htrue := h.isJoin (by rw [hdecided]; exact Option.some_ne_none 0)
  rw [hfalse] at htrue
  cases htrue

end Pool

namespace PoolState

variable {s s' : PoolState} {l : Label} {ls : List Label} {isJoin : Bool} {numThreads : Nat}

/-- What holds as long as the pool is not stopped. -/
structure JoinInv (s : PoolState) : Prop where
  inv : s.Inv
  noStop : s.pool.NoStop s.controller
  tasks : s.pool.Tasks s.controller
  own : s.pool.Own

theorem joinInv_start : (start isJoin numThreads).JoinInv :=
  ⟨inv_start, ⟨trivial, nofun⟩, Pool.tasks_initial isJoin numThreads, Pool.own_initial isJoin⟩

theorem JoinInv.orderly (h : s.JoinInv) (l : Label) : s.Orderly l := by
  cases l with
  | add task => trivial
  | call c => trivial
  | controller =>
    show s.pool.Settled s.controller
    cases hc : s.controller with
    | settingStop n size => exact fun t _ hw => h.noStop.not_inBranch h.inv.sound (Or.inr hw)
    | _ => trivial
  | worker t now => exact fun hearly => h.noStop.not_inBranch h.inv.sound (Or.inl hearly.1)

theorem JoinInv.poisons_idle (h : s.JoinInv) (hidle : s.controller = .idle) : s.pool.poisons = 0 := by
  have hcount := h.inv.poisoned.count
  have hrestored := h.inv.restored (by rw [hidle]; rfl)
  have hzero := (h.inv.sound.calm (by rw [hidle]; exact le_refl _)).2.2
  omega

theorem step_joinInv (hl : l ≠ .call .stop) (h : s.JoinInv) (hs : s.step l = some s') : s'.JoinInv := by
  have hinv := step_inv (h.orderly l) h.inv hs
  obtain ⟨⟨hsound, hpoisoned⟩, hnoStop, htasks, hown⟩ := h
  suffices hrest : s'.pool.NoStop s'.controller ∧ s'.pool.Tasks s'.controller ∧ s'.pool.Own from
    ⟨hinv, hrest.1, hrest.2.1, hrest.2.2⟩
  have hpoisons := JoinInv.poisons_idle ⟨⟨hsound, hpoisoned⟩, hnoStop, htasks, hown⟩
  rcases step_cases hs with ⟨hidle, task, -, rfl⟩ | ⟨hidle, c, rfl, rfl⟩ | ⟨-, hmove⟩ | ⟨-, habort⟩ |
    ⟨t, now, w, v, -, hw, hmove, hc⟩ | ⟨t, now, -, -, hfailed, -, -, -⟩
  · rw [hidle] at htasks
    show (s.pool.add task).NoStop s.controller ∧ (s.pool.add task).Tasks s.controller ∧ (s.pool.add task).Own
    rw [hidle]
    exact ⟨⟨trivial, nofun⟩, htasks.add (hpoisons hidle) task, hown.add task⟩
  · rw [hidle] at htasks
    exact ⟨⟨fun hstop => hl (by rw [hstop]), nofun⟩, ⟨htasks.once, htasks.behind, nofun⟩, hown⟩
  · exact ⟨hnoStop.controllerMoves hmove, htasks.controllerMoves hsound hmove, hown.controllerMoves hmove⟩
  · exact absurd habort.fails hsound.not_fails
  · rw [hc]
    exact ⟨⟨hnoStop.joins, hmove.moves.isJoin ▸ hnoStop.isJoin⟩, htasks.workerMoves hsound hw hmove, hown.workerMoves hw hmove⟩
  · rw [hinv.sound.failed] at hfailed
    cases hfailed

theorem run_joinInv (hls : ∀ l ∈ ls, l ≠ .call .stop) (h : s.JoinInv) (hrun : Lib.run step s ls = some s') : s'.JoinInv :=
  Lib.run_invariant_where (fun _ _ _ h hl hs => step_joinInv hl h hs) h
    (Lib.StepsMeet.of_forall fun l hl _ => hls l hl) hrun

end PoolState

end Raster
