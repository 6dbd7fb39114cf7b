import Raster.Concurrency.Accounting

/-!
# Several controllers

`setNumThreads`, `stop` and `join` name `threadsLock_` in their first statement, but the holder is a
temporary: it is gone before the function looks at `threads_`. Two controllers can be in `removeThreads`
at the same time.

When the callers themselves make one call at a time, a pool with several controllers does what a pool
with one does.
-/

namespace Raster

/-- A pool with the threads `0 … m` that resize it; the thread 0 has constructed it. -/
structure SharedPool (m : Nat) where
  pool : Pool
  controllers : Fin (m + 1) → Controller
  /-- The call that a controller is in, or was in last. -/
  current : Fin (m + 1) → Option Call := fun _ => none
  /-- The constructor has returned. -/
  constructed : Bool := false

/-- The functions that change `threads_`. -/
def Call.resizes : Call → Bool
  | .setNumThreads _ => true
  | .stop => true
  | .join => true
  | _ => false

/-- The number of threads that a function leaves. -/
def Call.size : Call → Nat
  | .setNumThreads n => n
  | _ => 0

namespace Controller

/-- Between the first look at `threads_` and the last. -/
def changing : Controller → Bool
  | .idle => false
  | .locking _ => false
  | .unlocking _ => false
  | .entering _ => false
  | .observing _ _ => false
  | .unobserving _ _ => false
  | _ => true

/-- The number of threads that the call of a controller is to leave. -/
def size : Controller → Nat
  | .idle => 0
  | .locking call => call.size
  | .unlocking call => call.size
  | .entering call => call.size
  | .making _ _ size => size
  | .creating _ _ size => size
  | .sorting _ size => size
  | .waiting _ _ size => size
  | .telling _ size => size
  | .removing _ _ size => size
  | .settingJoin _ _ size => size
  | .stopping _ size => size
  | .settingStop _ size => size
  | .poisoning _ _ size => size
  | .taking _ _ size => size
  | .joining _ _ _ size => size
  | .erasing _ _ _ size => size
  | .checking _ size => size
  | .returning size => size
  | .observing _ _ => 0
  | .unobserving _ _ => 0

end Controller

namespace SharedPool

variable {m : Nat}

inductive Label (m : Nat)
  /-- Some thread adds a task. -/
  | add (task : PoolTask)
  | call (i : Fin (m + 1)) (c : Call)
  | controller (i : Fin (m + 1))
  | worker (t now : Nat)
  deriving DecidableEq, Repr

def step (s : SharedPool m) (l : Label m) : Option (SharedPool m) :=
  if s.pool.failed.isSome then none
  else
    match l with
    | .add task => if s.constructed then some { s with pool := s.pool.add task } else none
    | .call i c =>
      if s.constructed ∧ s.controllers i = .idle ∧ c.resizes then
        some { s with
          controllers := Function.update s.controllers i (.locking c)
          current := Function.update s.current i (some c) }
      else none
    | .controller i =>
      (s.pool.controllerStep (s.controllers i)).map fun r =>
        { s with
          pool := r.1
          controllers := Function.update s.controllers i r.2
          constructed := s.constructed || r.2 == .idle }
    | .worker t now => (s.pool.workerStep t now).map fun pool => { s with pool }

/-- The thread 0 is in the constructor. -/
def start (m : Nat) (isJoin : Bool) (numThreads : Nat) : SharedPool m where
  pool := Pool.initial isJoin
  controllers := Function.update (fun _ => .idle) 0 (.making numThreads [] numThreads)

variable {s s' : SharedPool m} {l : Label m} {ls : List (Label m)} {isJoin : Bool} {numThreads : Nat}

/-! ### One call at a time -/

/-- No call is made while another one is in progress, nor is `threadsToStop_` assigned while a worker is
about to put its one back. -/
def OneCall (s : SharedPool m) : Label m → Prop
  | .call _ _ => ∀ j, s.controllers j = .idle
  | .controller i => s.pool.Settled (s.controllers i)
  | _ => True

instance (s : SharedPool m) : ∀ l, Decidable (s.OneCall l)
  | .call _ _ => inferInstanceAs (Decidable (∀ _, _))
  | .controller i => inferInstanceAs (Decidable (s.pool.Settled (s.controllers i)))
  | .add _ => isTrue trivial
  | .worker _ _ => isTrue trivial

/-- The controller `i` is at `c`, and the others are in no call. -/
structure At (s : SharedPool m) (i : Fin (m + 1)) (c : Controller) : Prop where
  self : s.controllers i = c
  others : ∀ j, j ≠ i → s.controllers j = .idle

/-- Some controller is the only one in a call, and is at a place that goes with the pool. A worker that has
found poison which nobody counted ends the process. -/
structure Serial (s : SharedPool m) : Prop where
  alone : ∃ i c, s.At i c ∧ c.SizeIs s.pool.threads.length ∧
    (s.pool.Sound c ∨ s.pool.failed = some .threadsToStop)
  current : ∀ i c, s.current i = some c → s.controllers i ≠ .idle → (s.controllers i).size = c.size

theorem start_serial : (start m isJoin numThreads).Serial := by
  have hsound := Pool.sound_initial isJoin numThreads
  refine ⟨⟨0, .making numThreads [] numThreads, ⟨?_, fun j hj => ?_⟩, hsound.counts.size, Or.inl hsound⟩, nofun⟩
  · simp [start]
  · simp [start, hj]

theorem At.moves {i j : Fin (m + 1)} {c : Controller} (h : s.At i c) {r : Pool × Controller}
    (hs : s.pool.controllerStep (s.controllers j) = some r) : j = i := by
  by_contra hne
  rw [h.others j hne] at hs
  cases hs

theorem At.update {i : Fin (m + 1)} {c : Controller} (h : s.At i c) {c' : Controller}
    (hs : s'.controllers = Function.update s.controllers i c') : s'.At i c' := by
  refine ⟨by rw [hs, Function.update_self], fun j hj => ?_⟩
  rw [hs, Function.update_of_ne hj]
  exact h.others j hj

theorem size_of_moves {p p' : Pool} {c c' : Controller} (hs : Pool.ControllerMoves p c c' p') :
    c ≠ .idle ∧ (c' = .idle ∨ c'.size = c.size) := by
  cases hs <;> exact ⟨nofun, by first | exact Or.inl rfl | exact Or.inr rfl⟩

theorem step_serial (hok : s.OneCall l) (h : s.Serial) (hs : s.step l = some s') : s'.Serial := by
  obtain ⟨⟨i, c, hat, hsize, hsound⟩, hcurrent⟩ := h
  unfold step at hs
  split at hs
  · cases hs
  · rename_i halive
    have hsound : s.pool.Sound c := hsound.resolve_right fun hfailed => halive (by rw [hfailed]; rfl)
    cases l with
    | add task =>
      simp only at hs
      split_ifs at hs
      cases hs
      exact ⟨⟨i, c, ⟨hat.self, hat.others⟩, hsize, Or.inl (hsound.same (Pool.Same.of_update ..) rfl)⟩, hcurrent⟩
    | call j call =>
      simp only at hs
      split_ifs at hs
      cases hs
      have hidle : c = .idle := hat.self.symm.trans (hok i)
      subst hidle
      have hat' : s.At j .idle := ⟨hok j, fun k _ => hok k⟩
      refine ⟨⟨j, .locking call, hat'.update rfl, trivial, Or.inl ?_⟩, fun k call' hcall hk => ?_⟩
      · exact hsound.advance (Pool.Same.refl _) hsound.lock rfl trivial nofun
      · by_cases hkj : k = j
        · subst hkj
          simp only [Function.update_self, Option.some.injEq] at hcall ⊢
          rw [← hcall]
          rfl
        · simp only [Function.update_of_ne hkj] at hcall hk ⊢
          exact hcurrent k call' hcall hk
    | controller j =>
      simp only [Option.map_eq_some_iff] at hs
      obtain ⟨⟨p, c'⟩, hstep, rfl⟩ := hs
      obtain rfl : j = i := hat.moves hstep
      have hset : s.pool.Settled c := hat.self ▸ hok
      rw [hat.self] at hstep
      have hmove := hsound.moves_of_step hstep
      have hsound' := hsound.controllerMoves hset hmove
      refine ⟨⟨j, c', hat.update rfl, hsound'.counts.size, Or.inl hsound'⟩, fun k call hcall hk => ?_⟩
      by_cases hkj : k = j
      · subst hkj
        simp only [Function.update_self] at hk ⊢
        obtain ⟨hne, hsize'⟩ := size_of_moves hmove
        rw [hsize'.resolve_left hk, ← hat.self]
        exact hcurrent k call hcall (by rw [hat.self]; exact hne)
      · simp only [Function.update_of_ne hkj] at hk ⊢
        exact hcurrent k call hcall hk
    | worker t now =>
      simp only [Option.map_eq_some_iff] at hs
      obtain ⟨p, hstep, rfl⟩ := hs
      rcases Pool.workerStep_cases hstep with ⟨w, v, hw, hmove⟩ | ⟨hfail, -, -, hmoves, -⟩
      · have hsound' := hsound.workerMoves hw hmove
        exact ⟨⟨i, c, ⟨hat.self, hat.others⟩, hsound'.counts.size, Or.inl hsound'⟩, hcurrent⟩
      · have hthreads : p.threads = s.pool.threads := hmoves.threads
        exact ⟨⟨i, c, ⟨hat.self, hat.others⟩, hthreads ▸ hsize, Or.inr hfail⟩, hcurrent⟩

/-- **Resizing is serialised by its callers.** In every run in which no call is made while another one is in
progress and `threadsToStop_` is not assigned while a worker is about to put its one back: at most one
controller is between its first and its last look at `threads_`, no check of theirs on `threads_.size()`
or `stoppedThreads_.size()` fails, and `setNumThreads(n)` returns with `n` threads. -/
theorem resizing_serialised (hok : Lib.StepsMeet step OneCall (start m isJoin numThreads) ls)
    (hrun : Lib.run step (start m isJoin numThreads) ls = some s) :
    (∀ i j, (s.controllers i).changing → (s.controllers j).changing → i = j) ∧
    (s.pool.failed = none ∨ s.pool.failed = some .threadsToStop) ∧
    ∀ i n size, s.current i = some (.setNumThreads n) → s.controllers i = .returning size →
      size = n ∧ s.pool.threads.length = n := by
  have h : s.Serial := Lib.run_invariant_where (fun _ _ _ h hok hs => step_serial hok h hs) start_serial hok hrun
  obtain ⟨⟨k, c, hat, hsize, hsound⟩, hcurrent⟩ := h
  have hbusy : ∀ i, s.controllers i ≠ .idle → i = k := fun i hi => by
    by_contra hne
    exact hi (hat.others i hne)
  refine ⟨fun i j hi hj => ?_, hsound.imp_left fun hsound => hsound.failed, fun i n size hcall hret => ?_⟩
  · have hne : ∀ x, (s.controllers x).changing = true → s.controllers x ≠ .idle := fun x hx hidle => by
      rw [hidle] at hx
      cases hx
    rw [hbusy i (hne i hi), hbusy j (hne j hj)]
  · have hne : s.controllers i ≠ .idle := by rw [hret]; exact nofun
    have hn := hcurrent i _ hcall hne
    rw [hret] at hn
    obtain rfl : c = .returning size := by rw [← hat.self, ← hbusy i hne, hret]
    exact ⟨hn, hsize.trans hn⟩

/-- The constructor of a pool of two threads. -/
def constructorLabels : List (Label 1) :=
  List.replicate 7 (.controller 0) ++ [.worker 0 0, .worker 1 0] ++ List.replicate 5 (.controller 0)

/-- Two controllers call `setNumThreads(1)` and get through the lock, one after the other. -/
def overlapLabels : List (Label 1) :=
  constructorLabels ++ [.call 0 (.setNumThreads 1), .call 1 (.setNumThreads 1)] ++ List.replicate 3 (.controller 0) ++
    List.replicate 3 (.controller 1)

/-- The first removes a thread, and the second finds it in `stoppedThreads_`. -/
def collideLabels : List (Label 1) :=
  List.replicate 6 (.controller 0) ++ List.replicate 4 (.worker 0 0) ++ [.controller 1]

/-- The lock does not keep a second controller out, and its check fails. -/
theorem resizing_overlaps :
    ∃ s s', Lib.run step (start 1 false 2) overlapLabels = some s ∧
      (s.controllers 0).changing ∧ (s.controllers 1).changing ∧
      Lib.run step s collideLabels = some s' ∧ s'.pool.failed = some .stoppedThreads := by
  exact ⟨_, _, rfl, rfl, rfl, rfl, rfl⟩

/-- A controller waits for the other one to return, and then leaves one thread. -/
def turnsLabels : List (Label 1) :=
  constructorLabels ++ [.call 0 (.setNumThreads 2)] ++ List.replicate 4 (.controller 0) ++ [.call 1 (.setNumThreads 1)] ++
    List.replicate 9 (.controller 1) ++ List.replicate 5 (.worker 0 0) ++ List.replicate 5 (.controller 1)

theorem resizing_serialised_turns :
    ∃ s, Lib.run step (start 1 false 2) turnsLabels = some s ∧ s.controllers 1 = .returning 1 ∧ s.pool.threads.length = 1 := by
  obtain ⟨s, hs⟩ : ∃ s, Lib.run step (start 1 false 2) turnsLabels = some s := ⟨_, rfl⟩
  have hcurrent : s.current 1 = some (.setNumThreads 1) := by
    cases hs
    rfl
  have hreturning : s.controllers 1 = .returning 1 := by
    cases hs
    rfl
  exact ⟨s, hs, hreturning, ((resizing_serialised (by decide) hs).2.2 1 1 1 hcurrent hreturning).2⟩

end SharedPool

end Raster
