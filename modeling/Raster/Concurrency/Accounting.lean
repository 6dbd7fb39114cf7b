import Raster.Concurrency.Threads

/-!
# Removing threads

The steps of the controller, and the poison that goes with them. `threadsToStop_` must not be assigned
while a worker is about to put its one back. `Settled` excludes this, and with it every check on the
sizes of `threads_` and `stoppedThreads_` holds.

If moreover no worker leaves after a task, each thread that leaves has taken one poison task, so that the
counter, the poison tasks and the threads to be collected agree, and nothing is left when the call returns.
-/

namespace Raster

open Lib (tally tally_update tally_succ le_tally)

/-- The poison that is still to be added. -/
def Controller.toPoison : Controller → Nat
  | .poisoning i n _ => n - i
  | _ => 0

/-- The thread has taken poison. -/
def Worker.holdsPoison (w : Worker) : Nat := if w = .poisoned then 1 else 0

namespace Pool

variable {p p' : Pool} {c c' : Controller} {t now : Nat}

/-! ### What a controller can do -/

/-- The place a controller is in, the place it goes to, and the pool after it; the checks hold. -/
inductive ControllerMoves (p : Pool) : Controller → Controller → Pool → Prop
  | lock (call : Call) (q : Pool) (hlock : p.lock call = some q) : ControllerMoves p (.locking call) (.unlocking call) q
  | unlock (call : Call) : ControllerMoves p (.unlocking call) (.entering call) (p.unlock call)
  | grow (n : Nat) (hlt : p.threads.length < n) :
      ControllerMoves p (.entering (.setNumThreads n)) (.making (n - p.threads.length) [] n) p
  | shrink (n : Nat) (hgt : n < p.threads.length) :
      ControllerMoves p (.entering (.setNumThreads n)) (.removing (p.threads.length - n) true n) p
  | keep (n : Nat) (heq : p.threads.length = n) : ControllerMoves p (.entering (.setNumThreads n)) (.returning n) p
  | stop : ControllerMoves p (.entering .stop) (.removing p.threads.length false 0) p
  | join : ControllerMoves p (.entering .join) (.removing p.threads.length true 0) p
  | addObserver (o : Nat) : ControllerMoves p (.entering (.addObserver o)) (.observing o p.threads)
      { p with observers := p.observers ++ [o] }
  | removeObserver (o : Nat) : ControllerMoves p (.entering (.removeObserver o)) (.unobserving o p.threads) p
  | made (newThreads : List Nat) (size : Nat) :
      ControllerMoves p (.making 0 newThreads size) (.creating newThreads newThreads size) p
  | make (todo : Nat) (newThreads : List Nat) (size : Nat) :
      ControllerMoves p (.making (todo + 1) newThreads size) (.making todo (newThreads ++ [p.nextId]) size)
        { p with nextId := p.nextId + 1 }
  | created (newThreads : List Nat) (size : Nat) : ControllerMoves p (.creating [] newThreads size) (.sorting newThreads size) p
  | create (t : Nat) (todo newThreads : List Nat) (size : Nat) :
      ControllerMoves p (.creating (t :: todo) newThreads size) (.creating todo newThreads size)
        { p.setWorker t .starting with threads := p.threads ++ [t] }
  | sort (newThreads : List Nat) (size : Nat) : ControllerMoves p (.sorting newThreads size)
      (.waiting newThreads newThreads size) { p with threads := p.threads.insertionSort (· ≤ ·) }
  | waited (newThreads : List Nat) (size : Nat) : ControllerMoves p (.waiting [] newThreads size)
      (.telling (p.observers.flatMap fun o => newThreads.map fun t => (o, t)) size) p
  | wait (t : Nat) (todo newThreads : List Nat) (size : Nat) (hposted : p.workers t ≠ .starting) :
      ControllerMoves p (.waiting (t :: todo) newThreads size) (.waiting todo newThreads size) p
  | told (size : Nat) : ControllerMoves p (.telling [] size) (.returning size) p
  | tell (o t : Nat) (todo : List (Nat × Nat)) (size : Nat) :
      ControllerMoves p (.telling ((o, t) :: todo) size) (.telling todo size) (p.tell .threadStarted o t)
  | remove (n : Nat) (isJoin : Bool) (size : Nat) (hnone : p.stoppedThreads = []) :
      ControllerMoves p (.removing n isJoin size) (.settingJoin n isJoin size) p
  | setJoin (n : Nat) (isJoin : Bool) (size : Nat) :
      ControllerMoves p (.settingJoin n isJoin size) (.stopping n size) { p with isJoin }
  | stopThreads (n size : Nat) (hnone : p.stoppedThreads = []) :
      ControllerMoves p (.stopping n size) (.settingStop n size) p
  | setStop (n size : Nat) : ControllerMoves p (.settingStop n size) (.poisoning 0 n size) { p with threadsToStop := n }
  | poison (i n size : Nat) (hi : i < n) : ControllerMoves p (.poisoning i n size) (.poisoning (i + 1) n size)
      { p with taskQueue := p.taskQueue ++ [.poison] }
  | poisoned (i n size : Nat) (hi : n ≤ i) : ControllerMoves p (.poisoning i n size) (.taking 0 n size) p
  | take (t : Nat) (rest : List Nat) (i n size : Nat) (hi : i < n) (hstop : p.stoppedThreads = t :: rest) :
      ControllerMoves p (.taking i n size) (.joining t i n size) { p with stoppedThreads := rest }
  | taken (i n size : Nat) (hi : n ≤ i) : ControllerMoves p (.taking i n size) (.checking n size) p
  | collect (t i n size : Nat) (hexit : p.workers t = .exited) :
      ControllerMoves p (.joining t i n size) (.erasing t i n size) p
  | erase (t i n size : Nat) : ControllerMoves p (.erasing t i n size) (.taking (i + 1) n size)
      { p with threads := p.threads.eraseIdx (equalRange p.threads t).1 }
  | check (n size : Nat) (hnone : p.stoppedThreads = []) : ControllerMoves p (.checking n size) (.returning size) p
  | last (size : Nat) (hsize : p.threads.length = size) : ControllerMoves p (.returning size) .idle p
  | observed (o : Nat) : ControllerMoves p (.observing o []) .idle p
  | observe (o t : Nat) (todo : List Nat) : ControllerMoves p (.observing o (t :: todo)) (.observing o todo)
      (p.tell .threadPreviouslyStarted o t)
  | unobserved (o : Nat) : ControllerMoves p (.unobserving o []) .idle { p with observers := p.observers.erase o }
  | unobserve (o t : Nat) (todo : List Nat) : ControllerMoves p (.unobserving o (t :: todo)) (.unobserving o todo)
      (p.tell .threadNotYetStopped o t)

/-- The checks of a controller, and when they fail. -/
inductive ControllerFails (p : Pool) : Controller → Prop
  | remove (n : Nat) (isJoin : Bool) (size : Nat) (hsome : p.stoppedThreads ≠ []) : ControllerFails p (.removing n isJoin size)
  | stopThreads (n size : Nat) (hsome : p.stoppedThreads ≠ []) : ControllerFails p (.stopping n size)
  | erase (t i n size : Nat)
      (hrange : (equalRange p.threads t).1 = p.threads.length ∨ (equalRange p.threads t).1 + 1 ≠ (equalRange p.threads t).2) :
      ControllerFails p (.erasing t i n size)
  | check (n size : Nat) (hsome : p.stoppedThreads ≠ []) : ControllerFails p (.checking n size)
  | last (size : Nat) (hsize : p.threads.length ≠ size) : ControllerFails p (.returning size)

theorem check_cases (p : Pool) (k : Check) (holds : Bool) :
    holds = true ∧ p.check k holds = p ∨ holds = false ∧ p.check k holds = { p with failed := some k } := by
  cases holds with
  | true => exact Or.inl ⟨rfl, rfl⟩
  | false => exact Or.inr ⟨rfl, rfl⟩

theorem check_stoppedThreads (p : Pool) :
    p.stoppedThreads = [] ∧ p.check .stoppedThreads (p.stoppedThreads.length == 0) = p ∨
    p.stoppedThreads ≠ [] ∧
      p.check .stoppedThreads (p.stoppedThreads.length == 0) = { p with failed := some .stoppedThreads } := by
  rcases check_cases p .stoppedThreads (p.stoppedThreads.length == 0) with ⟨hnone, heq⟩ | ⟨hsome, hfailed⟩
  · exact Or.inl ⟨List.length_eq_zero_iff.mp (beq_iff_eq.mp hnone), heq⟩
  · refine Or.inr ⟨fun hnone => ?_, hfailed⟩
    simp [hnone] at hsome

/-- The pool after a failed check. The check of `std::equal_range` alone would leave another `threads_`. -/
structure Aborted (p : Pool) (c : Controller) (q : Pool) : Prop where
  fails : ControllerFails p c
  failed : q.failed ≠ none
  workers : q.workers = p.workers
  notices : q.notices = p.notices
  threads : q.threads = p.threads ∨ ∃ t i n size, c = .erasing t i n size

theorem moves_of_check (hmove : p.stoppedThreads = [] → ControllerMoves p c c' p)
    (hfails : p.stoppedThreads ≠ [] → ControllerFails p c) :
    ControllerMoves p c c' (p.check .stoppedThreads (p.stoppedThreads.length == 0)) ∨
      Aborted p c (p.check .stoppedThreads (p.stoppedThreads.length == 0)) := by
  rcases check_stoppedThreads p with ⟨hnone, heq⟩ | ⟨hsome, hfailed⟩
  · rw [heq]
    exact Or.inl (hmove hnone)
  · rw [hfailed]
    exact Or.inr ⟨hfails hsome, nofun, rfl, rfl, Or.inl rfl⟩

theorem controllerStep_cases (hs : p.controllerStep c = some (p', c')) :
    ControllerMoves p c c' p' ∨ Aborted p c p' := by
  unfold controllerStep at hs
  split at hs
  · cases hs
  · simp only [Option.map_eq_some_iff, Prod.mk.injEq] at hs
    obtain ⟨q, hq, rfl, rfl⟩ := hs
    exact Or.inl (.lock _ q hq)
  · cases hs
    exact Or.inl (.unlock _)
  · rename_i call
    cases call with
    | setNumThreads n =>
      simp only [enter, Option.some.injEq] at hs
      split_ifs at hs with hlt hgt
      · cases hs
        exact Or.inl (.grow n hlt)
      · cases hs
        exact Or.inl (.shrink n hgt)
      · cases hs
        exact Or.inl (.keep n (by omega))
    | stop =>
      cases hs
      exact Or.inl .stop
    | join =>
      cases hs
      exact Or.inl .join
    | addObserver o =>
      cases hs
      exact Or.inl (.addObserver o)
    | removeObserver o =>
      cases hs
      exact Or.inl (.removeObserver o)
  · cases hs
    exact Or.inl (.made ..)
  · cases hs
    exact Or.inl (.make ..)
  · cases hs
    exact Or.inl (.created ..)
  · cases hs
    exact Or.inl (.create ..)
  · cases hs
    exact Or.inl (.sort ..)
  · cases hs
    exact Or.inl (.waited ..)
  · split_ifs at hs with hw
    cases hs
    exact Or.inl (.wait _ _ _ _ hw)
  · cases hs
    exact Or.inl (.told _)
  · cases hs
    exact Or.inl (.tell ..)
  · rename_i n isJoin size
    rw [Option.some.injEq, Prod.mk.injEq] at hs
    obtain ⟨rfl, rfl⟩ := hs
    exact moves_of_check (.remove n isJoin size) (.remove n isJoin size)
  · cases hs
    exact Or.inl (.setJoin ..)
  · rename_i n size
    rw [Option.some.injEq, Prod.mk.injEq] at hs
    obtain ⟨rfl, rfl⟩ := hs
    exact moves_of_check (.stopThreads n size) (.stopThreads n size)
  · cases hs
    exact Or.inl (.setStop ..)
  · split_ifs at hs with hi
    · cases hs
      exact Or.inl (.poison _ _ _ hi)
    · cases hs
      exact Or.inl (.poisoned _ _ _ (Nat.le_of_not_lt hi))
  · split_ifs at hs with hi
    · split at hs
      · cases hs
      · rename_i t rest hstop
        cases hs
        exact Or.inl (.take t rest _ _ _ hi hstop)
    · cases hs
      exact Or.inl (.taken _ _ _ (Nat.le_of_not_lt hi))
  · split_ifs at hs with hexit
    cases hs
    exact Or.inl (.collect _ _ _ _ hexit)
  · rename_i t i n size
    simp only [Option.some.injEq, Prod.mk.injEq] at hs
    obtain ⟨rfl, rfl⟩ := hs
    rcases check_cases { p with threads := p.threads.eraseIdx (equalRange p.threads t).1 } .equalRange
      (decide ((equalRange p.threads t).1 ≠ p.threads.length ∧ (equalRange p.threads t).1 + 1 = (equalRange p.threads t).2))
      with ⟨-, heq⟩ | ⟨hrange, hfailed⟩
    · left
      rw [heq]
      exact .erase t i n size
    · rw [hfailed]
      refine Or.inr ⟨.erase t i n size ?_, nofun, rfl, rfl, Or.inr ⟨t, i, n, size, rfl⟩⟩
      rcases Decidable.not_and_iff_or_not.mp (of_decide_eq_false hrange) with h | h
      · exact Or.inl (Decidable.not_not.mp h)
      · exact Or.inr h
  · rename_i n size
    rw [Option.some.injEq, Prod.mk.injEq] at hs
    obtain ⟨rfl, rfl⟩ := hs
    exact moves_of_check (.check n size) (.check n size)
  · rename_i size
    rw [Option.some.injEq, Prod.mk.injEq] at hs
    obtain ⟨rfl, rfl⟩ := hs
    rcases check_cases p .threads (p.threads.length == size) with ⟨hsize, heq⟩ | ⟨hne, hfailed⟩
    · rw [heq]
      exact Or.inl (.last size (beq_iff_eq.mp hsize))
    · rw [hfailed]
      refine Or.inr ⟨.last size fun hsize => ?_, nofun, rfl, rfl, Or.inl rfl⟩
      simp [hsize] at hne
  · cases hs
    exact Or.inl (.observed _)
  · cases hs
    exact Or.inl (.observe ..)
  · cases hs
    exact Or.inl (.unobserved _)
  · cases hs
    exact Or.inl (.unobserve ..)

/-! ### `std::equal_range` -/

theorem equalRange_of_mem {l : List Nat} (hsorted : l.Pairwise (· ≤ ·)) (hnodup : l.Nodup) (hmem : t ∈ l) :
    ∃ a b, l = a ++ t :: b ∧ equalRange l t = (a.length, a.length + 1) := by
  obtain ⟨a, b, rfl⟩ := List.append_of_mem hmem
  refine ⟨a, b, rfl, ?_⟩
  obtain ⟨-, htb, hab⟩ := List.pairwise_append.mp hsorted
  obtain ⟨-, -, hne⟩ := List.nodup_append.mp hnodup
  have hlt : ∀ x ∈ a, x < t := fun x hx =>
    lt_of_le_of_ne (hab x hx t List.mem_cons_self) (hne x hx t List.mem_cons_self)
  have hgt : ∀ x ∈ b, t < x := fun x hx =>
    lt_of_le_of_ne ((List.pairwise_cons.mp htb).1 x hx) fun heq =>
      (List.nodup_cons.mp (List.nodup_append.mp hnodup).2.1).1 (heq ▸ hx)
  have hfirst : (a ++ t :: b).takeWhile (· < t) = a := by
    rw [List.takeWhile_append_of_pos fun x hx => decide_eq_true (hlt x hx), List.takeWhile_cons_of_neg (by simp),
      List.append_nil]
  have hlast : (a ++ t :: b).takeWhile (· ≤ t) = a ++ [t] := by
    rw [List.takeWhile_append_of_pos fun x hx => decide_eq_true (hlt x hx).le, List.takeWhile_cons_of_pos (by simp)]
    cases b with
    | nil => rfl
    | cons y b => rw [List.takeWhile_cons_of_neg (by simpa using hgt y List.mem_cons_self)]
  rw [equalRange, hfirst, hlast, List.length_append, List.length_singleton]

/-! ### The controller moves -/

/-- The threads are as before; the queue of tasks, the observers and the lock may change. -/
structure Same (p q : Pool) : Prop where
  workers : q.workers = p.workers
  threads : q.threads = p.threads
  stopped : q.stoppedThreads = p.stoppedThreads
  nextId : q.nextId = p.nextId
  isJoin : q.isJoin = p.isJoin
  threadsToStop : q.threadsToStop = p.threadsToStop
  failed : q.failed = p.failed

theorem Same.refl (p : Pool) : Same p p := ⟨rfl, rfl, rfl, rfl, rfl, rfl, rfl⟩

theorem Same.of_update (taskQueue : List CPUTask) (observers : List Nat) (writer : Bool) (readers : Nat)
    (added : List PoolTask) (notices : List Notice) : Same p { p with taskQueue, observers, writer, readers, added, notices } :=
  ⟨rfl, rfl, rfl, rfl, rfl, rfl, rfl⟩

theorem Same.total {q : Pool} (hq : Same p q) (w : Worker → Nat) : q.total w = p.total w := by
  unfold Pool.total
  rw [hq.workers, hq.nextId]

theorem Counts.advance (h : p.Counts c) {q : Pool} (hq : Same p q) (hquota : c'.quota = c.quota)
    (htaken : c'.taken = c.taken) (hhand : c'.hand = c.hand) (hsize : c'.SizeIs p.threads.length) : q.Counts c' := by
  obtain ⟨hcstop, hcnonneg, hcalive, hcsize⟩ := h
  refine ⟨?_, ?_, ?_, ?_⟩
  · rw [hq.total, hq.total, hq.threadsToStop, hq.stopped, hquota, htaken]
    exact hcstop
  · rw [hq.total, hq.threadsToStop]
    exact hcnonneg
  · rw [hq.total, hq.total, hq.threads, hq.stopped, hhand]
    exact hcalive
  · rw [hq.threads]
    exact hsize

theorem Modes.advance (h : p.Modes c) {q : Pool} (hq : Same p q) (hdecided : c'.decided = c.decided) : q.Modes c' := by
  refine ⟨fun t => ?_, fun size => ?_⟩
  · rw [hq.workers, hq.isJoin, hdecided]
    exact h.branch t
  · rw [hq.isJoin, hdecided]
    exact h.join size

/-! ### `threads_` and `stoppedThreads_` -/

theorem Listed.making {todo size : Nat} {newThreads : List Nat} (h : p.Listed (.making (todo + 1) newThreads size)) :
    ({ p with nextId := p.nextId + 1 } : Pool).Listed (.making todo (newThreads ++ [p.nextId]) size) := by
  obtain ⟨hunknown, hlisted, hunlisted, hgone, hstopped, hhand, herasing, hnodup, hsnodup, hsorted, hfresh, hfnodup⟩ := h
  refine ⟨fun t ht => hunknown t (Nat.le_of_succ_le ht), hlisted, hunlisted, hgone, hstopped, nofun, nofun, hnodup, hsnodup,
    hsorted, fun t ht => ?_, ?_⟩
  · rcases List.mem_append.mp ht with ht | ht
    · exact ⟨Nat.lt_succ_of_lt (hfresh t ht).1, (hfresh t ht).2⟩
    · rw [List.mem_singleton] at ht
      subst ht
      exact ⟨Nat.lt_succ_self _, hunknown _ (le_refl _)⟩
  · show (newThreads ++ [p.nextId]).Nodup
    rw [← List.concat_eq_append]
    exact List.Nodup.concat (fun hmem => Nat.lt_irrefl _ (hfresh _ hmem).1) hfnodup

theorem Listed.creating {todo newThreads : List Nat} {size : Nat} (h : p.Listed (.creating (t :: todo) newThreads size)) :
    ({ p.setWorker t .starting with threads := p.threads ++ [t] } : Pool).Listed (.creating todo newThreads size) := by
  obtain ⟨hunknown, hlisted, hunlisted, hgone, hstopped, hhand, herasing, hnodup, hsnodup, hsorted, hfresh, hfnodup⟩ := h
  obtain ⟨hlt, habs⟩ := hfresh t List.mem_cons_self
  have hnot : t ∉ p.threads := fun hmem => hlisted t hmem (by rw [habs]; rfl)
  have hother : ∀ x, x ≠ t → Function.update p.workers t .starting x = p.workers x := fun x hx =>
    Function.update_of_ne hx ..
  refine ⟨fun x hx => ?_, fun x hx => ?_, fun x hx => ?_, fun x hx => ?_, fun x hx => ?_, nofun, nofun, ?_, hsnodup, nofun,
    fun x hx => ?_, (List.nodup_cons.mp hfnodup).2⟩
  · show Function.update p.workers t .starting x = .absent
    rw [hother x (by rintro rfl; exact absurd hx (Nat.not_le.mpr hlt))]
    exact hunknown x hx
  · show (Function.update p.workers t .starting x).stage ≠ .absent
    by_cases hxt : x = t
    · subst hxt
      simp [Worker.stage]
    · rw [hother x hxt]
      exact hlisted x (by simpa [hxt] using hx)
  · show (Function.update p.workers t .starting x).stage = .absent ∨ (Function.update p.workers t .starting x).stage = .exited
    have hx' : x ∉ p.threads ∧ x ≠ t := by simpa using hx
    rw [hother x hx'.2]
    exact hunlisted x hx'.1
  · show (Function.update p.workers t .starting x).stage = .returning ∨ (Function.update p.workers t .starting x).stage = .exited ↔ _
    by_cases hxt : x = t
    · subst hxt
      have hns : x ∉ p.stoppedThreads := fun hs => hnot (hstopped x hs)
      simpa [Worker.stage, Controller.hand, setWorker] using hns
    · rw [hother x hxt]
      exact hgone x (by simpa [hxt] using hx)
  · exact List.mem_append_left _ (hstopped x hx)
  · show (p.threads ++ [t]).Nodup
    rw [← List.concat_eq_append]
    exact List.Nodup.concat hnot hnodup
  · obtain ⟨hx₁, hx₂⟩ := hfresh x (List.mem_cons_of_mem _ hx)
    refine ⟨hx₁, ?_⟩
    show Function.update p.workers t .starting x = .absent
    rw [hother x (by rintro rfl; exact (List.nodup_cons.mp hfnodup).1 hx)]
    exact hx₂

theorem Listed.sorting {newThreads : List Nat} {size : Nat} (h : p.Listed (.sorting newThreads size)) :
    ({ p with threads := p.threads.insertionSort (· ≤ ·) } : Pool).Listed (.waiting newThreads newThreads size) := by
  have hperm : (p.threads.insertionSort (· ≤ ·)).Perm p.threads := List.perm_insertionSort _ _
  have hmem : ∀ t, t ∈ p.threads.insertionSort (· ≤ ·) ↔ t ∈ p.threads := fun t => hperm.mem_iff
  obtain ⟨hunknown, hlisted, hunlisted, hgone, hstopped, hhand, herasing, hnodup, hsnodup, hsorted, hfresh, hfnodup⟩ := h
  refine ⟨hunknown, fun t ht => ?_, fun t ht => ?_, fun t ht => ?_, fun t ht => ?_, nofun, nofun, hperm.nodup_iff.mpr hnodup,
    hsnodup, fun _ => ?_, nofun, List.nodup_nil⟩
  · exact hlisted t ((hmem t).mp ht)
  · exact hunlisted t fun hin => ht ((hmem t).mpr hin)
  · exact hgone t ((hmem t).mp ht)
  · exact (hmem t).mpr (hstopped t ht)
  · exact List.pairwise_insertionSort (· ≤ ·) p.threads

theorem Listed.taking {i n size : Nat} {rest : List Nat} (h : p.Listed (.taking i n size)) (hstop : p.stoppedThreads = t :: rest) :
    ({ p with stoppedThreads := rest } : Pool).Listed (.joining t i n size) := by
  obtain ⟨hunknown, hlisted, hunlisted, hgone, hstopped, hhand, herasing, hnodup, hsnodup, hsorted, hfresh, hfnodup⟩ := h
  rw [hstop] at hgone hstopped hsnodup
  refine ⟨hunknown, hlisted, hunlisted, fun x hx => ?_, fun x hx => hstopped x (List.mem_cons_of_mem _ hx), fun x hx => ?_,
    nofun, hnodup, (List.nodup_cons.mp hsnodup).2, hsorted, nofun, List.nodup_nil⟩
  · show (p.workers x).stage = .returning ∨ (p.workers x).stage = .exited ↔ x ∈ rest ∨ some t = some x
    rw [hgone x hx]
    simp only [List.mem_cons, Controller.hand, reduceCtorEq, or_false, Option.some.injEq]
    constructor
    · rintro (rfl | hr)
      · exact Or.inr rfl
      · exact Or.inl hr
    · rintro (hr | rfl)
      · exact Or.inr hr
      · exact Or.inl rfl
  · simp only [Controller.hand, Option.some.injEq] at hx
    subst hx
    exact ⟨hstopped t List.mem_cons_self, (List.nodup_cons.mp hsnodup).1⟩

theorem Listed.found {i n size : Nat} (h : p.Listed (.erasing t i n size)) :
    ∃ a b, p.threads = a ++ t :: b ∧ equalRange p.threads t = (a.length, a.length + 1) ∧
      p.threads.eraseIdx (equalRange p.threads t).1 = a ++ b := by
  obtain ⟨a, b, hab, hrange⟩ := equalRange_of_mem (h.sorted rfl) h.nodup (h.hand t rfl).1
  refine ⟨a, b, hab, hrange, ?_⟩
  rw [hrange, hab, List.eraseIdx_append_of_length_le (le_refl _), Nat.sub_self, List.eraseIdx_cons_zero]

theorem Listed.not_out_of_range {i n size : Nat} (h : p.Listed (.erasing t i n size)) :
    ¬ ((equalRange p.threads t).1 = p.threads.length ∨ (equalRange p.threads t).1 + 1 ≠ (equalRange p.threads t).2) := by
  obtain ⟨a, b, hab, hrange, -⟩ := h.found
  have hlength : p.threads.length = a.length + (b.length + 1) := by rw [hab, List.length_append, List.length_cons]
  rw [hrange]
  omega

theorem Listed.mem_erased {i n size : Nat} (h : p.Listed (.erasing t i n size)) (x : Nat) :
    x ∈ p.threads.eraseIdx (equalRange p.threads t).1 ↔ x ∈ p.threads ∧ x ≠ t := by
  obtain ⟨a, b, hab, -, herase⟩ := h.found
  have hnodup := h.nodup
  have hnot : t ∉ a ++ b := by
    rw [hab] at hnodup
    exact List.nodup_middle.mp hnodup |> List.nodup_cons.mp |>.1
  rw [herase, hab]
  constructor
  · intro hx
    refine ⟨?_, fun heq => hnot (heq ▸ hx)⟩
    rcases List.mem_append.mp hx with hx | hx
    · exact List.mem_append_left _ hx
    · exact List.mem_append_right _ (List.mem_cons_of_mem _ hx)
  · rintro ⟨hx, hne⟩
    rcases List.mem_append.mp hx with hx | hx
    · exact List.mem_append_left _ hx
    · exact List.mem_append_right _ ((List.mem_cons.mp hx).resolve_left hne)

theorem Listed.erased {i n size : Nat} (h : p.Listed (.erasing t i n size)) :
    ({ p with threads := p.threads.eraseIdx (equalRange p.threads t).1 } : Pool).Listed (.taking (i + 1) n size) := by
  have hmem := h.mem_erased
  obtain ⟨hunknown, hlisted, hunlisted, hgone, hstopped, hhand, herasing, hnodup, hsnodup, hsorted, hfresh, hfnodup⟩ := h
  refine ⟨hunknown, fun x hx => ?_, fun x hx => ?_, fun x hx => ?_, fun x hx => ?_, nofun, nofun,
    hnodup.sublist (List.eraseIdx_sublist ..), hsnodup, fun _ => (hsorted rfl).sublist (List.eraseIdx_sublist ..), nofun,
    List.nodup_nil⟩
  · exact hlisted x ((hmem x).mp hx).1
  · by_cases hxt : x = t
    · subst hxt
      right
      show (p.workers x).stage = .exited
      rw [herasing x i n size rfl]
      rfl
    · exact hunlisted x fun hin => hx ((hmem x).mpr ⟨hin, hxt⟩)
  · obtain ⟨hin, hne⟩ := (hmem x).mp hx
    show (p.workers x).stage = .returning ∨ (p.workers x).stage = .exited ↔ x ∈ p.stoppedThreads ∨ none = some x
    rw [hgone x hin]
    simp [Controller.hand, Ne.symm hne]
  · refine (hmem x).mpr ⟨hstopped x hx, ?_⟩
    rintro rfl
    exact (hhand x rfl).2 hx

theorem Listed.goOn (h : p.Listed c) {q : Pool} (hworkers : q.workers = p.workers) (hthreads : q.threads = p.threads)
    (hstopped : q.stoppedThreads = p.stoppedThreads) (hnext : q.nextId = p.nextId) (hhand : c'.hand = c.hand)
    (herasing : ∀ t i n size, c' = .erasing t i n size → p.workers t = .exited)
    (hsorted : c'.unsorted = false → c.unsorted = false) (hfresh : c'.fresh = c.fresh) : q.Listed c' := by
  refine ⟨?_, ?_, ?_, ?_, ?_, ?_, ?_, ?_, ?_, ?_, ?_, ?_⟩
  · rw [hworkers, hnext]
    exact h.unknown
  · rw [hworkers, hthreads]
    exact h.listed
  · rw [hworkers, hthreads]
    exact h.unlisted
  · rw [hworkers, hthreads, hstopped, hhand]
    exact h.gone
  · rw [hthreads, hstopped]
    exact h.stopped
  · rw [hthreads, hstopped, hhand]
    exact h.hand
  · rw [hworkers]
    exact herasing
  · rw [hthreads]
    exact h.nodup
  · rw [hstopped]
    exact h.stoppedNodup
  · rw [hthreads]
    exact fun hu => h.sorted (hsorted hu)
  · rw [hworkers, hnext, hfresh]
    exact h.fresh
  · rw [hfresh]
    exact h.freshNodup

theorem Listed.joined {i n size : Nat} (h : p.Listed (.joining t i n size)) (hexit : p.workers t = .exited) :
    p.Listed (.erasing t i n size) := by
  refine h.goOn rfl rfl rfl rfl rfl (fun t' i' n' size' hc => ?_) id rfl
  cases hc
  exact hexit

theorem Listed.controllerMoves (h : p.Listed c) (hs : ControllerMoves p c c' p') : p'.Listed c' := by
  cases hs with
  | lock call q hq =>
    cases call <;> simp only [Pool.lock] at hq <;> split_ifs at hq <;> cases hq <;>
      exact h.goOn rfl rfl rfl rfl rfl nofun id rfl
  | unlock call => cases call <;> exact h.goOn rfl rfl rfl rfl rfl nofun id rfl
  | make todo newThreads size => exact h.making
  | made newThreads size => exact h.goOn rfl rfl rfl rfl rfl nofun (fun _ => rfl) rfl
  | create t todo newThreads size => exact h.creating
  | sort newThreads size => exact h.sorting
  | take t rest i n size hi hstop => exact h.taking hstop
  | collect t i n size hexit => exact h.joined hexit
  | erase t i n size => exact h.erased
  | _ => exact h.goOn rfl rfl rfl rfl rfl nofun id rfl

/-! ### The whole invariant -/

theorem Sound.advance (h : p.Sound c) {q : Pool} (hq : Same p q) (hlock : (q.writer, q.readers) = c'.holding)
    (hview : c'.view = c.view) (hsize : c'.SizeIs p.threads.length)
    (herasing : ∀ t i n size, c' ≠ .erasing t i n size) : q.Sound c' := by
  simp only [Controller.view, Prod.mk.injEq] at hview
  obtain ⟨hquota, htaken, hhand, hdecided, hfresh, hsorted⟩ := hview
  refine ⟨h.counts.advance hq hquota htaken hhand hsize, h.modes.advance hq hdecided, ?_, hlock, hq.failed ▸ h.failed⟩
  refine h.listed.goOn hq.workers hq.threads hq.stopped hq.nextId hhand
    (fun t i n size hc => absurd hc (herasing t i n size)) (fun hu => ?_) hfresh
  rw [← hsorted]
  exact hu

theorem Sound.same (h : p.Sound c) {q : Pool} (hq : Same p q) (hlock : (q.writer, q.readers) = (p.writer, p.readers)) :
    q.Sound c :=
  ⟨h.counts.advance hq rfl rfl rfl h.counts.size, h.modes.advance hq rfl,
    h.listed.goOn hq.workers hq.threads hq.stopped hq.nextId rfl h.listed.erasing id rfl, hlock.trans h.lock,
    hq.failed.trans h.failed⟩

theorem Sound.calm (h : p.Sound c) (hquota : c.quota ≤ c.taken) :
    p.total Worker.departing = 0 ∧ p.stoppedThreads = [] ∧ p.threadsToStop + p.total Worker.restores = 0 := by
  obtain ⟨hcstop, hcnonneg, -, -⟩ := h.counts
  refine ⟨by omega, List.length_eq_zero_iff.mp (by omega), by omega⟩

theorem Sound.making {todo size : Nat} {newThreads : List Nat} (h : p.Sound (.making (todo + 1) newThreads size)) :
    ({ p with nextId := p.nextId + 1 } : Pool).Sound (.making todo (newThreads ++ [p.nextId]) size) := by
  have htotal : ∀ w : Worker → Nat, w .absent = 0 → ({ p with nextId := p.nextId + 1 } : Pool).total w = p.total w := by
    intro w hw
    show tally (p.nextId + 1) p.workers w = p.total w
    rw [tally_succ, h.listed.unknown p.nextId (le_refl _), hw]
    rfl
  obtain ⟨hcstop, hcnonneg, hcalive, hcsize⟩ := h.counts
  refine ⟨⟨?_, ?_, ?_, ?_⟩, ⟨h.modes.branch, h.modes.join⟩, h.listed.making, h.lock, h.failed⟩
  · rw [htotal _ rfl, htotal _ rfl]
    exact hcstop
  · rw [htotal _ rfl]
    exact hcnonneg
  · rw [htotal _ rfl, htotal _ rfl]
    exact hcalive
  · simp only [Controller.SizeIs, List.length_append, List.length_singleton] at hcsize ⊢
    omega

theorem Sound.creating {todo newThreads : List Nat} {size : Nat} (h : p.Sound (.creating (t :: todo) newThreads size)) :
    ({ p.setWorker t .starting with threads := p.threads ++ [t] } : Pool).Sound (.creating todo newThreads size) := by
  obtain ⟨hlt, habs⟩ := h.listed.fresh t List.mem_cons_self
  have htotal : ∀ w : Worker → Nat, w .absent = 0 →
      ({ p.setWorker t .starting with threads := p.threads ++ [t] } : Pool).total w = p.total w + w .starting := by
    intro w hw
    have := tally_update (f := p.workers) (w := w) hlt .starting
    rw [habs, hw] at this
    exact this
  have hlength : (p.threads ++ [t]).length = p.threads.length + 1 := List.length_append
  obtain ⟨hcstop, hcnonneg, hcalive, hcsize⟩ := h.counts
  refine ⟨⟨?_, ?_, ?_, ?_⟩, ⟨fun x hx => ?_, h.modes.join⟩, h.listed.creating, h.lock, h.failed⟩
  · rw [htotal _ rfl, htotal _ rfl]
    exact hcstop
  · rw [htotal _ rfl]
    exact hcnonneg
  · rw [htotal _ rfl, htotal _ rfl]
    show (p.threads ++ [t]).length = p.total Worker.alive + 1 + (p.total Worker.departing + 0) + p.stoppedThreads.length + 0
    rw [hlength, hcalive]
    simp only [Controller.hand, Option.toList_none, List.length_nil]
    omega
  · show (p.threads ++ [t]).length + todo.length = size
    simp only [Controller.SizeIs, List.length_cons] at hcsize
    omega
  · by_cases hxt : x = t
    · subst hxt
      simp [setWorker, Worker.InBranch] at hx
    · have hx' : (p.workers x).InBranch ∨ p.isJoin = false ∧ p.workers x = .testingJoin := by
        simpa only [setWorker, Function.update_of_ne hxt] using hx
      exact h.modes.branch x hx'

theorem Sound.sorting {newThreads : List Nat} {size : Nat} (h : p.Sound (.sorting newThreads size)) :
    ({ p with threads := p.threads.insertionSort (· ≤ ·) } : Pool).Sound (.waiting newThreads newThreads size) := by
  have hlength : (p.threads.insertionSort (· ≤ ·)).length = p.threads.length := List.length_insertionSort ..
  obtain ⟨hcstop, hcnonneg, hcalive, hcsize⟩ := h.counts
  refine ⟨⟨hcstop, hcnonneg, ?_, ?_⟩, ⟨h.modes.branch, h.modes.join⟩, h.listed.sorting, h.lock, h.failed⟩
  · rw [← hlength] at hcalive
    exact hcalive
  · rw [← hlength] at hcsize
    exact hcsize

theorem Sound.settingJoin {n size : Nat} {isJoin : Bool} (h : p.Sound (.settingJoin n isJoin size)) :
    ({ p with isJoin } : Pool).Sound (.stopping n size) := by
  obtain ⟨hcstop, hcnonneg, hcalive, hcsize⟩ := h.counts
  refine ⟨⟨hcstop, hcnonneg, hcalive, hcsize.1⟩, ⟨fun t ht => ?_, fun size' hd hj => ?_⟩,
    h.listed.goOn rfl rfl rfl rfl rfl nofun id rfl, h.lock, h.failed⟩
  · rcases ht with ht | ht
    · -- nobody was in the branch before the call
      have := (h.modes.branch t (Or.inl ht)).2
      cases this
    · refine ⟨ht.1, ?_⟩
      rw [Controller.decided, hcsize.2 ht.1]
  · cases hd
    exact hcsize.2 hj

theorem Sound.settingStop {n size : Nat} (h : p.Sound (.settingStop n size)) (hsettled : ∀ t, p.workers t ≠ .restoring) :
    ({ p with threadsToStop := n } : Pool).Sound (.poisoning 0 n size) := by
  obtain ⟨hdeparting, hnone, -⟩ := h.calm (le_refl _)
  have hrestores : p.total Worker.restores = 0 := Lib.tally_eq_zero fun t _ => if_neg (hsettled t)
  obtain ⟨hcstop, hcnonneg, hcalive, hcsize⟩ := h.counts
  refine ⟨⟨?_, ?_, hcalive, ⟨hcsize, Nat.zero_le n⟩⟩, ⟨h.modes.branch, h.modes.join⟩,
    h.listed.goOn rfl rfl rfl rfl rfl nofun id rfl, h.lock, h.failed⟩
  · show (n : Int) + p.total Worker.restores + p.total Worker.departing + p.stoppedThreads.length + (0 : Nat) = n
    rw [hrestores, hdeparting, hnone]
    simp
  · show 0 ≤ (n : Int) + p.total Worker.restores
    omega

theorem Sound.taking {i n size : Nat} {rest : List Nat} (h : p.Sound (.taking i n size)) (hi : i < n)
    (hstop : p.stoppedThreads = t :: rest) :
    ({ p with stoppedThreads := rest } : Pool).Sound (.joining t i n size) := by
  obtain ⟨hcstop, hcnonneg, hcalive, hcsize⟩ := h.counts
  rw [hstop] at hcstop hcalive
  refine ⟨⟨?_, hcnonneg, ?_, ⟨hcsize.1, hi⟩⟩, ⟨h.modes.branch, h.modes.join⟩, h.listed.taking hstop, h.lock, h.failed⟩
  · simp only [Controller.taken, Controller.quota, List.length_cons] at hcstop ⊢
    push_cast at hcstop ⊢
    show p.threadsToStop + p.total Worker.restores + p.total Worker.departing + rest.length + (i + 1) = n
    omega
  · simp only [Controller.hand, List.length_cons, Option.toList_none, List.length_nil, Option.toList_some] at hcalive ⊢
    show p.threads.length = p.total Worker.alive + p.total Worker.departing + rest.length + 1
    omega

theorem Sound.erasing {i n size : Nat} (h : p.Sound (.erasing t i n size)) :
    ({ p with threads := p.threads.eraseIdx (equalRange p.threads t).1 } : Pool).Sound (.taking (i + 1) n size) := by
  obtain ⟨hcstop, hcnonneg, hcalive, hcsize⟩ := h.counts
  obtain ⟨a, b, hab, -, herase⟩ := h.listed.found
  have hlength : (p.threads.eraseIdx (equalRange p.threads t).1).length + 1 = p.threads.length := by
    rw [herase, hab, List.length_append, List.length_append, List.length_cons]
    omega
  refine ⟨⟨hcstop, hcnonneg, ?_, ?_⟩, ⟨h.modes.branch, h.modes.join⟩, h.listed.erased, h.lock, h.failed⟩
  · simp only [Controller.hand, Option.toList_some, List.length_singleton, Option.toList_none, List.length_nil] at hcalive ⊢
    show (p.threads.eraseIdx (equalRange p.threads t).1).length =
      p.total Worker.alive + p.total Worker.departing + p.stoppedThreads.length + 0
    omega
  · simp only [Controller.SizeIs] at hcsize ⊢
    omega

theorem Sound.checking {n size : Nat} (h : p.Sound (.checking n size)) : p.Sound (.returning size) := by
  obtain ⟨hdeparting, hnone, hzero⟩ := h.calm (le_refl _)
  obtain ⟨hcstop, hcnonneg, hcalive, hcsize⟩ := h.counts
  refine ⟨⟨?_, hcnonneg, hcalive, hcsize⟩, ⟨fun t ht => ?_, nofun⟩, h.listed.goOn rfl rfl rfl rfl rfl nofun id rfl, h.lock,
    h.failed⟩
  · show p.threadsToStop + p.total Worker.restores + p.total Worker.departing + p.stoppedThreads.length + (0 : Nat) = (0 : Nat)
    rw [hdeparting, hnone]
    simp only [List.length_nil]
    omega
  · -- the pool was stopped, so no thread is left, and this one is alive
    exfalso
    have hzero : size = 0 := by
      have := (h.modes.branch t ht).2
      simpa [Controller.decided] using this
    have halive : (p.workers t).stage = .alive := by
      rcases ht with (ht | ht) | ht
      · rw [ht]
        rfl
      · rw [ht]
        rfl
      · rw [ht.2]
        rfl
    have hlt : t < p.nextId := h.listed.lt_nextId fun habs => by
      rw [habs] at halive
      cases halive
    have hle : (p.workers t).alive ≤ p.total Worker.alive := le_tally hlt
    rw [Worker.alive, if_pos halive] at hle
    simp only [Controller.SizeIs] at hcsize
    omega

/-- The controller assigns `threadsToStop_` only when no worker is about to put its one back. -/
def Settled (p : Pool) : Controller → Prop
  | .settingStop _ _ => ∀ t < p.nextId, p.workers t ≠ .restoring
  | _ => True

instance : ∀ c, Decidable (p.Settled c)
  | .settingStop _ _ => inferInstanceAs (Decidable (∀ t < p.nextId, _))
  | .idle => isTrue trivial
  | .locking _ => isTrue trivial
  | .unlocking _ => isTrue trivial
  | .entering _ => isTrue trivial
  | .making _ _ _ => isTrue trivial
  | .creating _ _ _ => isTrue trivial
  | .sorting _ _ => isTrue trivial
  | .waiting _ _ _ => isTrue trivial
  | .telling _ _ => isTrue trivial
  | .removing _ _ _ => isTrue trivial
  | .settingJoin _ _ _ => isTrue trivial
  | .stopping _ _ => isTrue trivial
  | .poisoning _ _ _ => isTrue trivial
  | .taking _ _ _ => isTrue trivial
  | .joining _ _ _ _ => isTrue trivial
  | .erasing _ _ _ _ => isTrue trivial
  | .checking _ _ => isTrue trivial
  | .returning _ => isTrue trivial
  | .observing _ _ => isTrue trivial
  | .unobserving _ _ => isTrue trivial

theorem Sound.not_fails (h : p.Sound c) : ¬ ControllerFails p c := by
  intro hfail
  cases hfail with
  | remove n isJoin size hsome => exact hsome (h.calm (le_refl _)).2.1
  | stopThreads n size hsome => exact hsome (h.calm (le_refl _)).2.1
  | erase t i n size hrange => exact h.listed.not_out_of_range hrange
  | check n size hsome => exact hsome (h.calm (le_refl _)).2.1
  | last size hsize => exact hsize h.counts.size

theorem lock_cases {q : Pool} {call : Call} (hfree : (p.writer, p.readers) = (false, 0)) (hq : p.lock call = some q) :
    Same p q ∧ (q.writer, q.readers) = (Controller.unlocking call).holding := by
  rw [Prod.mk.injEq] at hfree
  cases call with
  | addObserver o =>
    simp only [Pool.lock, hfree, Bool.false_eq_true, if_false, Option.some.injEq] at hq
    subst hq
    exact ⟨Same.of_update .., rfl⟩
  | removeObserver o =>
    simp only [Pool.lock, hfree, Bool.false_eq_true, if_false, Option.some.injEq] at hq
    subst hq
    exact ⟨Same.of_update .., rfl⟩
  | _ =>
    simp only [Pool.lock, hfree, Bool.false_eq_true, ne_eq, not_true_eq_false, or_self, if_false, Option.some.injEq] at hq
    subst hq
    exact ⟨Same.of_update .., by simp [Controller.holding]⟩

theorem unlock_cases {call : Call} (hheld : (p.writer, p.readers) = (Controller.unlocking call).holding) :
    Same p (p.unlock call) ∧ ((p.unlock call).writer, (p.unlock call).readers) = (false, 0) := by
  cases call <;> simp only [Controller.holding, Prod.mk.injEq] at hheld <;>
    exact ⟨Same.of_update .., by simp [unlock, hheld]⟩

theorem Sound.moves_of_step (h : p.Sound c) (hs : p.controllerStep c = some (p', c')) : ControllerMoves p c c' p' := by
  rcases controllerStep_cases hs with hmove | habort
  · exact hmove
  · exact absurd habort.fails h.not_fails

/-- **A step of the controller** keeps the invariant. -/
theorem Sound.controllerMoves (h : p.Sound c) (hsettled : p.Settled c) (hs : ControllerMoves p c c' p') : p'.Sound c' := by
  have hlock := h.lock
  have hsize := h.counts.size
  cases hs with
  | lock call q hq =>
    obtain ⟨hsame, hheld⟩ := lock_cases hlock hq
    exact h.advance hsame hheld rfl trivial (by simp)
  | unlock call =>
    obtain ⟨hsame, hfree⟩ := unlock_cases hlock
    exact h.advance hsame hfree rfl trivial (by simp)
  | grow n hlt =>
    refine h.advance (Same.refl p) hlock rfl ?_ (by simp)
    simp only [Controller.SizeIs, List.length_nil]
    omega
  | shrink n hgt => exact h.advance (Same.refl p) hlock rfl ⟨by omega, by simp⟩ (by simp)
  | keep n heq => exact h.advance (Same.refl p) hlock rfl heq (by simp)
  | stop => exact h.advance (Same.refl p) hlock rfl ⟨by omega, fun _ => rfl⟩ (by simp)
  | join => exact h.advance (Same.refl p) hlock rfl ⟨by omega, by simp⟩ (by simp)
  | made newThreads size =>
    refine ⟨h.counts.advance (Same.refl p) rfl rfl rfl hsize, h.modes.advance (Same.refl p) rfl, ?_, hlock, h.failed⟩
    exact h.listed.goOn rfl rfl rfl rfl rfl (by simp) (fun _ => rfl) rfl
  | make todo newThreads size => exact h.making
  | create t todo newThreads size => exact h.creating
  | sort newThreads size => exact h.sorting
  | setJoin n isJoin size => exact h.settingJoin
  | setStop n size =>
    refine h.settingStop fun t ht => ?_
    have hlt : t < p.nextId := h.listed.lt_nextId (by rw [ht]; decide)
    exact hsettled t hlt ht
  | poison i n size hi => exact h.advance (Same.of_update ..) hlock rfl ⟨hsize.1, hi⟩ (by simp)
  | poisoned i n size hi => exact h.advance (Same.refl p) hlock rfl ⟨hsize.1, Nat.zero_le n⟩ (by simp)
  | take t rest i n size hi hstop => exact h.taking hi hstop
  | taken i n size hi =>
    simp only [Controller.SizeIs] at hsize
    obtain rfl : i = n := by omega
    refine h.advance (Same.refl p) hlock rfl ?_ (by simp)
    simp only [Controller.SizeIs]
    omega
  | collect t i n size hexit =>
    refine ⟨h.counts.advance (Same.refl p) rfl rfl rfl hsize, h.modes.advance (Same.refl p) rfl, ?_, hlock, h.failed⟩
    exact h.listed.joined hexit
  | erase t i n size => exact h.erasing
  | check n size hnone => exact h.checking
  | _ =>
    -- the controller goes on; at most the observers and what they were told change
    exact h.advance (Same.of_update ..) hlock rfl (by first | exact hsize | trivial) (by simp)

/-- What a step of the controller does to the tasks, to the workers and to the counter: it may set the counter,
add one poison or create one thread, and nothing else. -/
structure Frame (p : Pool) (c : Controller) (p' : Pool) (c' : Controller) : Prop where
  done : p'.done = p.done
  added : p'.added = p.added
  workers : p'.workers = p.workers ∨ ∃ t todo newThreads size, c = .creating (t :: todo) newThreads size ∧
    p'.workers = Function.update p.workers t .starting
  nextId : p'.nextId = p.nextId ∨ p'.nextId = p.nextId + 1 ∧ p'.workers = p.workers
  queue : p'.taskQueue = p.taskQueue ∧ p'.threadsToStop = p.threadsToStop ∧ c'.toPoison = c.toPoison ∧ c'.quota ≤ c.quota ∨
    (∃ n size, c = .settingStop n size ∧ c' = .poisoning 0 n size ∧ p'.taskQueue = p.taskQueue ∧ p'.threadsToStop = n) ∨
    ∃ i n size, i < n ∧ c = .poisoning i n size ∧ c' = .poisoning (i + 1) n size ∧
      p'.taskQueue = p.taskQueue ++ [.poison] ∧ p'.threadsToStop = p.threadsToStop

theorem ControllerMoves.frame (hs : ControllerMoves p c c' p') : Frame p c p' c' := by
  cases hs with
  | lock call q hq =>
    cases call <;> simp only [Pool.lock] at hq <;> split_ifs at hq <;> cases hq <;>
      exact ⟨rfl, rfl, Or.inl rfl, Or.inl rfl, Or.inl ⟨rfl, rfl, rfl, Nat.le_refl _⟩⟩
  | unlock call => cases call <;> exact ⟨rfl, rfl, Or.inl rfl, Or.inl rfl, Or.inl ⟨rfl, rfl, rfl, Nat.le_refl _⟩⟩
  | make todo newThreads size =>
    exact ⟨rfl, rfl, Or.inl rfl, Or.inr ⟨rfl, rfl⟩, Or.inl ⟨rfl, rfl, rfl, Nat.le_refl _⟩⟩
  | create t todo newThreads size =>
    exact ⟨rfl, rfl, Or.inr ⟨t, todo, newThreads, size, rfl, rfl⟩, Or.inl rfl, Or.inl ⟨rfl, rfl, rfl, Nat.le_refl _⟩⟩
  | setStop n size => exact ⟨rfl, rfl, Or.inl rfl, Or.inl rfl, Or.inr (Or.inl ⟨n, size, rfl, rfl, rfl, rfl⟩)⟩
  | poison i n size hi =>
    exact ⟨rfl, rfl, Or.inl rfl, Or.inl rfl, Or.inr (Or.inr ⟨i, n, size, hi, rfl, rfl, rfl, rfl⟩)⟩
  | poisoned i n size hi =>
    refine ⟨rfl, rfl, Or.inl rfl, Or.inl rfl, Or.inl ⟨rfl, rfl, ?_, Nat.le_refl _⟩⟩
    simp only [Controller.toPoison]
    omega
  | check n size hnone => exact ⟨rfl, rfl, Or.inl rfl, Or.inl rfl, Or.inl ⟨rfl, rfl, rfl, Nat.zero_le _⟩⟩
  | _ => exact ⟨rfl, rfl, Or.inl rfl, Or.inl rfl, Or.inl ⟨rfl, rfl, rfl, Nat.le_refl _⟩⟩

theorem ControllerMoves.failed (hs : ControllerMoves p c c' p') : p'.failed = p.failed := by
  cases hs with
  | lock call q hq => cases call <;> simp only [Pool.lock] at hq <;> split_ifs at hq <;> cases hq <;> rfl
  | unlock call => cases call <;> rfl
  | _ => rfl

theorem Sound.total_frame (h : p.Sound c) (hf : Frame p c p' c') (w : Worker → Nat) (habs : w .absent = 0)
    (hstart : w .starting = 0) : p'.total w = p.total w := by
  unfold total
  rcases hf.nextId with hnext | ⟨hnext, hworkers⟩
  · rw [hnext]
    rcases hf.workers with hworkers | ⟨t, todo, newThreads, size, rfl, hworkers⟩
    · rw [hworkers]
    · obtain ⟨hlt, hw⟩ := h.listed.fresh t List.mem_cons_self
      have hupdate := tally_update (f := p.workers) (w := w) hlt .starting
      rw [hw, habs, hstart] at hupdate
      rw [hworkers]
      exact hupdate
  · rw [hnext, hworkers, tally_succ, h.listed.unknown p.nextId (le_refl _), habs]
    rfl

/-! ### Poison -/

/-- The poison tasks in the queue. -/
def poisons (p : Pool) : Nat := p.taskQueue.count .poison

/-- The poison of a call, wherever it is, is what the counter still asks for. -/
structure Poisoned (p : Pool) (c : Controller) : Prop where
  count : (c.toPoison + p.poisons + p.total Worker.holdsPoison : Int) = p.threadsToStop + p.total Worker.restores
  steady : 0 < c.toPoison + p.poisons + p.total Worker.holdsPoison → p.total Worker.restores = 0

theorem poisoned_initial (isJoin : Bool) (numThreads : Nat) :
    (initial isJoin).Poisoned (.making numThreads [] numThreads) where
  count := by simp [initial, total, tally, Controller.toPoison, poisons]
  steady := by simp [initial, total, tally]

theorem Poisoned.move (h : p.Poisoned c) {w v : Worker} (hw : p.workers t = w) (hlt : t < p.nextId) {q : Pool}
    (hq : Moves t v p q)
    (hcount : (q.poisons + v.holdsPoison : Int) + p.threadsToStop + w.restores =
      p.poisons + w.holdsPoison + q.threadsToStop + v.restores)
    (hle : q.poisons + v.holdsPoison ≤ p.poisons + w.holdsPoison)
    (hsteady : v.restores ≤ w.restores ∨ p.threadsToStop ≤ 0) : q.Poisoned c := by
  have hrestores := total_move (w := Worker.restores) hq hlt
  have hholds := total_move (w := Worker.holdsPoison) hq hlt
  rw [hw] at hrestores hholds
  obtain ⟨hpcount, hpsteady⟩ := h
  have hone : v.restores ≤ 1 := by
    unfold Worker.restores
    split <;> omega
  refine ⟨by omega, fun hpos => ?_⟩
  have hzero := hpsteady (by omega)
  rcases hsteady with hs | hs
  · omega
  · omega

/-- The worker leaves after a task, without poison. -/
def LeavesEarly (p : Pool) (t : Nat) : Prop := p.workers t = .leaving ∧ 0 < p.threadsToStop

instance : Decidable (p.LeavesEarly t) := inferInstanceAs (Decidable (_ ∧ _))

theorem Poisoned.pos (h : p.Poisoned c) (hlt : t < p.nextId) (hw : p.workers t = .poisoned) : 0 < p.threadsToStop := by
  have hle : (p.workers t).holdsPoison ≤ p.total Worker.holdsPoison := le_tally hlt
  rw [hw, Worker.holdsPoison, if_pos rfl] at hle
  have hzero := h.steady (by omega)
  have hcount := h.count
  omega

theorem Poisoned.workerMoves (h : p.Poisoned c) (hsound : p.Sound c) {w v : Worker} (hw : p.workers t = w)
    (hstay : ¬ p.LeavesEarly t) (hs : WorkerMoves p t now w v p') : p'.Poisoned c := by
  have hq := hs.moves
  have hlt := hsound.listed.lt_of_moves hw hs
  cases hs with
  | takePoison rest hqueue =>
    have hpoisons : p.poisons = rest.count .poison + 1 := by rw [poisons, hqueue, List.count_cons_self]
    refine h.move hw hlt hq ?_ ?_ (Or.inl (le_refl _))
    · rw [hpoisons]
      show ((rest.count .poison : Nat) + 1 : Int) + p.threadsToStop + 0 = ((rest.count .poison + 1 : Nat) : Int) + 0 + p.threadsToStop + 0
      omega
    · rw [hpoisons]
      exact le_refl _
  | takeTask id task rest hqueue =>
    have hpoisons : p.poisons = rest.count .poison := by rw [poisons, hqueue, List.count_cons_of_ne (by simp)]
    refine h.move hw hlt hq ?_ ?_ (Or.inl (le_refl _))
    · rw [hpoisons]
      rfl
    · rw [hpoisons]
      exact le_refl _
  | count hpos =>
    refine h.move hw hlt hq ?_ (Nat.le_add_right _ _) (Or.inl (Nat.zero_le _))
    show ((p.poisons : Int) + 0) + p.threadsToStop + 0 = p.poisons + 1 + (p.threadsToStop - 1) + 0
    omega
  | leave hpos => exact absurd ⟨hw, hpos⟩ hstay
  | tooLate hneg =>
    refine h.move hw hlt hq ?_ (le_refl _) (Or.inr hneg)
    show ((p.poisons : Int) + 0) + p.threadsToStop + 0 = p.poisons + 0 + (p.threadsToStop - 1) + 1
    omega
  | restore =>
    refine h.move hw hlt hq ?_ (le_refl _) (Or.inl (Nat.zero_le _))
    show ((p.poisons : Int) + 0) + p.threadsToStop + 1 = p.poisons + 0 + (p.threadsToStop + 1) + 0
    omega
  | _ =>
    -- neither the poison nor the counter is touched
    exact h.move hw hlt hq rfl (le_refl _) (Or.inl (le_refl _))

theorem Poisoned.controllerMoves (h : p.Poisoned c) (hsound : p.Sound c) (hsettled : p.Settled c)
    (hs : ControllerMoves p c c' p') : p'.Poisoned c' := by
  have hframe := hs.frame
  have hholds := hsound.total_frame hframe Worker.holdsPoison rfl rfl
  have hrestores := hsound.total_frame hframe Worker.restores rfl rfl
  obtain ⟨hcount, hsteady⟩ := h
  rcases hframe.queue with ⟨hqueue, hstop, hto, -⟩ | ⟨n, size, rfl, rfl, hqueue, hstop⟩ | ⟨i, n, size, hi, rfl, rfl, hqueue, hstop⟩
  · refine ⟨?_, ?_⟩
    · rw [hto, poisons, hqueue, hholds, hrestores, hstop]
      exact hcount
    · rw [hto, poisons, hqueue, hholds, hrestores]
      exact hsteady
  · have hzero : p.total Worker.restores = 0 := Lib.tally_eq_zero fun t ht => if_neg (hsettled t ht)
    have hcalm := (hsound.calm (le_refl _)).2.2
    have hpoisons : p'.poisons = p.poisons := by rw [poisons, hqueue, poisons]
    have hto : (Controller.poisoning 0 n size).toPoison = n := rfl
    simp only [Controller.toPoison] at hcount
    exact ⟨by omega, fun _ => by omega⟩
  · have hpoisons : p'.poisons = p.poisons + 1 := by
      rw [poisons, hqueue, List.count_append, poisons]
      rfl
    have hto : (Controller.poisoning (i + 1) n size).toPoison = n - (i + 1) := rfl
    simp only [Controller.toPoison] at hcount hsteady
    refine ⟨by omega, fun hpos => ?_⟩
    rw [hrestores]
    exact hsteady (by omega)

end Pool

/-! ### Runs -/

namespace PoolState

variable {s s' : PoolState} {l : Label} {ls : List Label} {isJoin : Bool} {numThreads : Nat}

theorem alive_of_step (hs : s.step l = some s') : s.pool.failed = none := by
  by_contra hfailed
  unfold step at hs
  rw [if_pos (Option.isSome_iff_ne_none.mpr hfailed)] at hs
  cases hs

theorem step_cases (hs : s.step l = some s') :
    (s.controller = .idle ∧ ∃ task, l = .add task ∧ s' = { s with pool := s.pool.add task }) ∨
    (s.controller = .idle ∧ ∃ c, l = .call c ∧ s' = { s with controller := .locking c }) ∨
    (l = .controller ∧ Pool.ControllerMoves s.pool s.controller s'.controller s'.pool) ∨
    (l = .controller ∧ Pool.Aborted s.pool s.controller s'.pool) ∨
    (∃ t now w v, l = .worker t now ∧ s.pool.workers t = w ∧ Pool.WorkerMoves s.pool t now w v s'.pool ∧
      s'.controller = s.controller) ∨
    ∃ t now, l = .worker t now ∧ s.pool.workers t = .poisoned ∧ s'.pool.failed = some .threadsToStop ∧ s.pool.threadsToStop ≤ 0 ∧
      Pool.Moves t (.telling s.pool.observers) s.pool { s'.pool with failed := s.pool.failed } ∧
      s'.pool.notices = s.pool.notices := by
  have hfailed := alive_of_step hs
  unfold step at hs
  rw [if_neg (by simp [hfailed])] at hs
  cases l with
  | add task =>
    simp only at hs
    split_ifs at hs with hidle
    cases hs
    exact Or.inl ⟨hidle, task, rfl, rfl⟩
  | call c =>
    simp only at hs
    split_ifs at hs with hidle
    cases hs
    exact Or.inr (Or.inl ⟨hidle, c, rfl, rfl⟩)
  | controller =>
    simp only [Option.map_eq_some_iff] at hs
    obtain ⟨⟨p, c⟩, hstep, rfl⟩ := hs
    rcases Pool.controllerStep_cases hstep with hmove | habort
    · exact Or.inr (Or.inr (Or.inl ⟨rfl, hmove⟩))
    · exact Or.inr (Or.inr (Or.inr (Or.inl ⟨rfl, habort⟩)))
  | worker t now =>
    simp only [Option.map_eq_some_iff] at hs
    obtain ⟨p, hstep, rfl⟩ := hs
    rcases Pool.workerStep_cases hstep with ⟨w, v, hw, hmove⟩ | ⟨hfail, hw, hneg, hmoves, hnotices⟩
    · exact Or.inr (Or.inr (Or.inr (Or.inr (Or.inl ⟨t, now, w, v, rfl, hw, hmove, rfl⟩))))
    · exact Or.inr (Or.inr (Or.inr (Or.inr (Or.inr ⟨t, now, rfl, hw, hfail, hneg, hmoves, hnotices⟩))))

/-- The step is not one of a worker that leaves after a task, nor does it assign `threadsToStop_` too early. -/
def Orderly (s : PoolState) : Label → Prop
  | .worker t _ => ¬ s.pool.LeavesEarly t
  | .controller => s.pool.Settled s.controller
  | _ => True

instance (s : PoolState) : ∀ l, Decidable (s.Orderly l)
  | .worker t _ => inferInstanceAs (Decidable (¬ s.pool.LeavesEarly t))
  | .controller => inferInstanceAs (Decidable (s.pool.Settled s.controller))
  | .add _ => isTrue trivial
  | .call _ => isTrue trivial

structure Inv (s : PoolState) : Prop where
  sound : s.pool.Sound s.controller
  poisoned : s.pool.Poisoned s.controller

theorem inv_start : (start isJoin numThreads).Inv :=
  ⟨Pool.sound_initial isJoin numThreads, Pool.poisoned_initial isJoin numThreads⟩

theorem step_inv (hok : s.Orderly l) (h : s.Inv) (hs : s.step l = some s') : s'.Inv := by
  obtain ⟨hsound, hpoisoned⟩ := h
  rcases step_cases hs with ⟨hidle, task, -, rfl⟩ | ⟨hidle, c, -, rfl⟩ | ⟨rfl, hmove⟩ | ⟨-, habort⟩ |
    ⟨t, now, w, v, rfl, hw, hmove, hc⟩ | ⟨t, now, -, hw, -, hneg, -, -⟩
  · have hpoisons : (s.pool.add task).poisons = s.pool.poisons := by
      rw [Pool.poisons, Pool.add, List.count_append]
      rfl
    refine ⟨hsound.same (Pool.Same.of_update ..) rfl, ?_, ?_⟩
    · show (_ + (s.pool.add task).poisons + _ : Int) = _
      rw [hpoisons]
      exact hpoisoned.count
    · show 0 < _ + (s.pool.add task).poisons + _ → _
      rw [hpoisons]
      exact hpoisoned.steady
  · rw [hidle] at hsound hpoisoned
    exact ⟨hsound.advance (Pool.Same.refl _) hsound.lock rfl trivial nofun, hpoisoned.count, hpoisoned.steady⟩
  · exact ⟨hsound.controllerMoves hok hmove, hpoisoned.controllerMoves hsound hok hmove⟩
  · exact absurd habort.fails hsound.not_fails
  · rw [← hc] at hsound hpoisoned
    exact ⟨hsound.workerMoves hw hmove, hpoisoned.workerMoves hsound hw hok hmove⟩
  · have hlt : t < s.pool.nextId := hsound.listed.lt_nextId (by rw [hw]; decide)
    exact absurd (hpoisoned.pos hlt hw) (Int.not_lt.mpr hneg)

theorem run_inv (hok : Lib.StepsMeet step Orderly (start isJoin numThreads) ls)
    (hrun : Lib.run step (start isJoin numThreads) ls = some s) : s.Inv :=
  Lib.run_invariant_where (fun _ _ _ h hok hs => step_inv hok h hs) inv_start hok hrun

/-- Between two calls, and at the end of `removeThreads`, no worker is in the branch of a pool being stopped. -/
theorem Inv.restored (h : s.Inv) (hc : s.controller.decided = none) : s.pool.total Worker.restores = 0 := by
  refine Lib.tally_eq_zero fun t _ => if_neg fun hw => ?_
  have := (h.sound.modes.branch t (Or.inl (Or.inr hw))).2
  rw [hc] at this
  cases this

theorem settled_place {c : Controller} (hc : c = .idle ∨ ∃ size, c = .returning size) :
    c.quota = 0 ∧ c.hand = none ∧ c.decided = none ∧ c.toPoison = 0 := by
  rcases hc with rfl | ⟨size, rfl⟩
  · exact ⟨rfl, rfl, rfl, rfl⟩
  · exact ⟨rfl, rfl, rfl, rfl⟩

theorem Inv.nothing_left (h : s.Inv) (hc : s.controller = .idle ∨ ∃ size, s.controller = .returning size) :
    s.pool.threadsToStop = 0 ∧ .poison ∉ s.pool.taskQueue := by
  obtain ⟨hquota, -, hdecided, hto⟩ := settled_place hc
  have hrestored := h.restored hdecided
  have hzero := (h.sound.calm (hquota ▸ Nat.zero_le _)).2.2
  have hcount := h.poisoned.count
  refine ⟨by omega, ?_⟩
  rw [← List.count_eq_zero]
  show s.pool.poisons = 0
  omega

theorem Inv.workers_alive (h : s.Inv) (hc : s.controller = .idle ∨ ∃ size, s.controller = .returning size) :
    ∀ t ∈ s.pool.threads, (s.pool.workers t).stage = .alive ∧ s.pool.workers t ≠ .poisoned := by
  obtain ⟨hquota, hhand, -, -⟩ := settled_place hc
  obtain ⟨hdeparting, hnone, -⟩ := h.sound.calm (hquota ▸ Nat.zero_le _)
  intro t ht
  have hlt : t < s.pool.nextId := h.sound.listed.lt_nextId fun habs => h.sound.listed.listed t ht (by rw [habs]; rfl)
  refine ⟨?_, fun hw => ?_⟩
  · have hgone := h.sound.listed.gone t ht
    rw [hnone, hhand] at hgone
    have hle : (s.pool.workers t).departing ≤ s.pool.total Worker.departing := le_tally hlt
    cases hstage : (s.pool.workers t).stage with
    | absent => exact absurd hstage (h.sound.listed.listed t ht)
    | alive => rfl
    | departing =>
      rw [Worker.departing, if_pos hstage] at hle
      omega
    | returning => simp [hstage] at hgone
    | exited => simp [hstage] at hgone
  · have hpos := h.poisoned.pos hlt hw
    have hzero := (h.nothing_left hc).1
    omega

/-- **Poison is accounted for.** In every run of a pool with one controller in which no worker leaves after
a task and `threadsToStop_` is not assigned while a worker is about to put its one back: no `RDDCHECK`
fails, and when `removeThreads` or the call has returned, `threadsToStop_` is 0, there is no poison in the
queue, and all threads in the pool take tasks. -/
theorem poison_accounted (hok : Lib.StepsMeet step Orderly (start isJoin numThreads) ls)
    (hrun : Lib.run step (start isJoin numThreads) ls = some s) :
    s.pool.failed = none ∧
    ((s.controller = .idle ∨ ∃ size, s.controller = .returning size) →
      s.pool.threadsToStop = 0 ∧ .poison ∉ s.pool.taskQueue ∧
      ∀ t ∈ s.pool.threads, (s.pool.workers t).stage = .alive ∧ s.pool.workers t ≠ .poisoned) := by
  have h := run_inv hok hrun
  refine ⟨h.sound.failed, fun hc => ?_⟩
  obtain ⟨hzero, hnone⟩ := h.nothing_left hc
  exact ⟨hzero, hnone, h.workers_alive hc⟩

/-- The constructor of a pool of one thread, up to its return. -/
def constructorLabels : List Label := List.replicate 5 .controller ++ [.worker 0 0] ++ List.replicate 4 .controller

/-- A task is being run when the pool is stopped; the worker finishes it and leaves. -/
def stopLabels : List Label :=
  constructorLabels ++ [.add ⟨0, 0, false⟩, .worker 0 0, .call .stop] ++ List.replicate 9 .controller ++
    List.replicate 7 (.worker 0 0) ++ List.replicate 6 .controller

/-- The pool is grown again. -/
def growLabels : List Label := [.call (.setNumThreads 1)] ++ List.replicate 8 .controller ++ List.replicate 3 (.worker 1 0)

/-- The worker that left after its task has left a poison task behind, which kills the pool when it is
grown again. -/
theorem poison_left_behind :
    ∃ s s', Lib.run step (start false 1) stopLabels = some s ∧ s.controller = .idle ∧ .poison ∈ s.pool.taskQueue ∧
      Lib.run step s growLabels = some s' ∧ s'.pool.failed = some .threadsToStop := by
  refine ⟨_, _, rfl, rfl, ?_, rfl, rfl⟩
  decide

/-- The task ends before the pool is stopped, and the worker takes the poison. -/
def joinLabels : List Label :=
  constructorLabels ++ [.add ⟨0, 0, false⟩] ++ List.replicate 4 (.worker 0 0) ++ [.call .stop] ++ List.replicate 9 .controller ++
    List.replicate 5 (.worker 0 0) ++ List.replicate 6 .controller

theorem poison_accounted_stop :
    ∃ s, Lib.run step (start false 1) joinLabels = some s ∧ s.controller = .idle ∧ s.pool.failed = none ∧
      s.pool.threadsToStop = 0 ∧ .poison ∉ s.pool.taskQueue := by
  obtain ⟨s, hs⟩ : ∃ s, Lib.run step (start false 1) joinLabels = some s := ⟨_, rfl⟩
  have hidle : s.controller = .idle := by
    cases hs
    rfl
  obtain ⟨hfailed, hrest⟩ := poison_accounted (by decide) hs
  exact ⟨s, hs, hidle, hfailed, (hrest (Or.inl hidle)).1, (hrest (Or.inl hidle)).2.1⟩

end PoolState

end Raster
