import Raster.Concurrency.Accounting

/-!
# Observers

`addThreads` tells each observer of the new threads once they have all started, and a worker that takes
poison tells each observer before it leaves. A worker that leaves after a task tells nobody.

For one thread and one observer: what is still to be told is read off the places of the controller and of
the worker, and with what was told already it makes up the number of times the observer is registered.
-/

namespace Raster

/-! ### What is still to be told -/

namespace Controller

/-- The threads that `addThreads` makes. -/
def newThreads : Controller → List Nat
  | .making _ newThreads _ => newThreads
  | .creating _ newThreads _ => newThreads
  | .sorting newThreads _ => newThreads
  | .waiting _ newThreads _ => newThreads
  | _ => []

/-- The calls of `threadStarted` that are left. -/
def calls : Controller → List (Nat × Nat)
  | .telling todo _ => todo
  | _ => []

/-- The threads that an observer will be told of. -/
def announces : Controller → List Nat
  | .making _ newThreads _ => newThreads
  | .creating _ newThreads _ => newThreads
  | .sorting newThreads _ => newThreads
  | .waiting _ newThreads _ => newThreads
  | .telling todo _ => todo.map Prod.snd
  | .observing _ todo => todo
  | .unobserving _ todo => todo
  | _ => []

theorem mem_announces_of_new (c : Controller) {t : Nat} (ht : t ∈ c.newThreads) : t ∈ c.announces := by
  cases c <;> first | exact ht | cases ht

theorem mem_announces_of_call (c : Controller) {o t : Nat} (ht : (o, t) ∈ c.calls) : t ∈ c.announces := by
  cases c with
  | telling todo size => exact List.mem_map_of_mem ht
  | _ => cases ht

/-- The calls of `threadStarted` for an observer that is registered `k` times. -/
def toTell (c : Controller) (k o t : Nat) : Nat := k * c.newThreads.count t + c.calls.count (o, t)

/-- The observer whose registration the call is about to change. -/
def changes : Controller → Option Nat
  | .locking (.addObserver o) => some o
  | .locking (.removeObserver o) => some o
  | .unlocking (.addObserver o) => some o
  | .unlocking (.removeObserver o) => some o
  | .entering (.addObserver o) => some o
  | .entering (.removeObserver o) => some o
  | .unobserving o _ => some o
  | _ => none

end Controller

namespace Worker

/-- The observers that the worker has yet to tell. -/
def toTell : Worker → List Nat
  | .telling observers => observers
  | _ => []

/-- The worker has begun to leave. -/
def Left (w : Worker) : Prop := w.stage ≠ .absent ∧ w.stage ≠ .alive

instance (w : Worker) : Decidable w.Left := inferInstanceAs (Decidable (_ ∧ _))

end Worker

namespace Pool

variable {p p' : Pool} {c c' : Controller} {t now : Nat}

/-! ### Only threads that exist are told of -/

structure Announced (p : Pool) (c : Controller) : Prop where
  announced : ∀ x ∈ c.announces, x ∈ p.threads ∨ x ∈ c.fresh
  noticed : ∀ n ∈ p.notices, p.workers n.thread ≠ .absent

theorem announced_initial (isJoin : Bool) (numThreads : Nat) :
    (initial isJoin).Announced (.making numThreads [] numThreads) where
  announced := nofun
  noticed := nofun

theorem WorkerMoves.ne_absent {w v : Worker} (hs : WorkerMoves p t now w v p') : w ≠ .absent ∧ v ≠ .absent := by
  cases hs <;> exact ⟨nofun, nofun⟩

theorem WorkerMoves.notices {w v : Worker} (hs : WorkerMoves p t now w v p') :
    p'.notices = p.notices ∧ v.toTell = (if w = .poisoned then p.observers else w.toTell) ∨
    ∃ o, w.toTell = o :: v.toTell ∧ p'.notices = p.notices ++ [⟨.threadStopped, o, t⟩] := by
  cases hs with
  | tell o os => exact Or.inr ⟨o, rfl, rfl⟩
  | _ => exact Or.inl ⟨rfl, rfl⟩

theorem Announced.workerMoves (h : p.Announced c) {w v : Worker} (hw : p.workers t = w) (hs : WorkerMoves p t now w v p') :
    p'.Announced c := by
  have hq := hs.moves
  obtain ⟨hfrom, hto⟩ := hs.ne_absent
  have hkeep : ∀ x, p.workers x ≠ .absent → p'.workers x ≠ .absent := by
    intro x hx
    rw [hq.workers]
    by_cases hxt : x = t
    · rw [hxt, Function.update_self]
      exact hto
    · rw [Function.update_of_ne hxt]
      exact hx
  refine ⟨fun x hx => ?_, fun n hn => ?_⟩
  · rw [hq.threads]
    exact h.announced x hx
  · rcases hs.notices with ⟨hnotices, -⟩ | ⟨o, -, hnotices⟩
    · rw [hnotices] at hn
      exact hkeep _ (h.noticed n hn)
    · rw [hnotices] at hn
      rcases List.mem_append.mp hn with hn | hn
      · exact hkeep _ (h.noticed n hn)
      · rw [List.mem_singleton] at hn
        subst hn
        exact hkeep t (hw ▸ hfrom)

theorem Announced.advance (h : p.Announced c) {q : Pool} (hworkers : q.workers = p.workers) (hnotices : q.notices = p.notices)
    (hannounced : ∀ x ∈ c'.announces, x ∈ q.threads ∨ x ∈ c'.fresh) : q.Announced c' := by
  refine ⟨hannounced, ?_⟩
  rw [hworkers, hnotices]
  exact h.noticed

theorem Announced.told (h : p.Announced c) (hlisted : p.Listed c) {n : Notice} (hn : n.thread ∈ p.threads) {q : Pool}
    (hworkers : q.workers = p.workers) (hnotices : q.notices = p.notices ++ [n])
    (hannounced : ∀ x ∈ c'.announces, x ∈ q.threads ∨ x ∈ c'.fresh) : q.Announced c' := by
  refine ⟨hannounced, fun m hm => ?_⟩
  rw [hworkers]
  rw [hnotices] at hm
  rcases List.mem_append.mp hm with hm | hm
  · exact h.noticed m hm
  · rw [List.mem_singleton] at hm
    subst hm
    intro habs
    exact hlisted.listed m.thread hn (by rw [habs]; rfl)

theorem Announced.controllerMoves (h : p.Announced c) (hlisted : p.Listed c) (hs : ControllerMoves p c c' p') :
    p'.Announced c' := by
  have hann := h.announced
  cases hs with
  | lock call q hq =>
    cases call <;> simp only [Pool.lock] at hq <;> split_ifs at hq <;> cases hq <;> exact h.advance rfl rfl (List.forall_mem_nil _)
  | unlock call => cases call <;> exact h.advance rfl rfl (List.forall_mem_nil _)
  | addObserver o => exact h.advance rfl rfl fun x hx => Or.inl hx
  | removeObserver o => exact h.advance rfl rfl fun x hx => Or.inl hx
  | make todo newThreads size => exact h.advance rfl rfl fun x hx => Or.inr hx
  | made newThreads size => exact h.advance rfl rfl hann
  | create t todo newThreads size =>
    obtain ⟨hnone, hnoticed⟩ := h
    refine ⟨fun x hx => ?_, fun n hn => ?_⟩
    · show x ∈ p.threads ++ [t] ∨ x ∈ todo
      rcases hann x hx with hx | hx
      · exact Or.inl (List.mem_append_left _ hx)
      · rcases List.mem_cons.mp hx with rfl | hx
        · exact Or.inl List.mem_concat_self
        · exact Or.inr hx
    · show Function.update p.workers t .starting n.thread ≠ .absent
      by_cases hnt : n.thread = t
      · rw [hnt, Function.update_self]
        simp
      · rw [Function.update_of_ne hnt]
        exact hnoticed n hn
  | created newThreads size => exact h.advance rfl rfl hann
  | sort newThreads size =>
    refine h.advance rfl rfl fun x hx => Or.inl ?_
    rcases hann x hx with hx | hx
    · exact (List.perm_insertionSort _ _).mem_iff.mpr hx
    · cases hx
  | waited newThreads size =>
    refine h.advance rfl rfl fun x hx => hann x ?_
    simp only [Controller.announces, List.map_flatMap, List.map_map, List.mem_flatMap, List.mem_map, Function.comp_apply] at hx
    obtain ⟨o, -, t, ht, rfl⟩ := hx
    exact ht
  | wait t todo newThreads size hposted => exact h.advance rfl rfl hann
  | tell o t todo size =>
    have hmem : t ∈ p.threads := (hann t List.mem_cons_self).resolve_right List.not_mem_nil
    exact h.told hlisted hmem rfl rfl fun x hx => hann x (List.mem_cons_of_mem _ hx)
  | observe o t todo =>
    have hmem : t ∈ p.threads := (hann t List.mem_cons_self).resolve_right List.not_mem_nil
    exact h.told hlisted hmem rfl rfl fun x hx => hann x (List.mem_cons_of_mem _ hx)
  | unobserve o t todo =>
    have hmem : t ∈ p.threads := (hann t List.mem_cons_self).resolve_right List.not_mem_nil
    exact h.told hlisted hmem rfl rfl fun x hx => hann x (List.mem_cons_of_mem _ hx)
  | _ => exact h.advance rfl rfl (List.forall_mem_nil _)

/-! ### One observer and one thread -/

/-- The observer `o` is registered `k` times until the thread `t` has left, and is told of its start and
of its end that many times. -/
structure Balanced (p : Pool) (c : Controller) (k o t : Nat) : Prop where
  registered : (p.workers t).stage ≠ .exited ∨ t ∈ c.newThreads → p.observers.count o = k
  unchanged : c.changes = some o → (p.workers t).stage = .exited
  started : p.notices.count ⟨.threadStarted, o, t⟩ + c.toTell k o t =
    if p.workers t ≠ .absent ∨ t ∈ c.fresh then k else 0
  stopped : p.notices.count ⟨.threadStopped, o, t⟩ + (p.workers t).toTell.count o = if (p.workers t).Left then k else 0

variable {k o : Nat}

theorem Announced.balanced (h : p.Announced .idle) (habs : p.workers t = .absent) : p.Balanced .idle (p.observers.count o) o t := by
  have hnone : ∀ kind, p.notices.count ⟨kind, o, t⟩ = 0 := fun kind =>
    List.count_eq_zero.mpr fun hn => h.noticed _ hn habs
  refine ⟨fun _ => rfl, nofun, ?_, ?_⟩
  · rw [hnone, habs]
    rfl
  · rw [hnone, habs]
    rfl

theorem Balanced.told (h : p.Balanced c k o t) (hlisted : p.Listed c) (hann : p.Announced c) (hcreated : p.workers t ≠ .absent)
    (hremoved : t ∉ p.threads) :
    p.notices.count ⟨.threadStarted, o, t⟩ = k ∧ p.notices.count ⟨.threadStopped, o, t⟩ = k := by
  have hstage : (p.workers t).stage = .exited := by
    rcases hlisted.unlisted t hremoved with hs | hs
    · refine absurd ?_ hcreated
      cases hw : p.workers t with
      | absent => rfl
      | _ => simp [hw, Worker.stage] at hs
    · exact hs
  have hexited : p.workers t = .exited := by
    cases hw : p.workers t with
    | exited => rfl
    | _ => simp [hw, Worker.stage] at hstage
  have hnone : t ∉ c.announces := by
    intro hmem
    rcases hann.announced t hmem with ht | ht
    · exact hremoved ht
    · exact hcreated (hlisted.fresh t ht).2
  have htell : c.toTell k o t = 0 := by
    rw [Controller.toTell, List.count_eq_zero.mpr fun hmem => hnone (c.mem_announces_of_new hmem),
      List.count_eq_zero.mpr fun hmem => hnone (c.mem_announces_of_call hmem)]
    rfl
  have hstarted := h.started
  have hstopped := h.stopped
  rw [htell, if_pos (Or.inl hcreated)] at hstarted
  rw [hexited] at hstopped
  exact ⟨hstarted, hstopped⟩

theorem WorkerMoves.left {w v : Worker} (hs : WorkerMoves p t now w v p') (hpoison : w ≠ .poisoned)
    (hstay : ¬ (w = .leaving ∧ 0 < p.threadsToStop)) : v.Left ↔ w.Left := by
  cases hs with
  | count hpos => exact absurd rfl hpoison
  | leave hpos => exact absurd ⟨rfl, hpos⟩ hstay
  | _ => simp [Worker.Left, Worker.stage]

theorem Balanced.other (h : p.Balanced c k o t) {x : Nat} (hx : t ≠ x) {w v : Worker} (hs : WorkerMoves p x now w v p') :
    p'.Balanced c k o t := by
  have hworker : p'.workers t = p.workers t := by rw [hs.moves.workers, Function.update_of_ne hx]
  have hnotices : ∀ kind, p'.notices.count ⟨kind, o, t⟩ = p.notices.count ⟨kind, o, t⟩ := by
    intro kind
    rcases hs.notices with ⟨hsame, -⟩ | ⟨o', -, htell⟩
    · rw [hsame]
    · rw [htell, List.count_append, List.count_singleton, if_neg (by simp [Ne.symm hx]), Nat.add_zero]
  refine ⟨?_, ?_, ?_, ?_⟩
  · rw [hworker, hs.added.2]
    exact h.registered
  · rw [hworker]
    exact h.unchanged
  · rw [hworker, hnotices]
    exact h.started
  · rw [hworker, hnotices]
    exact h.stopped

theorem Balanced.self (h : p.Balanced c k o t) {w v : Worker} (hw : p.workers t = w) (hstay : ¬ p.LeavesEarly t)
    (hs : WorkerMoves p t now w v p') : p'.Balanced c k o t := by
  have hworker : p'.workers t = v := by rw [hs.moves.workers, Function.update_self]
  obtain ⟨hfrom, hto⟩ := hs.ne_absent
  have hnot : w.stage ≠ .exited := by cases hs <;> exact nofun
  have hregistered : p.observers.count o = k := h.registered (Or.inl (hw ▸ hnot))
  have hstopped := h.stopped
  rw [hw] at hstopped
  refine ⟨fun _ => ?_, fun hc => ?_, ?_, ?_⟩
  · rw [hs.added.2]
    exact hregistered
  · exact absurd (h.unchanged hc) (hw ▸ hnot)
  · have hstarted := h.started
    rw [if_pos (Or.inl (hw ▸ hfrom))] at hstarted
    rw [hworker, if_pos (Or.inl hto)]
    rcases hs.notices with ⟨hsame, -⟩ | ⟨o', -, htell⟩
    · rw [hsame]
      exact hstarted
    · rw [htell, List.count_append, List.count_singleton, if_neg (by simp), Nat.add_zero]
      exact hstarted
  · rw [hworker]
    by_cases hpoison : w = .poisoned
    · subst hpoison
      cases hs with
      | count hpos =>
        show p.notices.count ⟨.threadStopped, o, t⟩ + p.observers.count o = k
        have hnone : p.notices.count ⟨.threadStopped, o, t⟩ = 0 := Nat.eq_zero_of_add_eq_zero_right hstopped
        omega
    · have hleft := hs.left hpoison fun hl => hstay ⟨hw.trans hl.1, hl.2⟩
      rw [if_congr hleft rfl rfl, ← hstopped]
      rcases hs.notices with ⟨hsame, htell⟩ | ⟨o', htell, hnotices⟩
      · rw [hsame, htell, if_neg hpoison]
      · rw [hnotices, htell, List.count_append, List.count_singleton, List.count_cons]
        by_cases ho : o' = o
        · subst ho
          simp
          omega
        · simp [ho]

theorem Balanced.workerMoves (h : p.Balanced c k o t) {x : Nat} {w v : Worker} (hw : p.workers x = w)
    (hstay : x = t → ¬ p.LeavesEarly t) (hs : WorkerMoves p x now w v p') : p'.Balanced c k o t := by
  by_cases hx : t = x
  · subst hx
    exact h.self hw (hstay rfl) hs
  · exact h.other hx hs

theorem Balanced.advance (h : p.Balanced c k o t) {q : Pool} (hworkers : q.workers = p.workers)
    (hobservers : q.observers = p.observers) (hnotices : ∀ kind, kind = .threadStarted ∨ kind = .threadStopped →
      q.notices.count ⟨kind, o, t⟩ = p.notices.count ⟨kind, o, t⟩)
    (hnew : c'.newThreads = c.newThreads) (hcalls : c'.calls = c.calls) (hfresh : c'.fresh = c.fresh)
    (hchanges : c'.changes = some o → c.changes = some o) : q.Balanced c' k o t := by
  refine ⟨?_, fun hc => ?_, ?_, ?_⟩
  · rw [hworkers, hobservers, hnew]
    exact h.registered
  · rw [hworkers]
    exact h.unchanged (hchanges hc)
  · rw [hworkers, hnotices _ (Or.inl rfl), Controller.toTell, hnew, hcalls, hfresh]
    exact h.started
  · rw [hworkers, hnotices _ (Or.inr rfl)]
    exact h.stopped

theorem Balanced.observers (h : p.Balanced c k o t) {q : Pool} (hworkers : q.workers = p.workers)
    (hnotices : q.notices = p.notices) {o' : Nat} (hc : c.changes = some o')
    (hobservers : o ≠ o' → q.observers.count o = p.observers.count o) (hnew : c'.newThreads = [] ∧ c.newThreads = [])
    (hcalls : c'.calls = c.calls) (hfresh : c'.fresh = c.fresh) (hchanges : c'.changes = none) : q.Balanced c' k o t := by
  refine ⟨fun hreg => ?_, fun hc' => ?_, ?_, ?_⟩
  · have hstage : (p.workers t).stage ≠ .exited := by
      rcases hreg with hs | hs
      · rw [hworkers] at hs
        exact hs
      · rw [hnew.1] at hs
        cases hs
    rw [hobservers ?_]
    · exact h.registered (Or.inl hstage)
    · rintro rfl
      exact hstage (h.unchanged hc)
  · rw [hchanges] at hc'
    cases hc'
  · rw [hworkers, hnotices, Controller.toTell, hnew.1, hcalls, hfresh, ← hnew.2]
    exact h.started
  · rw [hworkers, hnotices]
    exact h.stopped

theorem Balanced.making {todo size : Nat} {newThreads : List Nat} (h : p.Balanced (.making (todo + 1) newThreads size) k o t)
    (hlisted : p.Listed (.making (todo + 1) newThreads size)) :
    ({ p with nextId := p.nextId + 1 } : Pool).Balanced (.making todo (newThreads ++ [p.nextId]) size) k o t := by
  obtain ⟨hregistered, hunchanged, hstarted, hstopped⟩ := h
  by_cases hself : t = p.nextId
  · have habs : p.workers t = .absent := hlisted.unknown t (le_of_eq hself.symm)
    have hnot : t ∉ newThreads := fun hmem => by
      have := (hlisted.fresh t hmem).1
      omega
    refine ⟨fun _ => hregistered (Or.inl (by rw [habs]; decide)), nofun, ?_, hstopped⟩
    rw [if_neg (by simp [habs, Controller.fresh, hnot])] at hstarted
    rw [if_pos (Or.inr (by simp [Controller.fresh, hself]))]
    have hnone : p.notices.count ⟨.threadStarted, o, t⟩ = 0 := Nat.eq_zero_of_add_eq_zero_right hstarted
    show p.notices.count ⟨.threadStarted, o, t⟩ + (k * (newThreads ++ [p.nextId]).count t + 0) = k
    rw [hnone, List.count_append, List.count_eq_zero.mpr hnot, hself, List.count_singleton_self]
    omega
  · have hcount : (newThreads ++ [p.nextId]).count t = newThreads.count t := by
      rw [List.count_append, List.count_singleton, if_neg (by simpa using Ne.symm hself), Nat.add_zero]
    have hmem : t ∈ newThreads ++ [p.nextId] ↔ t ∈ newThreads := by simp [hself]
    refine ⟨fun hreg => hregistered (hreg.imp_right hmem.mp), nofun, ?_, hstopped⟩
    show p.notices.count ⟨.threadStarted, o, t⟩ + (k * (newThreads ++ [p.nextId]).count t + 0) =
      if p.workers t ≠ .absent ∨ t ∈ newThreads ++ [p.nextId] then k else 0
    rw [hcount, if_congr (or_congr_right hmem) rfl rfl]
    exact hstarted

theorem Balanced.creating {x : Nat} {todo newThreads : List Nat} {size : Nat}
    (h : p.Balanced (.creating (x :: todo) newThreads size) k o t) (hlisted : p.Listed (.creating (x :: todo) newThreads size)) :
    ({ p.setWorker x .starting with threads := p.threads ++ [x] } : Pool).Balanced (.creating todo newThreads size) k o t := by
  obtain ⟨hregistered, hunchanged, hstarted, hstopped⟩ := h
  by_cases hself : t = x
  · subst hself
    have habs : p.workers t = .absent := (hlisted.fresh t List.mem_cons_self).2
    have hworker : (p.setWorker t .starting).workers t = .starting := Function.update_self ..
    refine ⟨fun _ => hregistered (Or.inl (by rw [habs]; decide)), nofun, ?_, ?_⟩
    · rw [if_pos (Or.inr (by simp [Controller.fresh]))] at hstarted
      rw [hworker, if_pos (Or.inl (by decide))]
      exact hstarted
    · rw [habs] at hstopped
      rw [hworker]
      exact hstopped
  · have hworker : (p.setWorker x .starting).workers t = p.workers t := Function.update_of_ne hself ..
    have hmem : t ∈ (Controller.creating (x :: todo) newThreads size).fresh ↔ t ∈ todo := by simp [Controller.fresh, hself]
    refine ⟨?_, nofun, ?_, ?_⟩
    · rw [hworker]
      exact hregistered
    · rw [hworker]
      rw [if_congr (or_congr_right hmem) rfl rfl] at hstarted
      exact hstarted
    · rw [hworker]
      exact hstopped

theorem count_calls (observers newThreads : List Nat) :
    (observers.flatMap fun o => newThreads.map fun t => (o, t)).count (o, t) = observers.count o * newThreads.count t := by
  induction observers with
  | nil => simp
  | cons x observers ih =>
    rw [List.flatMap_cons, List.count_append, ih, List.count_cons]
    by_cases hx : x = o
    · subst hx
      have hmap : (newThreads.map fun t => (x, t)).count (x, t) = newThreads.count t :=
        List.count_map_of_injective newThreads (fun t => (x, t)) (fun _ _ heq => (Prod.mk.inj heq).2) t
      rw [hmap, beq_self_eq_true, if_pos rfl, Nat.add_mul, Nat.one_mul, Nat.add_comm]
    · have hmap : (newThreads.map fun t => (x, t)).count (o, t) = 0 := by
        refine List.count_eq_zero.mpr fun hmem => ?_
        obtain ⟨y, -, heq⟩ := List.mem_map.mp hmem
        exact hx (Prod.mk.inj heq).1
      rw [hmap, if_neg (by simpa using hx), Nat.zero_add, Nat.add_zero]

theorem Balanced.waiting {newThreads : List Nat} {size : Nat} (h : p.Balanced (.waiting [] newThreads size) k o t) :
    p.Balanced (.telling (p.observers.flatMap fun o => newThreads.map fun t => (o, t)) size) k o t := by
  obtain ⟨hregistered, hunchanged, hstarted, hstopped⟩ := h
  refine ⟨fun hreg => hregistered (Or.inl (hreg.resolve_right nofun)), nofun, ?_, hstopped⟩
  have htell : (Controller.telling (p.observers.flatMap fun o => newThreads.map fun t => (o, t)) size).toTell k o t =
      (Controller.waiting [] newThreads size).toTell k o t := by
    simp only [Controller.toTell, Controller.newThreads, Controller.calls, List.count_nil, Nat.mul_zero, Nat.zero_add,
      Nat.add_zero, count_calls]
    by_cases hmem : t ∈ newThreads
    · rw [hregistered (Or.inr hmem)]
    · rw [List.count_eq_zero.mpr hmem, Nat.mul_zero, Nat.mul_zero]
  rw [htell]
  exact hstarted

theorem Balanced.telling {o' x : Nat} {todo : List (Nat × Nat)} {size : Nat} (h : p.Balanced (.telling ((o', x) :: todo) size) k o t) :
    (p.tell .threadStarted o' x).Balanced (.telling todo size) k o t := by
  obtain ⟨hregistered, hunchanged, hstarted, hstopped⟩ := h
  refine ⟨fun hreg => hregistered (Or.inl (hreg.resolve_right nofun)), nofun, ?_, ?_⟩
  · have hcount : (p.tell .threadStarted o' x).notices.count ⟨.threadStarted, o, t⟩ + todo.count (o, t) =
        p.notices.count ⟨.threadStarted, o, t⟩ + ((o', x) :: todo).count (o, t) := by
      rw [tell, List.count_append, List.count_singleton, List.count_cons]
      by_cases hox : o' = o ∧ x = t
      · obtain ⟨rfl, rfl⟩ := hox
        simp
        omega
      · rw [if_neg (by simpa using hox), if_neg (by simpa using hox)]
        omega
    have htell : ∀ l, (Controller.telling l size).toTell k o t = l.count (o, t) := fun l => by
      simp [Controller.toTell, Controller.newThreads, Controller.calls]
    rw [htell] at hstarted ⊢
    rw [hcount]
    exact hstarted
  · rw [tell, List.count_append, List.count_singleton, if_neg (by simp), Nat.add_zero]
    exact hstopped

theorem Balanced.controllerMoves (h : p.Balanced c k o t) (hlisted : p.Listed c) (hs : ControllerMoves p c c' p') :
    p'.Balanced c' k o t := by
  cases hs with
  | lock call q hq =>
    cases call <;> simp only [Pool.lock] at hq <;> split_ifs at hq <;> cases hq <;>
      exact h.advance rfl rfl (fun _ _ => rfl) rfl rfl rfl id
  | unlock call => cases call <;> exact h.advance rfl rfl (fun _ _ => rfl) rfl rfl rfl id
  | addObserver o' =>
    refine h.observers rfl rfl rfl (fun hne => ?_) ⟨rfl, rfl⟩ rfl rfl rfl
    rw [List.count_append, List.count_singleton, if_neg (by simpa using Ne.symm hne), Nat.add_zero]
  | removeObserver o' => exact h.advance rfl rfl (fun _ _ => rfl) rfl rfl rfl id
  | unobserved o' => exact h.observers rfl rfl rfl (fun hne => List.count_erase_of_ne hne) ⟨rfl, rfl⟩ rfl rfl rfl
  | make todo newThreads size => exact h.making hlisted
  | create x todo newThreads size => exact h.creating hlisted
  | waited newThreads size => exact h.waiting
  | tell o' x todo size => exact h.telling
  | observe o' x todo =>
    refine h.advance rfl rfl (fun kind hkind => ?_) rfl rfl rfl (by intro hc; cases hc)
    rw [tell, List.count_append, List.count_singleton, if_neg (by rcases hkind with rfl | rfl <;> simp), Nat.add_zero]
  | unobserve o' x todo =>
    refine h.advance rfl rfl (fun kind hkind => ?_) rfl rfl rfl id
    rw [tell, List.count_append, List.count_singleton, if_neg (by rcases hkind with rfl | rfl <;> simp), Nat.add_zero]
  | _ => exact h.advance rfl rfl (fun _ _ => rfl) rfl rfl rfl (by intro hc; cases hc)

end Pool

/-! ### Runs -/

namespace PoolState

variable {s s' s₁ s₂ : PoolState} {l : Label} {pre post : List Label} {isJoin : Bool} {numThreads k o t : Nat}

/-- The lists of threads are in order, unless a check has failed. -/
def Listing (s : PoolState) : Prop := s.pool.failed = none → s.pool.Listed s.controller ∧ s.pool.Announced s.controller

theorem listing_start : (start isJoin numThreads).Listing :=
  fun _ => ⟨(Pool.sound_initial isJoin numThreads).listed, Pool.announced_initial isJoin numThreads⟩

theorem step_listing (h : s.Listing) (hs : s.step l = some s') : s'.Listing := by
  intro halive
  obtain ⟨hlisted, hann⟩ := h (alive_of_step hs)
  rcases step_cases hs with ⟨hidle, task, -, rfl⟩ | ⟨hidle, c, -, rfl⟩ | ⟨-, hmove⟩ | ⟨-, habort⟩ |
    ⟨t, now, w, v, -, hw, hmove, hc⟩ | ⟨t, now, -, -, hfail, -, -, -⟩
  · exact ⟨hlisted.goOn rfl rfl rfl rfl rfl hlisted.erasing id rfl, hann.advance rfl rfl hann.announced⟩
  · rw [hidle] at hlisted hann
    exact ⟨hlisted.goOn rfl rfl rfl rfl rfl nofun id rfl, hann.advance rfl rfl nofun⟩
  · exact ⟨hlisted.controllerMoves hmove, hann.controllerMoves hlisted hmove⟩
  · exact absurd halive habort.failed
  · rw [hc]
    exact ⟨hlisted.workerMoves hw hmove, hann.workerMoves hw hmove⟩
  · exact absurd (halive.symm.trans hfail) nofun

/-- The observer `o` is neither added nor removed until the thread `t` has ended. -/
def Registered (o t : Nat) (s : PoolState) : Label → Prop
  | .call (.addObserver o') => o' = o → (s.pool.workers t).stage = .exited
  | .call (.removeObserver o') => o' = o → (s.pool.workers t).stage = .exited
  | _ => True

/-- The thread `t` does not leave after a task. -/
def Stays (t : Nat) (s : PoolState) : Label → Prop
  | .worker t' _ => t' = t → ¬ s.pool.LeavesEarly t
  | _ => True

instance (s : PoolState) : ∀ l, Decidable (s.Registered o t l)
  | .call (.addObserver _) => inferInstanceAs (Decidable (_ → _))
  | .call (.removeObserver _) => inferInstanceAs (Decidable (_ → _))
  | .call (.setNumThreads _) => isTrue trivial
  | .call .stop => isTrue trivial
  | .call .join => isTrue trivial
  | .add _ => isTrue trivial
  | .controller => isTrue trivial
  | .worker _ _ => isTrue trivial

instance (s : PoolState) : ∀ l, Decidable (s.Stays t l)
  | .worker _ _ => inferInstanceAs (Decidable (_ → _))
  | .add _ => isTrue trivial
  | .call _ => isTrue trivial
  | .controller => isTrue trivial

/-- What the observer was told of a thread that was removed. -/
def Told (k o t : Nat) (s : PoolState) : Prop :=
  s.pool.workers t ≠ .absent → t ∉ s.pool.threads →
    s.pool.notices.count ⟨.threadStarted, o, t⟩ = k ∧ s.pool.notices.count ⟨.threadStopped, o, t⟩ = k

structure Watched (k o t : Nat) (s : PoolState) : Prop where
  listing : s.Listing
  balanced : s.pool.failed = none → s.pool.Balanced s.controller k o t
  told : s.Told k o t

theorem Watched.of_balanced (hlisting : s.Listing) (halive : s.pool.failed = none)
    (hbalanced : s.pool.Balanced s.controller k o t) : s.Watched k o t :=
  ⟨hlisting, fun _ => hbalanced, hbalanced.told (hlisting halive).1 (hlisting halive).2⟩

theorem step_watched (hreg : s.Registered o t l) (hstay : s.Stays t l) (h : s.Watched k o t) (hs : s.step l = some s') :
    s'.Watched k o t := by
  have halive := alive_of_step hs
  have hlisting := step_listing h.listing hs
  obtain ⟨hlisted, hann⟩ := h.listing halive
  have hbalanced := h.balanced halive
  rcases step_cases hs with ⟨hidle, task, -, rfl⟩ | ⟨hidle, c, rfl, rfl⟩ | ⟨-, hmove⟩ | ⟨-, habort⟩ |
    ⟨x, now, w, v, rfl, hw, hmove, hc⟩ | ⟨x, now, -, hw, hfail, -, hmoves, hnotices⟩
  · exact .of_balanced hlisting halive (hbalanced.advance rfl rfl (fun _ _ => rfl) rfl rfl rfl id)
  · refine .of_balanced hlisting halive ?_
    rw [hidle] at hbalanced
    refine ⟨hbalanced.registered, fun hc => ?_, hbalanced.started, hbalanced.stopped⟩
    cases c with
    | addObserver o' => exact hreg (Option.some.inj hc)
    | removeObserver o' => exact hreg (Option.some.inj hc)
    | _ => cases hc
  · exact .of_balanced hlisting (hmove.failed ▸ halive) (hbalanced.controllerMoves hlisted hmove)
  · -- the process ends; nothing was told in its last step
    refine ⟨hlisting, fun hnone => absurd hnone habort.failed, fun hcreated hremoved => ?_⟩
    rw [habort.workers] at hcreated
    rw [habort.notices]
    refine h.told hcreated ?_
    rcases habort.threads with hthreads | ⟨x, i, n, size, hc⟩
    · rwa [hthreads] at hremoved
    · rw [hc] at hlisted
      have hfails := habort.fails
      rw [hc] at hfails
      cases hfails with
      | erase _ _ _ _ hrange => exact absurd hrange hlisted.not_out_of_range
  · refine .of_balanced hlisting (hmove.moves.failed.trans halive) ?_
    rw [hc]
    exact hbalanced.workerMoves hw hstay hmove
  · refine ⟨hlisting, fun hnone => absurd (hnone.symm.trans hfail) nofun, fun hcreated hremoved => ?_⟩
    rw [hnotices]
    refine h.told (fun habs => hcreated ?_) (hmoves.threads ▸ hremoved)
    have hworkers : s'.pool.workers = Function.update s.pool.workers x (.telling s.pool.observers) := hmoves.workers
    rw [hworkers, Function.update_of_ne]
    · exact habs
    · rintro rfl
      rw [habs] at hw
      cases hw

/-- **Observers see balanced notifications.** Let `o` be registered between two calls, before the thread `t`
is made, and let it be neither added nor removed until `t` has ended. If `t` does not leave after a task,
then `o` is told once for each time it is registered that `t` has started, and once that it has stopped,
by the time `t` is removed from the pool. -/
theorem observers_balanced (hpre : Lib.run step (start isJoin numThreads) pre = some s₁) (hidle : s₁.controller = .idle)
    (habsent : s₁.pool.workers t = .absent) (hreg : Lib.StepsMeet step (Registered o t) s₁ post)
    (hstay : Lib.StepsMeet step (Stays t) s₁ post) (hrun : Lib.run step s₁ post = some s₂)
    (hcreated : s₂.pool.workers t ≠ .absent) (hremoved : t ∉ s₂.pool.threads) :
    s₂.pool.notices.count ⟨.threadStarted, o, t⟩ = s₁.pool.observers.count o ∧
    s₂.pool.notices.count ⟨.threadStopped, o, t⟩ = s₁.pool.observers.count o := by
  have hlisting : s₁.Listing := Lib.run_invariant (fun _ _ _ h hs => step_listing h hs) listing_start hpre
  have hwatched : s₁.Watched (s₁.pool.observers.count o) o t := by
    refine ⟨hlisting, fun halive => ?_, fun hcreated => absurd habsent hcreated⟩
    have hann := (hlisting halive).2
    rw [hidle] at hann ⊢
    exact hann.balanced habsent
  have hend : s₂.Watched (s₁.pool.observers.count o) o t :=
    Lib.run_invariant_where (fun _ _ _ h hok hs => step_watched hok.1 hok.2 h hs) hwatched (hreg.and hstay) hrun
  exact hend.told hcreated hremoved

/-- A pool without threads gets the observer 7. -/
def observeLabels : List Label := List.replicate 6 .controller ++ [.call (.addObserver 7)] ++ List.replicate 4 .controller

/-- It gets a thread, which is told to run a task. -/
def workLabels : List Label :=
  [.call (.setNumThreads 1)] ++ List.replicate 8 .controller ++ [.worker 0 0] ++ List.replicate 5 .controller ++
    [.add ⟨0, 0, false⟩]

/-- The task ends before the pool is stopped, and the worker takes the poison. -/
def idleStopLabels : List Label :=
  workLabels ++ List.replicate 4 (.worker 0 0) ++ [.call .stop] ++ List.replicate 9 .controller ++
    List.replicate 6 (.worker 0 0) ++ List.replicate 6 .controller

/-- The task is being run when the pool is stopped. -/
def busyStopLabels : List Label :=
  workLabels ++ [.worker 0 0, .call .stop] ++ List.replicate 9 .controller ++ List.replicate 7 (.worker 0 0) ++
    List.replicate 6 .controller

theorem observers_balanced_stop :
    ∃ s₁ s₂, Lib.run step (start false 0) observeLabels = some s₁ ∧ s₁.pool.observers.count 7 = 1 ∧
      Lib.run step s₁ idleStopLabels = some s₂ ∧ 0 ∉ s₂.pool.threads ∧
      s₂.pool.notices.count ⟨.threadStarted, 7, 0⟩ = 1 ∧ s₂.pool.notices.count ⟨.threadStopped, 7, 0⟩ = 1 := by
  obtain ⟨s₁, hpre⟩ : ∃ s₁, Lib.run step (start false 0) observeLabels = some s₁ := ⟨_, rfl⟩
  obtain ⟨s₂, hrun⟩ : ∃ s₂, Lib.run step s₁ idleStopLabels = some s₂ := by
    cases hpre
    exact ⟨_, rfl⟩
  refine ⟨s₁, s₂, hpre, ?_⟩
  have hpre' := hpre
  have hrun' := hrun
  cases hpre
  cases hrun
  exact ⟨rfl, hrun', by decide, observers_balanced hpre' rfl rfl (by decide) (by decide) hrun' (by decide) (by decide)⟩

/-- The worker that leaves after its task does not tell the observer, which was told that it started. -/
theorem leaves_untold :
    ∃ s₁ s₂, Lib.run step (start false 0) observeLabels = some s₁ ∧ s₁.controller = .idle ∧ s₁.pool.observers.count 7 = 1 ∧
      s₁.pool.workers 0 = .absent ∧ Lib.StepsMeet step (Registered 7 0) s₁ busyStopLabels ∧
      Lib.run step s₁ busyStopLabels = some s₂ ∧ s₂.pool.workers 0 = .exited ∧ 0 ∉ s₂.pool.threads ∧
      s₂.pool.notices.count ⟨.threadStarted, 7, 0⟩ = 1 ∧ s₂.pool.notices.count ⟨.threadStopped, 7, 0⟩ = 0 := by
  refine ⟨_, _, rfl, rfl, rfl, rfl, ?_, rfl, rfl, ?_, ?_, ?_⟩ <;> decide

end PoolState

end Raster
