import Raster.Lib.MinQueue
import Mathlib.Data.PNat.Basic
import Mathlib.Logic.Function.Basic

/-!
# `TimedHeap`

`raster/util/TimedHeap.h` with the `Timeout` of `raster/util/Time.h`. A `TimedHeap` is a map from
keys to their current timeout beside a priority queue of all timeouts pushed so far. Erasing or
overwriting a key only touches the map; the queue keeps the old entry, and `pop` recognises it as
stale by comparing deadlines.

The abstract heap is the map from keys to deadlines alone. `Spec` says what each operation does to
it, `Inv` is what ties the queue with its garbage to the map, and every run of the code is a run of
`Spec` (`exec_refines`).
-/

set_option linter.unusedSectionVars false

namespace Raster

open Lib (MinQueue)
open Lib.MinQueue (contents top size)

variable {K : Type} [DecidableEq K]

/-- `Timeout<T>`; a null `data` pointer is `none`. -/
structure Timeout (K : Type) where
  data : Option K := none
  deadline : Nat := 0
  repeats : Bool := false
  deriving DecidableEq, Repr

/-- `operator==` on timeouts looks at the deadline only. -/
def Timeout.eq (lhs rhs : Timeout K) : Bool := lhs.deadline == rhs.deadline

/-- `TimedHeap<T>` over a priority queue `Q` of timeouts in order of deadline. -/
structure TimedHeap (Q K : Type) where
  map : K → Option (Timeout K)
  heap : Q

namespace TimedHeap

variable {Q : Type} [MinQueue Q (Timeout K) Timeout.deadline]

def empty : TimedHeap Q K := ⟨fun _ => none, MinQueue.empty⟩

/-- `get_default(map_, key)`: an absent key gives the default timeout, whose deadline is 0. -/
def getDefault (map : K → Option (Timeout K)) (key : Option K) : Timeout K :=
  (key.bind map).getD {}

def push (h : TimedHeap Q K) (v : Timeout K) : TimedHeap Q K :=
  match v.data with
  | none => h
  | some k => ⟨Function.update h.map k (some v), MinQueue.push h.heap v⟩

/-- `map_.erase(key)`. -/
def eraseKey (map : K → Option (Timeout K)) (key : Option K) : K → Option (Timeout K) :=
  match key with
  | none => map
  | some k => Function.update map k none

def erase (h : TimedHeap Q K) (k : Option K) : TimedHeap Q K := { h with map := eraseKey h.map k }

/-- The loop of `pop`, at most `fuel` rounds of it. -/
def popLoop (now : Nat) : Nat → TimedHeap Q K → Option (Timeout K × TimedHeap Q K)
  | 0, _ => none
  | fuel + 1, h =>
    match top h.heap with
    | none => some ({}, h)
    | some timeout =>
      if (getDefault h.map timeout.data).eq timeout then
        if timeout.deadline ≤ now then
          some (timeout, ⟨eraseKey h.map timeout.data, MinQueue.pop h.heap⟩)
        else some ({}, h)
      else popLoop now fuel { h with heap := MinQueue.pop h.heap }

/-- `pop(now)`; one round for each entry and one for the empty queue are enough (`popLoop_isSome`). -/
def pop (h : TimedHeap Q K) (now : Nat) : Timeout K × TimedHeap Q K :=
  (popLoop now (size h.heap + 1) h).getD ({}, h)

/-- **The loop terminates.** -/
theorem popLoop_isSome (now fuel : Nat) (h : TimedHeap Q K) (hfuel : size h.heap < fuel) :
    (popLoop now fuel h).isSome := by
  induction fuel generalizing h with
  | zero => omega
  | succ fuel ih =>
    unfold popLoop
    split
    · rfl
    · rename_i timeout htop
      split_ifs
      · rfl
      · rfl
      · refine ih _ ?_
        have := MinQueue.size_pop htop
        show size (MinQueue.pop h.heap) < fuel
        omega

theorem popLoop_eq_pop (h : TimedHeap Q K) (now : Nat) :
    popLoop now (size h.heap + 1) h = some (h.pop now) := by
  obtain ⟨r, hr⟩ := Option.isSome_iff_exists.mp (popLoop_isSome now _ h (Nat.lt_succ_self _))
  rw [pop, hr, Option.getD_some]

/-! ### The queue with its garbage against the map -/

/-- What the operations keep. The queue holds only timeouts of keys, and for each key of the map the
timeout the map has; any number of further entries may be stale. -/
structure Inv (h : TimedHeap Q K) : Prop where
  keyed : ∀ t ∈ contents h.heap, t.data ≠ none
  owned : ∀ k t, h.map k = some t → t.data = some k
  queued : ∀ k t, h.map k = some t → t ∈ contents h.heap

/-- No entry has the deadline 0 that stands for an absent key. -/
def Positive (h : TimedHeap Q K) : Prop := ∀ t ∈ contents h.heap, 0 < t.deadline

theorem inv_empty : (empty : TimedHeap Q K).Inv where
  keyed t ht := by simp [empty, MinQueue.contents_empty] at ht
  owned k t hk := by simp [empty] at hk
  queued k t hk := by simp [empty] at hk

theorem positive_empty : (empty : TimedHeap Q K).Positive := by
  intro t ht
  simp [empty, MinQueue.contents_empty] at ht

theorem update_eq_some {map : K → Option (Timeout K)} {k k' : K} {v t : Timeout K}
    (h : Function.update map k (some v) k' = some t) : k' = k ∧ t = v ∨ map k' = some t := by
  by_cases hk : k' = k
  · subst hk
    rw [Function.update_self, Option.some.injEq] at h
    exact Or.inl ⟨rfl, h.symm⟩
  · rw [Function.update_of_ne hk] at h
    exact Or.inr h

theorem Inv.push {h : TimedHeap Q K} (hi : h.Inv) (v : Timeout K) : (h.push v).Inv := by
  unfold TimedHeap.push
  split
  · exact hi
  · rename_i k hk
    refine ⟨fun t ht => ?_, fun k' t ht => ?_, fun k' t ht => ?_⟩
    · rcases MinQueue.mem_push.mp ht with rfl | ht
      · rw [hk]
        exact Option.some_ne_none k
      · exact hi.keyed t ht
    · rcases update_eq_some ht with ⟨rfl, rfl⟩ | ht
      · exact hk
      · exact hi.owned k' t ht
    · rcases update_eq_some ht with ⟨-, rfl⟩ | ht
      · exact MinQueue.mem_push.mpr (Or.inl rfl)
      · exact MinQueue.mem_push.mpr (Or.inr (hi.queued k' t ht))

theorem Positive.push {h : TimedHeap Q K} (hp : h.Positive) {v : Timeout K} (hv : 0 < v.deadline) :
    (h.push v).Positive := by
  unfold TimedHeap.push
  split
  · exact hp
  · intro t ht
    rcases MinQueue.mem_push.mp ht with rfl | ht
    · exact hv
    · exact hp t ht

theorem eraseKey_eq_some {map : K → Option (Timeout K)} {key : Option K} {k : K} {t : Timeout K} :
    eraseKey map key k = some t ↔ key ≠ some k ∧ map k = some t := by
  cases key with
  | none => simp [eraseKey]
  | some k' =>
    by_cases hk : k = k'
    · subst hk
      simp [eraseKey]
    · simp [eraseKey, Function.update_of_ne hk, Ne.symm hk]

theorem Inv.erase {h : TimedHeap Q K} (hi : h.Inv) (k : Option K) : (h.erase k).Inv where
  keyed := hi.keyed
  owned k' t ht := hi.owned k' t (eraseKey_eq_some.mp ht).2
  queued k' t ht := hi.queued k' t (eraseKey_eq_some.mp ht).2

theorem Inv.drop {h : TimedHeap Q K} (hi : h.Inv) {timeout : Timeout K} (htop : top h.heap = some timeout)
    (map : K → Option (Timeout K)) (hmap : ∀ k t, map k = some t → h.map k = some t ∧ t ≠ timeout) :
    (⟨map, MinQueue.pop h.heap⟩ : TimedHeap Q K).Inv where
  keyed t ht := hi.keyed t (MinQueue.mem_of_mem_pop htop ht)
  owned k t ht := hi.owned k t (hmap k t ht).1
  queued k t ht := MinQueue.mem_pop_of_ne htop (hi.queued k t (hmap k t ht).1) (hmap k t ht).2

theorem Inv.ne_of_stale {h : TimedHeap Q K} (hi : h.Inv) {timeout : Timeout K}
    (hstale : ¬ (getDefault h.map timeout.data).eq timeout) (k : K) (t : Timeout K)
    (ht : h.map k = some t) : h.map k = some t ∧ t ≠ timeout := by
  refine ⟨ht, ?_⟩
  rintro rfl
  apply hstale
  simp [getDefault, hi.owned k t ht, ht, Timeout.eq]

theorem Inv.ne_of_erased {h : TimedHeap Q K} (hi : h.Inv) (timeout : Timeout K) (k : K) (t : Timeout K)
    (ht : eraseKey h.map timeout.data k = some t) : h.map k = some t ∧ t ≠ timeout := by
  obtain ⟨hne, hk⟩ := eraseKey_eq_some.mp ht
  refine ⟨hk, ?_⟩
  rintro rfl
  exact hne (hi.owned k t hk)

/-! ### What `pop` returns -/

/-- What `pop` does, read off the state before it: it finds nothing due and keeps the map, or it
returns an entry whose deadline is the one `get_default` gives for its key, and erases that key. -/
inductive PopSpec (now : Nat) (h : TimedHeap Q K) : Timeout K × TimedHeap Q K → Prop
  | none (h' : TimedHeap Q K) (hmap : h'.map = h.map) (hnone : ∀ k t, h.map k = some t → now < t.deadline) :
      PopSpec now h ({}, h')
  | some (timeout : Timeout K) (h' : TimedHeap Q K) (k : K) (hkey : timeout.data = some k)
      (hmem : timeout ∈ contents h.heap) (heq : (getDefault h.map (some k)).deadline = timeout.deadline)
      (hdue : timeout.deadline ≤ now) (hmin : ∀ k t, h.map k = some t → timeout.deadline ≤ t.deadline)
      (hmap : h'.map = eraseKey h.map (some k)) : PopSpec now h (timeout, h')

theorem popLoop_spec (now fuel : Nat) (h : TimedHeap Q K) (hi : h.Inv) (r : Timeout K × TimedHeap Q K)
    (hr : popLoop now fuel h = some r) :
    PopSpec now h r ∧ r.2.Inv ∧ ∀ t ∈ contents r.2.heap, t ∈ contents h.heap := by
  induction fuel generalizing h with
  | zero => simp [popLoop] at hr
  | succ fuel ih =>
    unfold popLoop at hr
    split at hr
    · -- the queue is empty, so the map is
      rename_i htop
      rw [Option.some.injEq] at hr
      subst hr
      refine ⟨.none h rfl fun k t ht => ?_, hi, fun t ht => ht⟩
      have hmem := hi.queued k t ht
      rw [(MinQueue.top_eq_none h.heap).mp htop] at hmem
      exact absurd hmem (Multiset.notMem_zero t)
    · rename_i timeout htop
      have hmin : ∀ k t, h.map k = some t → timeout.deadline ≤ t.deadline := fun k t ht =>
        MinQueue.top_le h.heap timeout htop t (hi.queued k t ht)
      split_ifs at hr with heq hdue
      · rw [Option.some.injEq] at hr
        subst hr
        obtain ⟨k, hkey⟩ := Option.ne_none_iff_exists'.mp (hi.keyed timeout (MinQueue.top_mem htop))
        refine ⟨.some timeout _ k hkey (MinQueue.top_mem htop) ?_ hdue hmin (by rw [hkey]), ?_, ?_⟩
        · rw [← hkey]
          exact of_decide_eq_true heq
        · exact hi.drop htop _ (hi.ne_of_erased timeout)
        · exact fun t ht => MinQueue.mem_of_mem_pop htop ht
      · rw [Option.some.injEq] at hr
        subst hr
        refine ⟨.none h rfl fun k t ht => ?_, hi, fun t ht => ht⟩
        have := hmin k t ht
        omega
      · -- a stale entry: the rest of the loop sees the same map
        obtain ⟨hspec, hinv, hsub⟩ := ih { h with heap := MinQueue.pop h.heap }
          (hi.drop htop h.map (hi.ne_of_stale heq)) hr
        refine ⟨?_, hinv, fun t ht => MinQueue.mem_of_mem_pop htop (hsub t ht)⟩
        cases hspec with
        | none h' hmap hnone => exact .none h' hmap hnone
        | some timeout' h' k hkey hmem heq' hdue hmin' hmap =>
          exact .some timeout' h' k hkey (MinQueue.mem_of_mem_pop htop hmem) heq' hdue hmin' hmap

theorem pop_spec (h : TimedHeap Q K) (now : Nat) (hi : h.Inv) : PopSpec now h (h.pop now) :=
  (popLoop_spec now _ h hi _ (popLoop_eq_pop h now)).1

theorem Inv.pop {h : TimedHeap Q K} (hi : h.Inv) (now : Nat) : (h.pop now).2.Inv :=
  (popLoop_spec now _ h hi _ (popLoop_eq_pop h now)).2.1

theorem pop_contents {h : TimedHeap Q K} (hi : h.Inv) (now : Nat) :
    ∀ t ∈ contents (h.pop now).2.heap, t ∈ contents h.heap :=
  (popLoop_spec now _ h hi _ (popLoop_eq_pop h now)).2.2

theorem Positive.pop {h : TimedHeap Q K} (hp : h.Positive) (hi : h.Inv) (now : Nat) :
    (h.pop now).2.Positive :=
  fun t ht => hp t (pop_contents hi now t ht)

/-! ### The reference map -/

/-- The operations a caller makes; a pushed key is not null and its deadline is positive. -/
inductive Op (K : Type)
  | push (key : K) (deadline : ℕ+) (repeats : Bool)
  | erase (key : K)
  | pop (now : Nat)

/-- The reference: a finite map from keys to deadlines. -/
abbrev Deadlines (K : Type) := K → Option Nat

/-- One operation on the reference map, with the timeout a `pop` returns (a null one for `none`). -/
inductive Spec : Deadlines K → Op K → Option (K × Nat) → Deadlines K → Prop
  | push (m : Deadlines K) (k : K) (d : ℕ+) (r : Bool) :
      Spec m (.push k d r) none (Function.update m k (some d))
  | erase (m : Deadlines K) (k : K) : Spec m (.erase k) none (Function.update m k none)
  | popNull (m : Deadlines K) (now : Nat) (hnone : ∀ k d, m k = some d → now < d) :
      Spec m (.pop now) none m
  | popKey (m : Deadlines K) (now : Nat) (k : K) (d : Nat) (hk : m k = some d) (hdue : d ≤ now)
      (hmin : ∀ k' d', m k' = some d' → d ≤ d') :
      Spec m (.pop now) (some (k, d)) (Function.update m k none)

/-- A run of the reference map: operations, what they returned, and the map after them. -/
inductive SpecRun : Deadlines K → List (Op K) → List (Option (K × Nat)) → Deadlines K → Prop
  | nil (m : Deadlines K) : SpecRun m [] [] m
  | cons {m m' m'' : Deadlines K} {op : Op K} {out : Option (K × Nat)} {ops : List (Op K)}
      {outs : List (Option (K × Nat))} (hop : Spec m op out m') (hrest : SpecRun m' ops outs m'') :
      SpecRun m (op :: ops) (out :: outs) m''

/-- The key and deadline of a returned timeout. -/
def returned (t : Timeout K) : Option (K × Nat) := t.data.map fun k => (k, t.deadline)

/-- One operation on the code's heap; `none` only if the loop of `pop` does not end. -/
def apply (h : TimedHeap Q K) : Op K → Option (Option (K × Nat) × TimedHeap Q K)
  | .push k d r => some (none, h.push ⟨some k, d, r⟩)
  | .erase k => some (none, h.erase (some k))
  | .pop now => (popLoop now (size h.heap + 1) h).map fun r => (returned r.1, r.2)

/-- A sequence of operations on the code's heap, with what each returned. -/
def exec : TimedHeap Q K → List (Op K) → Option (List (Option (K × Nat)) × TimedHeap Q K)
  | h, [] => some ([], h)
  | h, op :: ops =>
    (apply h op).bind fun r => (exec r.2 ops).map fun rs => (r.1 :: rs.1, rs.2)

/-- The reference map a code heap stands for. -/
def deadlines (h : TimedHeap Q K) : Deadlines K := fun k => (h.map k).map Timeout.deadline

theorem deadlines_update {map : K → Option (Timeout K)} (heap heap' : Q) (k : K) (v : Option (Timeout K)) :
    deadlines ⟨Function.update map k v, heap⟩ =
      Function.update (deadlines ⟨map, heap'⟩) k (v.map Timeout.deadline) := by
  funext k'
  by_cases hk : k' = k
  · subst hk
    simp [deadlines]
  · simp [deadlines, Function.update_of_ne hk]

theorem deadlines_congr {h h' : TimedHeap Q K} (hmap : h'.map = h.map) :
    deadlines h' = deadlines h := by
  unfold deadlines
  rw [hmap]

theorem getDefault_deadline_pos {map : K → Option (Timeout K)} {k : K} {d : Nat} (hd : 0 < d)
    (h : (getDefault map (some k)).deadline = d) : (map k).map Timeout.deadline = some d := by
  cases hk : map k with
  | none =>
    simp [getDefault, hk] at h
    omega
  | some t => simpa [getDefault, hk] using h

theorem apply_refines (h : TimedHeap Q K) (hi : h.Inv) (hp : h.Positive) (op : Op K) :
    ∃ out h', apply h op = some (out, h') ∧ h'.Inv ∧ h'.Positive ∧
      Spec (deadlines h) op out (deadlines h') := by
  cases op with
  | push k d r =>
    refine ⟨_, _, rfl, hi.push _, hp.push d.pos, ?_⟩
    have hd : deadlines (h.push ⟨some k, d, r⟩) = Function.update (deadlines h) k (some d) :=
      deadlines_update _ _ k _
    rw [hd]
    exact .push _ k d r
  | erase k =>
    refine ⟨_, _, rfl, hi.erase _, hp, ?_⟩
    have hd : deadlines (h.erase (some k)) = Function.update (deadlines h) k none :=
      deadlines_update _ _ k _
    rw [hd]
    exact .erase _ k
  | pop now =>
    refine ⟨_, _, by rw [apply, popLoop_eq_pop, Option.map_some], hi.pop now, hp.pop hi now, ?_⟩
    have hspec := pop_spec h now hi
    revert hspec
    generalize h.pop now = r
    intro hspec
    cases hspec with
    | none h' hmap hnone =>
      rw [deadlines_congr hmap]
      refine .popNull _ now fun k d hk => ?_
      obtain ⟨t, ht, rfl⟩ := Option.map_eq_some_iff.mp hk
      exact hnone k t ht
    | some timeout h' k hkey hmem heq hdue hmin hmap =>
      have hd : deadlines h' = Function.update (deadlines h) k none := by
        rw [deadlines_congr (h := ⟨Function.update h.map k none, h'.heap⟩) hmap]
        exact deadlines_update _ _ k none
      have hout : returned timeout = some (k, timeout.deadline) := by simp [returned, hkey]
      rw [hd, hout]
      refine .popKey _ now k _ (getDefault_deadline_pos (hp timeout hmem) heq) hdue fun k' d' hk' => ?_
      obtain ⟨t, ht, rfl⟩ := Option.map_eq_some_iff.mp hk'
      exact hmin k' t ht

theorem exec_refines_from (ops : List (Op K)) (h : TimedHeap Q K) (hi : h.Inv) (hp : h.Positive) :
    ∃ outs h', exec h ops = some (outs, h') ∧ h'.Inv ∧ SpecRun (deadlines h) ops outs (deadlines h') := by
  induction ops generalizing h with
  | nil => exact ⟨[], h, rfl, hi, .nil _⟩
  | cons op ops ih =>
    obtain ⟨out, h₁, happly, hi₁, hp₁, hop⟩ := apply_refines h hi hp op
    obtain ⟨outs, h₂, hexec, hi₂, hrest⟩ := ih h₁ hi₁ hp₁
    refine ⟨out :: outs, h₂, ?_, hi₂, .cons hop hrest⟩
    rw [exec, happly, Option.bind_some, hexec, Option.map_some]

/-- **`TimedHeap` is a finite map with extract-min.** Every sequence of operations ends, and what it
returns is what the reference map allows: a null timeout when nothing is due, else a key with its
current deadline, minimal among all of them. -/
theorem exec_refines (ops : List (Op K)) :
    ∃ outs h', exec (empty : TimedHeap Q K) ops = some (outs, h') ∧
      SpecRun (fun _ => none) ops outs (deadlines h') := by
  obtain ⟨outs, h', hexec, -, hrun⟩ := exec_refines_from ops (empty : TimedHeap Q K) inv_empty positive_empty
  exact ⟨outs, h', hexec, hrun⟩

end TimedHeap

end Raster
