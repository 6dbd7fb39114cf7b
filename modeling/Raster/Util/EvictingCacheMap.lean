import Mathlib.Data.Finset.Card
import Mathlib.Data.List.Nodup

/-!
# `EvictingCacheMap`

`raster/util/EvictingCacheMap.h`: a map with a bound on its size. Its nodes are in an index, by their keys, and in a list, the one
that was used last in front; the nodes at the back are evicted.
-/

namespace Raster

/-- A hook that is called with what is evicted, and whether it throws; the keys of a cache are distinct, so that
it may throw at any of its calls. -/
abbrev PruneHookCall (K V : Type) : Type := K × V → Bool

structure EvictingCacheMap (K V : Type) where
  index : Finset K := ∅
  lru : List (K × V) := []
  maxSize : Nat
  clearSize : Nat := 1
  pruneHook : Option (PruneHookCall K V) := none

namespace EvictingCacheMap

variable {K V : Type} [DecidableEq K]

section Operations

def size (m : EvictingCacheMap K V) : Nat := m.index.card

/-- What a run of `prune` leaves, the calls of the hook in their order, and whether the last of them threw. -/
structure Pruned (K V : Type) where
  map : EvictingCacheMap K V
  called : List (K × V) := []
  thrown : Bool := false

/-- The node at the back is taken out before the hook is called. -/
def popBack (m : EvictingCacheMap K V) (p : K × V) : EvictingCacheMap K V :=
  { m with lru := m.lru.dropLast, index := m.index.erase p.1 }

def pruneWithFailSafeOption (ph : Option (PruneHookCall K V)) (failSafe : Bool) :
    (pruneSize : Nat) → EvictingCacheMap K V → Pruned K V
  | 0, m => { map := m }
  | n + 1, m =>
    match m.lru.getLast? with
    | none => { map := m }
    | some p =>
      match ph with
      | none => pruneWithFailSafeOption ph failSafe n (m.popBack p)
      | some hook =>
        if hook p && !failSafe then { map := m.popBack p, called := [p], thrown := true }
        else
          let r := pruneWithFailSafeOption ph failSafe n (m.popBack p)
          { r with called := p :: r.called }

def prune (pruneSize : Nat) (pruneHook : Option (PruneHookCall K V)) (m : EvictingCacheMap K V) : Pruned K V :=
  pruneWithFailSafeOption (pruneHook.or m.pruneHook) false pruneSize m

def clear (pruneHook : Option (PruneHookCall K V)) (m : EvictingCacheMap K V) : Pruned K V := m.prune m.size pruneHook

/-- What throws leaves the bound as it was. -/
def setMaxSize (maxSize : Nat) (pruneHook : Option (PruneHookCall K V)) (m : EvictingCacheMap K V) : Pruned K V :=
  if maxSize ≠ 0 ∧ maxSize < m.size then
    let r := m.prune (max (m.size - maxSize) m.clearSize) pruneHook
    if r.thrown then r else { r with map := { r.map with maxSize } }
  else { map := { m with maxSize } }

def setClearSize (clearSize : Nat) (m : EvictingCacheMap K V) : EvictingCacheMap K V := { m with clearSize }

def setPruneHook (pruneHook : Option (PruneHookCall K V)) (m : EvictingCacheMap K V) : EvictingCacheMap K V := { m with pruneHook }

/-- `exists`. -/
def contains (key : K) (m : EvictingCacheMap K V) : Bool := key ∈ m.index

/-- The node of a key that is in the index. -/
def node (key : K) (m : EvictingCacheMap K V) : Option (K × V) := m.lru.find? fun p => p.1 = key

def findWithoutPromotion (key : K) (m : EvictingCacheMap K V) : Option (K × V) := if key ∈ m.index then m.node key else none

/-- The node goes to the front of the list. -/
def promote (p : K × V) (m : EvictingCacheMap K V) : EvictingCacheMap K V := { m with lru := p :: m.lru.filter fun q => q.1 ≠ p.1 }

def find (key : K) (m : EvictingCacheMap K V) : Option (K × V) × EvictingCacheMap K V :=
  match m.findWithoutPromotion key with
  | none => (none, m)
  | some p => (some p, m.promote p)

/-- The value, or what the `out_of_range` says. -/
def value (p : Option (K × V)) : Except String V :=
  match p with
  | none => .error "Key does not exist"
  | some p => .ok p.2

def get (key : K) (m : EvictingCacheMap K V) : Except String V × EvictingCacheMap K V := (value (m.find key).1, (m.find key).2)

def getWithoutPromotion (key : K) (m : EvictingCacheMap K V) : Except String V := value (m.findWithoutPromotion key)

def erase (key : K) (m : EvictingCacheMap K V) : Bool × EvictingCacheMap K V :=
  if key ∈ m.index then (true, { m with index := m.index.erase key, lru := m.lru.filter fun p => p.1 ≠ key }) else (false, m)

def set (key : K) (value : V) (promoted : Bool) (pruneHook : Option (PruneHookCall K V)) (m : EvictingCacheMap K V) : Pruned K V :=
  if key ∈ m.index then
    let m' := { m with lru := m.lru.map fun p => if p.1 = key then (key, value) else p }
    { map := if promoted then m'.promote (key, value) else m' }
  else
    let m' := { m with index := insert key m.index, lru := (key, value) :: m.lru }
    if 0 < m'.maxSize ∧ m'.maxSize < m'.size then m'.prune m'.clearSize pruneHook else { map := m' }

end Operations

/-! ### Runs -/

inductive Call (K V : Type)
  | set (key : K) (value : V) (promoted : Bool) (pruneHook : Option (PruneHookCall K V))
  | find (key : K)
  | erase (key : K)
  | prune (pruneSize : Nat) (pruneHook : Option (PruneHookCall K V))
  | clear (pruneHook : Option (PruneHookCall K V))
  | setMaxSize (maxSize : Nat) (pruneHook : Option (PruneHookCall K V))
  | setClearSize (clearSize : Nat)
  | setPruneHook (pruneHook : Option (PruneHookCall K V))

/-- The map behind a call; the calls that are left out leave it as it is. -/
def step (m : EvictingCacheMap K V) : Call K V → EvictingCacheMap K V
  | .set key value promoted pruneHook => (m.set key value promoted pruneHook).map
  | .find key => (m.find key).2
  | .erase key => (m.erase key).2
  | .prune pruneSize pruneHook => (m.prune pruneSize pruneHook).map
  | .clear pruneHook => (m.clear pruneHook).map
  | .setMaxSize maxSize pruneHook => (m.setMaxSize maxSize pruneHook).map
  | .setClearSize clearSize => m.setClearSize clearSize
  | .setPruneHook pruneHook => m.setPruneHook pruneHook

def run (m : EvictingCacheMap K V) (calls : List (Call K V)) : EvictingCacheMap K V := calls.foldl step m

/-- The index and the list have the same nodes, one for each key. -/
structure Synced (m : EvictingCacheMap K V) : Prop where
  nodup : (m.lru.map Prod.fst).Nodup
  index : m.index = (m.lru.map Prod.fst).toFinset

theorem Synced.size_eq {m : EvictingCacheMap K V} (h : m.Synced) : m.size = m.lru.length := by
  rw [size, h.index, List.toFinset_card_of_nodup h.nodup, List.length_map]

theorem Synced.sublist {m : EvictingCacheMap K V} (h : m.Synced) {lru : List (K × V)} (hsub : lru.Sublist m.lru) :
    (lru.map Prod.fst).Nodup := h.nodup.sublist (hsub.map _)

theorem Synced.popBack {m : EvictingCacheMap K V} (h : m.Synced) {p : K × V} (hp : m.lru.getLast? = some p) :
    (m.popBack p).Synced := by
  have hlru : m.lru = m.lru.dropLast ++ [p] := (List.dropLast_append_getLast? p hp).symm
  refine ⟨h.sublist (List.dropLast_sublist _), ?_⟩
  have hnodup := h.nodup
  show m.index.erase p.1 = (m.lru.dropLast.map Prod.fst).toFinset
  rw [h.index]
  rw [hlru, List.map_append, List.nodup_append] at hnodup
  have hfresh : p.1 ∉ m.lru.dropLast.map Prod.fst := fun hmem => hnodup.2.2 _ hmem _ (List.mem_singleton.2 rfl) rfl
  ext k
  nth_rewrite 1 [hlru]
  simp only [Finset.mem_erase, List.mem_toFinset, List.map_append, List.mem_append, List.map_cons, List.map_nil, List.mem_singleton]
  constructor
  · rintro ⟨hne, hk | hk⟩
    · exact hk
    · exact absurd hk hne
  · exact fun hk => ⟨fun heq => hfresh (heq ▸ hk), .inl hk⟩

theorem Synced.filter {m : EvictingCacheMap K V} (h : m.Synced) (key : K) :
    (({ m with index := m.index.erase key, lru := m.lru.filter fun p => p.1 ≠ key }) : EvictingCacheMap K V).Synced := by
  refine ⟨h.sublist List.filter_sublist, ?_⟩
  show m.index.erase key = _
  rw [h.index]
  ext k
  simp only [Finset.mem_erase, List.mem_toFinset, List.mem_map, List.mem_filter, decide_eq_true_eq]
  constructor
  · rintro ⟨hne, p, hp, rfl⟩
    exact ⟨p, ⟨hp, hne⟩, rfl⟩
  · rintro ⟨p, ⟨hp, hne⟩, rfl⟩
    exact ⟨hne, p, hp, rfl⟩

theorem Synced.promote {m : EvictingCacheMap K V} (h : m.Synced) {p : K × V} (hp : p.1 ∈ m.index) : (m.promote p).Synced := by
  have hfilter := h.filter p.1
  refine ⟨?_, ?_⟩
  · show (p.1 :: (m.lru.filter fun q => q.1 ≠ p.1).map Prod.fst).Nodup
    refine List.nodup_cons.2 ⟨fun hmem => ?_, hfilter.nodup⟩
    obtain ⟨q, hq, heq⟩ := List.mem_map.1 hmem
    exact absurd heq (of_decide_eq_true (List.mem_filter.1 hq).2)
  · show m.index = (p.1 :: (m.lru.filter fun q => q.1 ≠ p.1).map Prod.fst).toFinset
    rw [List.toFinset_cons, ← hfilter.index]
    exact (Finset.insert_erase hp).symm

theorem length_promote {m : EvictingCacheMap K V} (h : m.Synced) {p : K × V} (hp : p.1 ∈ m.index) :
    (m.promote p).lru.length = m.lru.length := by
  rw [← (h.promote hp).size_eq, ← h.size_eq]
  rfl

theorem Synced.insert {m : EvictingCacheMap K V} (h : m.Synced) {key : K} (hkey : key ∉ m.index) (value : V) :
    (({ m with index := insert key m.index, lru := (key, value) :: m.lru }) : EvictingCacheMap K V).Synced := by
  rw [h.index, List.mem_toFinset] at hkey
  refine ⟨List.nodup_cons.2 ⟨hkey, h.nodup⟩, ?_⟩
  show Insert.insert key m.index = (key :: m.lru.map Prod.fst).toFinset
  rw [List.toFinset_cons, h.index]

theorem map_fst_assign (key : K) (value : V) (lru : List (K × V)) :
    (lru.map fun p => if p.1 = key then (key, value) else p).map Prod.fst = lru.map Prod.fst := by
  rw [List.map_map]
  refine List.map_congr_left fun p _ => ?_
  show (if p.1 = key then (key, value) else p).1 = p.1
  split_ifs with h
  · exact h.symm
  · rfl

/-! ### Evicting -/

/-- The nodes at the back are gone: all that were asked for, or those up to a call of the hook that threw. -/
structure Evicts (ph : Option (PruneHookCall K V)) (n : Nat) (m : EvictingCacheMap K V) (r : Pruned K V) : Prop where
  synced : r.map.Synced
  same : r.map = { m with index := r.map.index, lru := r.map.lru }
  kept : ∃ k, min n 1 ≤ k ∧ k ≤ n ∧ (r.thrown = false → k = n) ∧ r.map.lru = m.lru.take (m.lru.length - k)
  called : ph.isSome = true → m.lru = r.map.lru ++ r.called.reverse
  silent : ph = none → r.called = []

theorem prune_evicts (ph : Option (PruneHookCall K V)) (failSafe : Bool) (n : Nat) (m : EvictingCacheMap K V) (h : m.Synced) :
    Evicts ph n m (pruneWithFailSafeOption ph failSafe n m) := by
  induction n generalizing m with
  | zero =>
    have hkept : m.lru = m.lru.take (m.lru.length - 0) := List.take_length.symm
    exact ⟨h, rfl, ⟨0, by simp, Nat.le_refl 0, fun _ => rfl, hkept⟩, fun _ => (List.append_nil _).symm, fun _ => rfl⟩
  | succ n ih =>
    rw [pruneWithFailSafeOption]
    cases hp : m.lru.getLast? with
    | none =>
      have hnil : m.lru = [] := List.getLast?_eq_none_iff.1 hp
      have hkept : m.lru = m.lru.take (m.lru.length - (n + 1)) := by simp [hnil]
      exact ⟨h, rfl, ⟨n + 1, by simp, Nat.le_refl _, fun _ => rfl, hkept⟩, fun _ => (List.append_nil _).symm, fun _ => rfl⟩
    | some p =>
      have hlru : m.lru = m.lru.dropLast ++ [p] := (List.dropLast_append_getLast? p hp).symm
      have hpop : (m.popBack p).lru = m.lru.take (m.lru.length - 1) := List.dropLast_eq_take
      have hlength : (m.popBack p).lru.length = m.lru.length - 1 := List.length_dropLast
      -- what the loop does behind the first node
      have hnext := ih (m.popBack p) (h.popBack hp)
      obtain ⟨k, -, hle, hall, hkept⟩ := hnext.kept
      have hkept' : (pruneWithFailSafeOption ph failSafe n (m.popBack p)).map.lru = m.lru.take (m.lru.length - (k + 1)) := by
        rw [hkept, hlength, hpop, List.take_take]
        congr 1
        omega
      have hmore : min (n + 1) 1 ≤ k + 1 ∧ k + 1 ≤ n + 1 := by omega
      cases ph with
      | none =>
        exact ⟨hnext.synced, hnext.same, ⟨k + 1, hmore.1, hmore.2, fun ht => by rw [hall ht], hkept'⟩, nofun, hnext.silent⟩
      | some hook =>
        dsimp only
        split_ifs with hthrow
        · have hthrown : true = false → 1 = n + 1 := nofun
          exact ⟨h.popBack hp, rfl, ⟨1, by omega, Nat.le_add_left 1 n, hthrown, hpop⟩, fun _ => hlru, nofun⟩
        · refine ⟨hnext.synced, hnext.same, ⟨k + 1, hmore.1, hmore.2, fun ht => by rw [hall ht], hkept'⟩, fun hsome => ?_, nofun⟩
          rw [List.reverse_cons, ← List.append_assoc, ← hnext.called hsome]
          exact hlru

section

variable {ph : Option (PruneHookCall K V)} {n : Nat} {m : EvictingCacheMap K V} {r : Pruned K V}

theorem Evicts.maxSize_eq (h : Evicts ph n m r) : r.map.maxSize = m.maxSize := by rw [h.same]

theorem Evicts.clearSize_eq (h : Evicts ph n m r) : r.map.clearSize = m.clearSize := by rw [h.same]

theorem Evicts.length_le (h : Evicts ph n m r) : r.map.lru.length ≤ m.lru.length - min n 1 := by
  obtain ⟨k, hk, -, -, hkept⟩ := h.kept
  rw [hkept, List.length_take]
  omega

end

/-! ### The bound -/

/-- The clear size is positive, and where there is a bound it is kept. -/
structure Bounded (m : EvictingCacheMap K V) : Prop where
  synced : m.Synced
  clearSize : 0 < m.clearSize
  bound : m.maxSize ≠ 0 → m.lru.length ≤ m.maxSize

theorem Bounded.of_evicts {ph : Option (PruneHookCall K V)} {n : Nat} {m : EvictingCacheMap K V} {r : Pruned K V}
    (h : Evicts ph n m r) (hclear : 0 < m.clearSize) (hbound : m.maxSize ≠ 0 → m.lru.length - min n 1 ≤ m.maxSize) : r.map.Bounded := by
  refine ⟨h.synced, ?_, fun hmax => ?_⟩
  · rw [h.clearSize_eq]
    exact hclear
  · rw [h.maxSize_eq] at hmax ⊢
    exact h.length_le.trans (hbound hmax)

theorem Bounded.prune {m : EvictingCacheMap K V} (h : m.Bounded) (n : Nat) (pruneHook : Option (PruneHookCall K V)) :
    (m.prune n pruneHook).map.Bounded :=
  .of_evicts (prune_evicts _ _ _ _ h.synced) h.clearSize fun hmax => (Nat.sub_le _ _).trans (h.bound hmax)

theorem Bounded.set {m : EvictingCacheMap K V} (h : m.Bounded) (key : K) (value : V) (promoted : Bool)
    (pruneHook : Option (PruneHookCall K V)) : (m.set key value promoted pruneHook).map.Bounded := by
  unfold EvictingCacheMap.set
  by_cases hkey : key ∈ m.index
  · -- the key is there: its node has another value, and may go to the front
    have hassign : ({ m with lru := m.lru.map fun p => if p.1 = key then (key, value) else p } : EvictingCacheMap K V).Synced := by
      refine ⟨?_, ?_⟩
      · rw [map_fst_assign]
        exact h.synced.nodup
      · rw [map_fst_assign]
        exact h.synced.index
    rw [if_pos hkey]
    dsimp only
    split_ifs with hpromoted
    · refine ⟨hassign.promote hkey, h.clearSize, fun hmax => ?_⟩
      rw [length_promote hassign hkey, List.length_map]
      exact h.bound hmax
    · refine ⟨hassign, h.clearSize, fun hmax => ?_⟩
      rw [List.length_map]
      exact h.bound hmax
  · have hinsert := h.synced.insert hkey value
    rw [if_neg hkey]
    dsimp only
    split_ifs with hover
    · -- one node is too many, and at least one is taken out, even if the hook throws
      refine .of_evicts (prune_evicts _ _ _ _ hinsert) h.clearSize fun hmax => ?_
      have hclear := h.clearSize
      have hbound := h.bound hmax
      simp only [List.length_cons]
      omega
    · refine ⟨hinsert, h.clearSize, fun hmax => ?_⟩
      rw [← hinsert.size_eq]
      exact Nat.not_lt.1 fun hlt => hover ⟨Nat.pos_of_ne_zero hmax, hlt⟩

theorem Bounded.setMaxSize {m : EvictingCacheMap K V} (h : m.Bounded) (maxSize : Nat) (pruneHook : Option (PruneHookCall K V)) :
    (m.setMaxSize maxSize pruneHook).map.Bounded := by
  unfold EvictingCacheMap.setMaxSize
  split_ifs with hless
  · dsimp only
    split_ifs with hthrown
    · exact h.prune _ pruneHook
    · have hevicts := prune_evicts (pruneHook.or m.pruneHook) false (max (m.size - maxSize) m.clearSize) m h.synced
      obtain ⟨k, -, -, hall, hkept⟩ := hevicts.kept
      have hk := hall (Bool.not_eq_true _ ▸ hthrown)
      refine ⟨⟨hevicts.synced.nodup, hevicts.synced.index⟩, (h.prune _ pruneHook).clearSize, fun _ => ?_⟩
      show (pruneWithFailSafeOption (pruneHook.or m.pruneHook) false (max (m.size - maxSize) m.clearSize) m).map.lru.length ≤ maxSize
      rw [hkept, hk, List.length_take, h.synced.size_eq]
      omega
  · refine ⟨⟨h.synced.nodup, h.synced.index⟩, h.clearSize, fun hmax => ?_⟩
    rw [← h.synced.size_eq]
    exact Nat.not_lt.1 fun hlt => hless ⟨hmax, hlt⟩

theorem findWithoutPromotion_iff {m : EvictingCacheMap K V} (h : m.Synced) {key : K} {p : K × V} :
    m.findWithoutPromotion key = some p ↔ p ∈ m.lru ∧ p.1 = key := by
  unfold findWithoutPromotion node
  constructor
  · intro hfind
    split_ifs at hfind with hkey
    have hfound := List.find?_some hfind
    exact ⟨List.mem_of_find?_eq_some hfind, of_decide_eq_true hfound⟩
  · rintro ⟨hp, rfl⟩
    have hkey : p.1 ∈ m.index := by
      rw [h.index, List.mem_toFinset]
      exact List.mem_map_of_mem hp
    rw [if_pos hkey]
    cases hq : m.lru.find? fun q => q.1 = p.1 with
    | none => exact absurd (decide_eq_true rfl) (List.find?_eq_none.1 hq p hp)
    | some q =>
      have hfound := List.find?_some hq
      exact congrArg some (List.inj_on_of_nodup_map h.nodup (List.mem_of_find?_eq_some hq) hp (of_decide_eq_true hfound))

theorem find_fst (m : EvictingCacheMap K V) (key : K) : (m.find key).1 = m.findWithoutPromotion key := by
  unfold find
  cases m.findWithoutPromotion key <;> rfl

theorem get_iff {m : EvictingCacheMap K V} (h : m.Synced) {key : K} {v : V} :
    ((m.get key).1 = .ok v ↔ (key, v) ∈ m.lru) ∧ (m.getWithoutPromotion key = .ok v ↔ (key, v) ∈ m.lru) ∧
    (m.contains key = true ↔ ∃ w, (key, w) ∈ m.lru) := by
  have hvalue : value (m.findWithoutPromotion key) = .ok v ↔ (key, v) ∈ m.lru := by
    constructor
    · intro hv
      cases hp : m.findWithoutPromotion key with
      | none =>
        rw [hp] at hv
        cases hv
      | some p =>
        rw [hp] at hv
        cases hv
        obtain ⟨hmem, rfl⟩ := (findWithoutPromotion_iff h).1 hp
        exact hmem
    · intro hmem
      rw [(findWithoutPromotion_iff h).2 ⟨hmem, rfl⟩]
      rfl
  refine ⟨?_, hvalue, ?_⟩
  · rw [get, find_fst]
    exact hvalue
  · rw [contains, decide_eq_true_iff, h.index, List.mem_toFinset, List.mem_map]
    constructor
    · rintro ⟨⟨k, w⟩, hmem, rfl⟩
      exact ⟨w, hmem⟩
    · rintro ⟨w, hmem⟩
      exact ⟨_, hmem, rfl⟩

theorem mem_index_of_find {m : EvictingCacheMap K V} {key : K} {p : K × V} (h : m.findWithoutPromotion key = some p) :
    p.1 = key ∧ key ∈ m.index := by
  unfold findWithoutPromotion at h
  split_ifs at h with hkey
  have hfound := List.find?_some h
  exact ⟨of_decide_eq_true hfound, hkey⟩

theorem Bounded.step {m : EvictingCacheMap K V} (h : m.Bounded) {call : Call K V} (hclear : ∀ n, call = .setClearSize n → 0 < n) :
    (m.step call).Bounded := by
  cases call with
  | set key value promoted pruneHook => exact h.set key value promoted pruneHook
  | find key =>
    show (m.find key).2.Bounded
    unfold EvictingCacheMap.find
    split
    · exact h
    · next p hp =>
      obtain ⟨rfl, hkey⟩ := mem_index_of_find hp
      refine ⟨h.synced.promote hkey, h.clearSize, fun hmax => ?_⟩
      rw [length_promote h.synced hkey]
      exact h.bound hmax
  | erase key =>
    show (m.erase key).2.Bounded
    unfold EvictingCacheMap.erase
    split_ifs with hkey
    · exact ⟨h.synced.filter key, h.clearSize, fun hmax => (List.length_filter_le _ _).trans (h.bound hmax)⟩
    · exact h
  | prune n pruneHook => exact h.prune n pruneHook
  | clear pruneHook => exact h.prune m.size pruneHook
  | setMaxSize maxSize pruneHook => exact h.setMaxSize maxSize pruneHook
  | setClearSize n => exact ⟨⟨h.synced.nodup, h.synced.index⟩, hclear n rfl, h.bound⟩
  | setPruneHook pruneHook => exact ⟨⟨h.synced.nodup, h.synced.index⟩, h.clearSize, h.bound⟩

theorem Bounded.run {m : EvictingCacheMap K V} (h : m.Bounded) {calls : List (Call K V)}
    (hclear : ∀ n, .setClearSize n ∈ calls → 0 < n) : (m.run calls).Bounded := by
  induction calls generalizing m with
  | nil => exact h
  | cons call calls ih =>
    refine ih (h.step fun n hn => hclear n (hn ▸ List.mem_cons_self)) fun n hn => hclear n (List.mem_cons_of_mem _ hn)

/-- **The bound is kept** in every run, from any clear size and through any hooks that throw, if no clear size is ever zero; and the
index and the list go together. -/
theorem run_bounded {maxSize clearSize : Nat} (hclear : 0 < clearSize) {calls : List (Call K V)}
    (hcalls : ∀ n, .setClearSize n ∈ calls → 0 < n) {m : EvictingCacheMap K V} (hm : m = run { maxSize, clearSize } calls) :
    m.Synced ∧ m.size = m.lru.length ∧ (m.maxSize ≠ 0 → m.size ≤ m.maxSize) := by
  have hstart : Bounded ({ maxSize, clearSize } : EvictingCacheMap K V) := ⟨⟨List.nodup_nil, rfl⟩, hclear, fun _ => Nat.zero_le _⟩
  have hrun := hstart.run hcalls
  rw [← hm] at hrun
  refine ⟨hrun.synced, hrun.synced.size_eq, fun hmax => ?_⟩
  rw [hrun.synced.size_eq]
  exact hrun.bound hmax

theorem run_bounded_two : (run ({ maxSize := 2 } : EvictingCacheMap Nat Nat)
    [.set 1 1 true none, .set 2 2 true none, .set 3 3 true (some fun _ => true)]).size ≤ 2 :=
  (run_bounded (by decide) (fun n hn => by simp at hn) rfl).2.2 (by decide)

theorem size_clearSize_zero (maxSize : Nat) {keys : List K} (hkeys : keys.Nodup) (value : V) :
    (run { maxSize, clearSize := 0 } (keys.map fun key => .set key value true none)).size = keys.length := by
  suffices hgrows : ∀ m : EvictingCacheMap K V, m.clearSize = 0 → (∀ key ∈ keys, key ∉ m.index) →
      (m.run (keys.map fun key => .set key value true none)).size = m.size + keys.length by
    rw [hgrows _ rfl fun _ _ => Finset.notMem_empty _]
    exact Nat.zero_add _
  induction keys with
  | nil => exact fun m _ _ => rfl
  | cons key keys ih =>
    intro m hclear hfresh
    obtain ⟨hkey, hrest⟩ := List.nodup_cons.1 hkeys
    obtain ⟨hnew, hnews⟩ := List.forall_mem_cons.1 hfresh
    let m' : EvictingCacheMap K V := { m with index := insert key m.index, lru := (key, value) :: m.lru }
    have hstep : m.step (.set key value true none) = m' := by
      show (m.set key value true none).map = m'
      unfold EvictingCacheMap.set
      rw [if_neg hnew]
      dsimp only
      split_ifs with hover
      · show (m'.prune m.clearSize none).map = m'
        rw [hclear, EvictingCacheMap.prune, pruneWithFailSafeOption]
      · rfl
    have hsize : m'.size = m.size + 1 := Finset.card_insert_of_notMem hnew
    have hrun := ih hrest m' hclear fun k hk hmem => ?_
    · show ((m.step (.set key value true none)).run _).size = _
      rw [hstep, hrun, hsize, List.length_cons]
      omega
    · obtain rfl | hmem := Finset.mem_insert.1 hmem
      · exact hkey hk
      · exact hnews k hk hmem

/-! ### What is least recently used -/

/-- The nodes that were used, the last one first; of those with one key only the last one counts. -/
def recent : List (K × V) → List (K × V)
  | [] => []
  | p :: ps => p :: (recent ps).filter fun q => q.1 ≠ p.1

theorem nodup_recent (ps : List (K × V)) : ((recent ps).map Prod.fst).Nodup := by
  induction ps with
  | nil => exact List.nodup_nil
  | cons p ps ih =>
    refine List.nodup_cons.2 ⟨fun hmem => ?_, ih.sublist (List.filter_sublist.map _)⟩
    obtain ⟨q, hq, heq⟩ := List.mem_map.1 hmem
    exact absurd heq (of_decide_eq_true (List.mem_filter.1 hq).2)

theorem filter_fresh {key : K} {ps : List (K × V)} (h : key ∉ ps.map Prod.fst) : (ps.filter fun q => q.1 ≠ key) = ps := by
  refine List.filter_eq_self.2 fun q hq => decide_eq_true ?_
  rintro rfl
  exact h (List.mem_map_of_mem hq)

/-- No limit is written as 0. -/
def cut (maxSize : Nat) (ps : List (K × V)) : List (K × V) := if maxSize = 0 then ps else ps.take maxSize

omit [DecidableEq K] in
theorem cut_of_le {maxSize : Nat} {ps : List (K × V)} (h : maxSize ≠ 0 → ps.length ≤ maxSize) : cut maxSize ps = ps := by
  unfold cut
  split_ifs with hmax
  · rfl
  · exact List.take_of_length_le (h hmax)

theorem take_filter {ps : List (K × V)} (h : (ps.map Prod.fst).Nodup) (key : K) (n : Nat) :
    ((ps.take (n + 1)).filter fun q => q.1 ≠ key).take n = (ps.filter fun q => q.1 ≠ key).take n := by
  induction ps generalizing n with
  | nil => rfl
  | cons p ps ih =>
    obtain ⟨hfresh, hnodup⟩ := List.nodup_cons.1 h
    rw [List.take_succ_cons]
    by_cases hp : p.1 = key
    · rw [List.filter_cons_of_neg (by simpa using hp), List.filter_cons_of_neg (by simpa using hp)]
      subst hp
      have htake : p.1 ∉ (ps.take n).map Prod.fst := fun hmem => hfresh (((List.take_sublist n ps).map _).subset hmem)
      rw [filter_fresh hfresh, filter_fresh htake, List.take_take, Nat.min_self]
    · rw [List.filter_cons_of_pos (by simpa using hp), List.filter_cons_of_pos (by simpa using hp)]
      obtain - | n := n
      · rfl
      · rw [List.take_succ_cons, List.take_succ_cons, ih hnodup]

theorem cut_cons {ps : List (K × V)} (h : (ps.map Prod.fst).Nodup) (maxSize : Nat) (p : K × V) :
    cut maxSize (p :: (cut maxSize ps).filter fun q => q.1 ≠ p.1) = cut maxSize (p :: ps.filter fun q => q.1 ≠ p.1) := by
  unfold cut
  split_ifs with hmax
  · rfl
  · obtain ⟨n, rfl⟩ := Nat.exists_eq_succ_of_ne_zero hmax
    rw [List.take_succ_cons, List.take_succ_cons, take_filter h]

theorem filter_assign (key : K) (value : V) (lru : List (K × V)) :
    ((lru.map fun p => if p.1 = key then (key, value) else p).filter fun q => q.1 ≠ key) = lru.filter fun q => q.1 ≠ key := by
  induction lru with
  | nil => rfl
  | cons p lru ih =>
    rw [List.map_cons]
    by_cases hp : p.1 = key
    · rw [if_pos hp, List.filter_cons_of_neg (by simp), List.filter_cons_of_neg (by simpa using hp), ih]
    · rw [if_neg hp, List.filter_cons_of_pos (by simpa using hp), List.filter_cons_of_pos (by simpa using hp), ih]

/-- A `set` that promotes, one node at a time being evicted: the node is in front of the others, and what is too
much is cut off. -/
theorem set_spec {m : EvictingCacheMap K V} (h : m.Bounded) (hclear : m.clearSize = 1) (key : K) (value : V)
    (pruneHook : Option (PruneHookCall K V)) : let r := (m.set key value true pruneHook).map
    r.lru = cut m.maxSize ((key, value) :: m.lru.filter fun q => q.1 ≠ key) ∧ r.maxSize = m.maxSize ∧ r.clearSize = m.clearSize := by
  unfold EvictingCacheMap.set
  by_cases hkey : key ∈ m.index
  · rw [if_pos hkey]
    refine ⟨?_, rfl, rfl⟩
    show (key, value) :: ((m.lru.map fun p => if p.1 = key then (key, value) else p).filter fun q => q.1 ≠ key) = _
    rw [filter_assign, cut_of_le fun hmax => ?_]
    rw [show ((key, value) :: m.lru.filter fun q => q.1 ≠ key).length = m.lru.length from length_promote h.synced hkey]
    exact h.bound hmax
  · have hinsert := h.synced.insert hkey value
    have hfresh : key ∉ m.lru.map Prod.fst := by
      rwa [h.synced.index, List.mem_toFinset] at hkey
    rw [if_neg hkey, filter_fresh hfresh]
    dsimp only
    split_ifs with hover
    · obtain ⟨hpos, hlt⟩ := hover
      rw [hinsert.size_eq, List.length_cons] at hlt
      have hbound := h.bound hpos.ne'
      have hevicts := prune_evicts (pruneHook.or m.pruneHook) false m.clearSize _ hinsert
      obtain ⟨k, hk, hle, -, hkept⟩ := hevicts.kept
      refine ⟨hkept.trans ?_, ?_, ?_⟩
      · rw [cut, if_neg hpos.ne', List.length_cons]
        congr 1
        omega
      · exact hevicts.maxSize_eq
      · exact hevicts.clearSize_eq
    · refine ⟨(cut_of_le fun hmax => ?_).symm, rfl, rfl⟩
      rw [← hinsert.size_eq]
      exact Nat.not_lt.1 fun hlt => hover ⟨Nat.pos_of_ne_zero hmax, hlt⟩

/-- What uses a node. -/
inductive Use (K V : Type)
  | set (key : K) (value : V) (pruneHook : Option (PruneHookCall K V))
  | find (key : K)

def Use.call : Use K V → Call K V
  | .set key value pruneHook => .set key value true pruneHook
  | .find key => .find key

/-- What a cache keeps of the nodes that were used, the last one first. -/
def kept (maxSize : Nat) (log : List (K × V)) : List (K × V) := cut maxSize (recent log)

/-- The node that is used: `find` uses the one of its key, if it is kept. -/
def Use.node (maxSize : Nat) (log : List (K × V)) : Use K V → Option (K × V)
  | .set key value _ => some (key, value)
  | .find key => (kept maxSize log).find? fun p => p.1 = key

/-- The nodes that were used after any uses, the last one first. -/
def history (maxSize : Nat) (log : List (K × V)) : List (Use K V) → List (K × V)
  | [] => log
  | u :: us => history maxSize ((u.node maxSize log).toList ++ log) us

/-- The map has what the log keeps. -/
structure Tracks (maxSize : Nat) (m : EvictingCacheMap K V) (log : List (K × V)) : Prop where
  bounded : m.Bounded
  max : m.maxSize = maxSize
  clear : m.clearSize = 1
  lru : m.lru = kept maxSize log

theorem Synced.findWithoutPromotion_eq {m : EvictingCacheMap K V} (h : m.Synced) (key : K) :
    m.findWithoutPromotion key = m.lru.find? fun p => p.1 = key := by
  unfold findWithoutPromotion
  split_ifs with hkey
  · rfl
  · rw [h.index, List.mem_toFinset] at hkey
    refine (List.find?_eq_none.2 fun p hp heq => hkey ?_).symm
    rw [← of_decide_eq_true heq]
    exact List.mem_map_of_mem hp

theorem Tracks.find_eq {maxSize : Nat} {m : EvictingCacheMap K V} {log : List (K × V)} (h : Tracks maxSize m log) (key : K) :
    (m.find key).1 = (kept maxSize log).find? fun p => p.1 = key := by
  rw [find_fst, h.bounded.synced.findWithoutPromotion_eq, h.lru]

theorem Tracks.step {maxSize : Nat} {m : EvictingCacheMap K V} {log : List (K × V)} (h : Tracks maxSize m log) (u : Use K V) :
    Tracks maxSize (m.step u.call) ((u.node maxSize log).toList ++ log) := by
  have hbounded : (m.step u.call).Bounded := h.bounded.step fun n hn => by cases u <;> cases hn
  cases u with
  | set key value pruneHook =>
    obtain ⟨hlru, hmax, hclear⟩ := set_spec h.bounded h.clear key value pruneHook
    refine ⟨hbounded, hmax.trans h.max, hclear.trans h.clear, hlru.trans ?_⟩
    rw [h.max, h.lru]
    exact cut_cons (nodup_recent log) maxSize (key, value)
  | find key =>
    show Tracks maxSize (m.find key).2 (((kept maxSize log).find? fun p => p.1 = key).toList ++ log)
    rw [← h.find_eq key]
    cases hp : m.findWithoutPromotion key with
    | none =>
      have hfind : m.find key = (none, m) := by rw [EvictingCacheMap.find, hp]
      rw [hfind]
      exact h
    | some p =>
      have hfind : m.find key = (some p, m.promote p) := by rw [EvictingCacheMap.find, hp]
      obtain ⟨rfl, hkey⟩ := mem_index_of_find hp
      have hlength := length_promote h.bounded.synced hkey
      replace hbounded : (m.find p.1).2.Bounded := hbounded
      rw [hfind] at hbounded ⊢
      refine ⟨hbounded, h.max, h.clear, ?_⟩
      have hcut : cut maxSize (p :: m.lru.filter fun q => q.1 ≠ p.1) = p :: m.lru.filter fun q => q.1 ≠ p.1 :=
        cut_of_le fun hmax => hlength.le.trans (h.max ▸ h.bounded.bound (h.max ▸ hmax))
      refine hcut.symm.trans ?_
      rw [h.lru]
      exact cut_cons (nodup_recent log) maxSize p

theorem Tracks.run {maxSize : Nat} {m : EvictingCacheMap K V} {log : List (K × V)} (h : Tracks maxSize m log) (us : List (Use K V)) :
    Tracks maxSize (m.run (us.map Use.call)) (history maxSize log us) := by
  induction us generalizing m log with
  | nil => exact h
  | cons u us ih => exact ih (h.step u)

/-- **The least recently used are evicted**: after any uses, one node at a time being evicted, the cache has the
`maxSize` nodes that were used last, each with its last value and in this order, or all of them where there is
no limit; and `find` returns the node of its key exactly if it is one of them. -/
theorem lru_recent (maxSize : Nat) (us : List (Use K V)) :
    let m := run ({ maxSize } : EvictingCacheMap K V) (us.map Use.call)
    m.lru = kept maxSize (history maxSize [] us) ∧
      ∀ key, (m.find key).1 = (kept maxSize (history maxSize [] us)).find? fun p => p.1 = key := by
  have hstart : Bounded ({ maxSize } : EvictingCacheMap K V) := ⟨⟨List.nodup_nil, rfl⟩, Nat.one_pos, fun _ => Nat.zero_le _⟩
  have htracks : Tracks maxSize ({ maxSize } : EvictingCacheMap K V) [] := by
    refine ⟨hstart, rfl, rfl, ?_⟩
    rw [kept, recent, cut, List.take_nil, ite_self]
  have hrun := htracks.run us
  exact ⟨hrun.lru, hrun.find_eq⟩

end EvictingCacheMap

end Raster
