import Mathlib.Data.List.Perm.Subperm
import Mathlib.Data.List.Nodup
import Mathlib.Data.List.Range

/-!
# Group keys

`raster/parallel/Group.h`: a table of counters with a stack of free keys. `create` takes a key for a
group of a given size, `finish` counts one member down and returns the key to the stack with the last
one. When the stack is empty the capacity is doubled.

`Group.Inv` is the invariant of the table: the free keys are exactly the keys whose counter is zero.
-/

namespace Raster

structure Group where
  capacity : Nat
  /-- The stack of available keys, its top first. -/
  keys : List Nat
  counts : List Nat
  deriving DecidableEq, Repr

namespace Group

/-- `groupCounts_[group]`. -/
def countAt (g : Group) (group : Nat) : Nat := g.counts.getD group 0

/-- `std::vector::resize` with zeros. -/
def resize (counts : List Nat) (n : Nat) : List Nat := counts.take n ++ List.replicate (n - counts.length) 0

/-- Pushes the keys from the capacity down to `bound`, which ends up on top. -/
def increase (g : Group) (bound : Nat) : Group :=
  { g with
    keys := List.range' bound (g.capacity + 1 - bound) ++ g.keys
    counts := resize g.counts (g.capacity + 1) }

/-- The constructor. -/
def make (capacity : Nat) : Group := increase { capacity, keys := [], counts := [] } 1

/-- The doubling at the start of `create`. -/
def reserve (g : Group) : Group :=
  if g.keys = [] then increase { g with capacity := g.capacity * 2 } g.counts.length else g

/-- `none` where the assertion fails or the stack is empty after all. -/
def create (g : Group) (groupSize : Nat) : Option (Nat × Group) :=
  let g := g.reserve
  if 0 < groupSize then
    match g.keys with
    | [] => none
    | group :: keys => some (group, { g with keys, counts := g.counts.set group groupSize })
  else none

/-- Whether the group is complete; `none` where the assertion fails. -/
def finish (g : Group) (group : Nat) : Option (Bool × Group) :=
  if group = 0 then some (true, g)
  else if 0 < g.countAt group then
    let counts := g.counts.set group (g.countAt group - 1)
    if g.countAt group - 1 ≤ 0 then some (true, { g with counts, keys := group :: g.keys })
    else some (false, { g with counts })
  else none

/-- The keys in use. -/
def count (g : Group) : Nat := g.capacity - g.keys.length

/-! ### The invariant -/

/-- The free keys are the keys with a zero counter. -/
structure Inv (g : Group) : Prop where
  pos : 0 < g.capacity
  length : g.counts.length = g.capacity + 1
  nodup : g.keys.Nodup
  mem_keys : ∀ k, k ∈ g.keys ↔ (1 ≤ k ∧ k ≤ g.capacity) ∧ g.countAt k = 0

theorem countAt_set {counts : List Nat} {k n : Nat} (hk : k < counts.length) (i : Nat) :
    (counts.set k n).getD i 0 = if i = k then n else counts.getD i 0 := by
  simp only [List.getD_eq_getElem?_getD, List.getElem?_set]
  split_ifs with h1 h2 h2
  · rfl
  · exact absurd h1.symm h2
  · exact absurd h2.symm h1
  · rfl

theorem getD_resize {counts : List Nat} {n : Nat} (hn : counts.length ≤ n) (i : Nat) :
    (resize counts n).getD i 0 = counts.getD i 0 := by
  simp only [resize, List.take_of_length_le hn, List.getD_eq_getElem?_getD, List.getElem?_append,
    List.getElem?_replicate]
  split_ifs with h1 h2
  · rfl
  · rw [List.getElem?_eq_none (by omega)]
    rfl
  · rw [List.getElem?_eq_none (by omega)]

theorem length_resize {counts : List Nat} {n : Nat} (hn : counts.length ≤ n) : (resize counts n).length = n := by
  simp only [resize, List.take_of_length_le hn, List.length_append, List.length_replicate]
  omega

theorem inv_make {capacity : Nat} (hpos : 0 < capacity) : (make capacity).Inv := by
  have hzero : ∀ k, (make capacity).countAt k = 0 := fun k => getD_resize (show ([] : List Nat).length ≤ _ by simp) k
  refine ⟨hpos, length_resize (by simp), ?_, fun k => ?_⟩
  · simpa [make, increase] using List.nodup_range'
  · rw [hzero]
    simp only [make, increase, List.append_nil, List.mem_range'_1, and_true]
    omega

theorem Inv.length_keys_le {g : Group} (h : g.Inv) : g.keys.length ≤ g.capacity := by
  have hsub : g.keys ⊆ List.range' 1 g.capacity := fun k hk => by
    rw [List.mem_range'_1]
    have := ((h.mem_keys k).mp hk).1
    omega
  simpa using (h.nodup.subperm hsub).length_le

theorem Inv.reserve {g : Group} (h : g.Inv) : g.reserve.Inv := by
  unfold Group.reserve
  split_ifs with hempty
  · have hlen := h.length
    have hpos := h.pos
    have hcount := fun k => getD_resize (show g.counts.length ≤ g.capacity * 2 + 1 by omega) k
    refine ⟨?_, ?_, ?_, fun k => ?_⟩
    · show 0 < g.capacity * 2
      omega
    · exact length_resize (show g.counts.length ≤ g.capacity * 2 + 1 by omega)
    · simpa [increase, hempty] using List.nodup_range'
    · have hk := h.mem_keys k
      simp only [hempty, List.not_mem_nil, false_iff] at hk
      simp only [increase, countAt, hempty, List.append_nil, List.mem_range'_1, hcount]
      constructor
      · intro hr
        refine ⟨by omega, ?_⟩
        rw [List.getD_eq_getElem?_getD, List.getElem?_eq_none (by omega)]
        rfl
      · rintro ⟨hr, hz⟩
        have : ¬ (1 ≤ k ∧ k ≤ g.capacity) := fun hle => hk ⟨hle, hz⟩
        omega
  · exact h

theorem reserve_countAt {g : Group} (h : g.Inv) (k : Nat) : g.reserve.countAt k = g.countAt k := by
  unfold Group.reserve
  split_ifs with hempty
  · have hlen := h.length
    exact getD_resize (show g.counts.length ≤ g.capacity * 2 + 1 by omega) k
  · rfl

theorem reserve_keys_ne_nil {g : Group} (h : g.Inv) : g.reserve.keys ≠ [] := by
  unfold Group.reserve
  split_ifs with hempty
  · have hlen := h.length
    have hpos := h.pos
    simp only [increase, hempty, List.append_nil, ne_eq, List.range'_eq_nil_iff]
    omega
  · exact hempty

theorem reserve_count {g : Group} (h : g.Inv) : g.reserve.count = g.count := by
  unfold Group.reserve
  split_ifs with hempty
  · have hlen := h.length
    simp only [count, increase, hempty, List.append_nil, List.length_range', List.length_nil]
    omega
  · rfl

/-! ### The two operations -/

/-- What `create` does: the key was not in use, its counter is set and no other one changes. -/
structure Created (g : Group) (groupSize group : Nat) (g' : Group) : Prop where
  inv : g'.Inv
  key_ne_zero : group ≠ 0
  unused : g.countAt group = 0
  countAt_eq : ∀ k, g'.countAt k = if k = group then groupSize else g.countAt k
  count_eq : g'.count = g.count + 1

theorem create_spec {g : Group} (h : g.Inv) {groupSize : Nat} (hsize : 0 < groupSize) :
    ∃ group g', g.create groupSize = some (group, g') ∧ Created g groupSize group g' := by
  have hr := h.reserve
  obtain ⟨group, keys, hkeys⟩ := List.exists_cons_of_ne_nil (reserve_keys_ne_nil h)
  have hgroup := (hr.mem_keys group).mp (by simp [hkeys])
  have hnodup : (group :: keys).Nodup := hkeys ▸ hr.nodup
  have hlt : group < g.reserve.counts.length := by
    have := hr.length
    omega
  have hset := countAt_set (n := groupSize) hlt
  have hcreate : g.create groupSize =
      some (group, { g.reserve with keys, counts := g.reserve.counts.set group groupSize }) := by
    simp only [create, if_pos hsize, hkeys]
  refine ⟨group, _, hcreate, ⟨?_, ?_, ?_, ?_, ?_⟩⟩
  · refine ⟨hr.pos, by simpa using hr.length, (List.nodup_cons.mp hnodup).2, fun k => ?_⟩
    simp only [countAt, hset]
    have hk := hr.mem_keys k
    rw [hkeys, List.mem_cons] at hk
    split_ifs with hkg
    · subst hkg
      simp only [(List.nodup_cons.mp hnodup).1, false_iff]
      omega
    · simpa [hkg, countAt] using hk
  · omega
  · rw [← reserve_countAt h]
    exact hgroup.2
  · intro k
    simp only [countAt, hset]
    exact if_congr Iff.rfl rfl (reserve_countAt h k)
  · have hle := hr.length_keys_le
    rw [← reserve_count h]
    simp only [count, hkeys, List.length_cons] at hle ⊢
    omega

/-- What `finish` does on a group in use: one member less, and the key is free again with the last. -/
structure Finished (g : Group) (group : Nat) (done : Bool) (g' : Group) : Prop where
  inv : g'.Inv
  done_iff : done = true ↔ g.countAt group = 1
  countAt_eq : ∀ k, g'.countAt k = if k = group then g.countAt k - 1 else g.countAt k
  keys_eq : g'.keys = if done then group :: g.keys else g.keys
  count_eq : g'.count = if done then g.count - 1 else g.count

theorem finish_spec {g : Group} (h : g.Inv) {group : Nat} (hgroup : group ≠ 0) (hcount : 0 < g.countAt group) :
    ∃ done g', g.finish group = some (done, g') ∧ Finished g group done g' := by
  have hlt : group < g.counts.length := by
    by_contra hge
    rw [countAt, List.getD_eq_getElem?_getD, List.getElem?_eq_none (by omega)] at hcount
    exact absurd hcount (by simp)
  have hset := countAt_set (n := g.countAt group - 1) hlt
  have hlen := h.length
  have hfree : group ∉ g.keys := fun hmem => by
    have := ((h.mem_keys group).mp hmem).2
    omega
  have hcountAt : ∀ k, (g.counts.set group (g.countAt group - 1)).getD k 0 =
      if k = group then g.countAt k - 1 else g.countAt k := by
    intro k
    rw [hset]
    split_ifs with hk
    · rw [hk]
    · rfl
  by_cases hlast : g.countAt group - 1 ≤ 0
  · have hfinish : g.finish group = some (true,
        { g with counts := g.counts.set group (g.countAt group - 1), keys := group :: g.keys }) := by
      simp only [finish, if_neg hgroup, if_pos hcount, if_pos hlast]
    have hinv : Group.Inv
        { g with counts := g.counts.set group (g.countAt group - 1), keys := group :: g.keys } := by
      refine ⟨h.pos, by simpa using hlen, List.nodup_cons.mpr ⟨hfree, h.nodup⟩, fun k => ?_⟩
      show _ ↔ _ ∧ (g.counts.set group (g.countAt group - 1)).getD k 0 = 0
      rw [hcountAt, List.mem_cons, h.mem_keys k]
      split_ifs with hk
      · subst hk
        simp only [true_or, true_iff]
        omega
      · simp [hk]
    refine ⟨true, _, hfinish, ⟨hinv, ?_, hcountAt, rfl, ?_⟩⟩
    · simp only [true_iff]
      omega
    · have hle := hinv.length_keys_le
      simp only [count, List.length_cons, if_true] at hle ⊢
      omega
  · have hfinish : g.finish group = some (false,
        { g with counts := g.counts.set group (g.countAt group - 1) }) := by
      simp only [finish, if_neg hgroup, if_pos hcount, if_neg hlast]
    refine ⟨false, _, hfinish, ⟨?_, ?_, hcountAt, rfl, ?_⟩⟩
    · refine ⟨h.pos, by simpa using hlen, h.nodup, fun k => ?_⟩
      show _ ↔ _ ∧ (g.counts.set group (g.countAt group - 1)).getD k 0 = 0
      rw [hcountAt, h.mem_keys k]
      split_ifs with hk
      · subst hk
        omega
      · rfl
    · simp only [Bool.false_eq_true, false_iff]
      omega
    · simp [count]

end Group

end Raster
