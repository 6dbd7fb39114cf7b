import Raster.Parallel.DAG
import Mathlib.Data.List.GetD

/-!
# The cycle search is exact

`hasCycle` removes nodes without remaining in-edges until none is left. `Kahn g s visited` relates its
locals to the set of keys it is done with: `targets[v]` counts the edges into `v` from all other keys,
and it is 0 exactly for the visited keys and those on the stack. So the search visits every key all of
whose predecessors it visits, which is all of them when there is no cycle, and a key on a cycle is
never visited.
-/

namespace Raster.DAG

open Lib (Acyclic)

variable {E : Type}

namespace Search

/-- `targets[v]`. -/
def target (s : Search) (v : Nat) : Int := s.targets.getD v 0

theorem target_relax (s : Search) {next : Nat} (hnext : next < s.targets.length) (v : Nat) :
    (s.relax next).target v = s.target v - if v = next then 1 else 0 := by
  unfold relax target
  rw [getD_modify _ _ _ hnext]
  split_ifs
  · rfl
  · simp

theorem keys_relax (s : Search) {next : Nat} (hnext : next < s.targets.length) :
    (s.relax next).keys = if s.target next = 1 then next :: s.keys else s.keys := by
  unfold relax target
  simp only [getD_modify _ _ _ hnext, if_true, sub_eq_zero]

@[simp] theorem length_targets_relax (s : Search) (next : Nat) :
    (s.relax next).targets.length = s.targets.length := by
  simp [relax]

/-- What the inner loop over `edges` leaves behind. -/
structure Relaxed (s : Search) (edges : List Nat) (s' : Search) : Prop where
  nexts_eq : s'.nexts = s.nexts
  length_eq : s'.targets.length = s.targets.length
  target_eq : ∀ v, s'.target v = s.target v - edges.count v
  mem_keys : ∀ v, v ∈ s'.keys ↔ v ∈ s.keys ∨ v ∈ edges ∧ s.target v = edges.count v
  nodup : s'.keys.Nodup

theorem relaxed_foldl (edges : List Nat) (s : Search) (hlt : ∀ v ∈ edges, v < s.targets.length)
    (hle : ∀ v, (edges.count v : Int) ≤ s.target v) (hkeys : ∀ k ∈ s.keys, s.target k = 0)
    (hnodup : s.keys.Nodup) : Relaxed s edges (edges.foldl relax s) := by
  induction edges generalizing s with
  | nil => exact ⟨rfl, rfl, by simp, by simp, hnodup⟩
  | cons next edges ih =>
    have hnext := hlt next (by simp)
    have htarget := target_relax s hnext
    have hcount : ∀ v, ((next :: edges).count v : Int) = edges.count v + if v = next then 1 else 0 := by
      intro v
      rw [List.count_cons]
      by_cases hv : v = next
      · simp [hv]
      · simp [hv, Ne.symm hv]
    have hpos : 1 ≤ s.target next := by
      have := hle next
      rw [hcount, if_pos rfl] at this
      omega
    have hnot : next ∉ s.keys := fun hmem => by
      have := hkeys next hmem
      omega
    have hmem : ∀ v, v ∈ (s.relax next).keys ↔ v ∈ s.keys ∨ v = next ∧ s.target next = 1 := by
      intro v
      rw [keys_relax s hnext]
      split_ifs with h
      · simp [h, or_comm]
      · simp [h]
    have hrest := ih (s.relax next) (fun v hv => by simpa using hlt v (List.mem_cons_of_mem _ hv))
      (fun v => ?_) (fun k hk => ?_) ?_
    · refine ⟨hrest.nexts_eq, by simpa using hrest.length_eq, fun v => ?_, fun v => ?_, hrest.nodup⟩
      · rw [List.foldl_cons, hrest.target_eq, htarget, hcount]
        omega
      · rw [List.foldl_cons, hrest.mem_keys, hmem, htarget, hcount]
        have hle_v := hle v
        rw [hcount] at hle_v
        by_cases hv : v = next
        · subst hv
          simp only [hnot, false_or, true_and, if_true, List.mem_cons, true_or]
          have hzero : v ∉ edges → edges.count v = 0 := List.count_eq_zero_of_not_mem
          by_cases hve : v ∈ edges
          · simp only [hve, true_and]
            omega
          · have := hzero hve
            simp only [hve, false_and, or_false]
            omega
        · simp only [hv, false_and, or_false, if_false, List.mem_cons, false_or, sub_zero, add_zero]
    · have := hle v
      rw [hcount] at this
      rw [htarget]
      omega
    · rcases (hmem k).mp hk with hk | ⟨rfl, hone⟩
      · have hne : k ≠ next := fun h => hnot (h ▸ hk)
        rw [htarget, if_neg hne, hkeys k hk, sub_zero]
      · rw [htarget, if_pos rfl, hone, sub_self]
    · rw [keys_relax s hnext]
      split_ifs
      · exact List.nodup_cons.mpr ⟨hnot, hnodup⟩
      · exact hnodup

end Search

/-! ### The invariant of the outer loop -/

open Search (target)

/-- The locals of the search when `visited` are the keys it is done with. -/
structure Kahn (g : DAG E) (s : Search) (visited : Finset Nat) : Prop where
  visited_lt : ∀ v ∈ visited, v < g.size
  visited_acc : ∀ v ∈ visited, Acc g.Edge v
  nexts_eq : ∀ a, s.nexts.getD a [] = if a ∈ visited then [] else (g.node a).nexts
  nexts_length : s.nexts.length = g.size
  targets_length : s.targets.length = g.size
  target_eq : ∀ v, s.target v = ((∑ a ∈ Finset.range g.size \ visited, (g.node a).nexts.count v : Nat) : Int)
  zero_iff : ∀ v < g.size, s.target v = 0 ↔ v ∈ visited ∨ v ∈ s.keys
  keys_lt : ∀ k ∈ s.keys, k < g.size
  keys_new : ∀ k ∈ s.keys, k ∉ visited
  keys_nodup : s.keys.Nodup

namespace Kahn

variable {g : DAG E} {s : Search} {visited : Finset Nat}

theorem visited_of_target_zero (h : Kahn g s visited) {a v : Nat} (hv : s.target v = 0) (ha : a < g.size)
    (hav : g.Edge a v) : a ∈ visited := by
  rw [h.target_eq, Int.natCast_eq_zero, Finset.sum_eq_zero_iff] at hv
  by_contra hnot
  have hzero := hv a (Finset.mem_sdiff.mpr ⟨Finset.mem_range.mpr ha, hnot⟩)
  exact absurd hav (List.count_eq_zero.mp hzero)

theorem count_le_target (h : Kahn g s visited) {key : Nat} (hlt : key < g.size) (hnew : key ∉ visited)
    (v : Nat) : ((g.node key).nexts.count v : Int) ≤ s.target v := by
  rw [h.target_eq]
  have hmem : key ∈ Finset.range g.size \ visited :=
    Finset.mem_sdiff.mpr ⟨Finset.mem_range.mpr hlt, hnew⟩
  exact Int.ofNat_le.mpr (Finset.single_le_sum (f := fun a => (g.node a).nexts.count v)
    (fun _ _ => Nat.zero_le _) hmem)

theorem sum_insert {key : Nat} (hlt : key < g.size) (hnew : key ∉ visited) (v : Nat) :
    ∑ a ∈ Finset.range g.size \ visited, (g.node a).nexts.count v =
      (g.node key).nexts.count v + ∑ a ∈ Finset.range g.size \ insert key visited, (g.node a).nexts.count v := by
  have hmem : key ∈ Finset.range g.size \ visited :=
    Finset.mem_sdiff.mpr ⟨Finset.mem_range.mpr hlt, hnew⟩
  rw [Finset.sdiff_insert]
  exact (Finset.add_sum_erase _ (fun a => (g.node a).nexts.count v) hmem).symm

theorem visit (hg : g.Counted) {key : Nat} {keys : List Nat} (h : Kahn g s visited)
    (hkeys : s.keys = key :: keys) : Kahn g ({ s with keys }.visit key) (insert key visited) := by
  have hmem : key ∈ s.keys := by simp [hkeys]
  have hlt := h.keys_lt key hmem
  have hnew := h.keys_new key hmem
  have hkey : s.target key = 0 := (h.zero_iff key hlt).mpr (Or.inr hmem)
  have hnd : (key :: keys).Nodup := hkeys ▸ h.keys_nodup
  have hedges : s.nexts.getD key [] = (g.node key).nexts := by rw [h.nexts_eq, if_neg hnew]
  have hcount : ∀ v, ((g.node key).nexts.reverse.count v : Int) = (g.node key).nexts.count v := by
    intro v
    rw [List.count_reverse]
  have hle := h.count_le_target hlt hnew
  have hsub : ∀ k ∈ keys, k ∈ s.keys := fun k hk => by simp [hkeys, hk]
  have hr := Search.relaxed_foldl (g.node key).nexts.reverse { s with keys }
    (fun v hv => by
      rw [List.mem_reverse] at hv
      show v < s.targets.length
      rw [h.targets_length]
      exact (hg.edge_lt key v hv).2)
    (fun v => by rw [hcount]; exact hle v)
    (fun k hk => (h.zero_iff k (h.keys_lt k (hsub k hk))).mpr (Or.inr (hsub k hk)))
    (List.nodup_cons.mp hnd).2
  have hrkeys : ∀ v, v ∈ ((g.node key).nexts.reverse.foldl Search.relax { s with keys }).keys ↔
      v ∈ keys ∨ v ∈ (g.node key).nexts ∧ s.target v = (g.node key).nexts.count v := by
    intro v
    rw [hr.mem_keys, List.mem_reverse, hcount]
    rfl
  have hrtarget : ∀ v, Search.target ((g.node key).nexts.reverse.foldl Search.relax { s with keys }) v =
      s.target v - (g.node key).nexts.count v := fun v => by rw [hr.target_eq, hcount]; rfl
  -- a key that is pushed had a positive target, so it is neither visited nor `key`
  have hpushed : ∀ v, v ∈ (g.node key).nexts → s.target v = (g.node key).nexts.count v →
      v < g.size ∧ v ∉ insert key visited := by
    intro v hv htarget
    have hpos : 0 < (g.node key).nexts.count v := List.count_pos_iff.mpr hv
    have hvlt := (hg.edge_lt key v hv).2
    refine ⟨hvlt, fun hins => ?_⟩
    have hzero : s.target v = 0 := by
      rcases Finset.mem_insert.mp hins with rfl | hvis
      · exact hkey
      · exact (h.zero_iff v hvlt).mpr (Or.inl hvis)
    omega
  unfold Search.visit
  simp only [hedges]
  refine ⟨fun v hv => ?_, fun v hv => ?_, fun a => ?_, ?_, ?_, fun v => ?_, fun v hv => ?_,
    fun k hk => ?_, fun k hk => ?_, hr.nodup⟩
  · rcases Finset.mem_insert.mp hv with rfl | hv
    · exact hlt
    · exact h.visited_lt v hv
  · rcases Finset.mem_insert.mp hv with rfl | hv
    · refine Acc.intro v fun a ha => h.visited_acc a ?_
      exact h.visited_of_target_zero hkey (hg.edge_lt a v ha).1 ha
    · exact h.visited_acc v hv
  · show (s.nexts.set key []).getD a [] = _
    by_cases ha : a = key
    · subst ha
      rw [List.getD_eq_getElem?_getD, List.getElem?_set_self (by rwa [h.nexts_length])]
      simp
    · have hold := h.nexts_eq a
      rw [List.getD_eq_getElem?_getD] at hold ⊢
      rw [List.getElem?_set_ne (Ne.symm ha), hold]
      simp [ha]
  · show (s.nexts.set key []).length = _
    rw [List.length_set, h.nexts_length]
  · exact hr.length_eq.trans h.targets_length
  · show Search.target ((g.node key).nexts.reverse.foldl Search.relax { s with keys }) v = _
    rw [hrtarget, h.target_eq, sum_insert hlt hnew]
    push_cast
    ring
  · show Search.target ((g.node key).nexts.reverse.foldl Search.relax { s with keys }) v = 0 ↔ _
    rw [hrtarget]
    show _ ↔ _ ∨ v ∈ ((g.node key).nexts.reverse.foldl Search.relax { s with keys }).keys
    rw [hrkeys, Finset.mem_insert]
    have hzero := h.zero_iff v hv
    rw [hkeys, List.mem_cons] at hzero
    have hlev := hle v
    constructor
    · intro hsum
      by_cases hve : v ∈ (g.node key).nexts
      · exact Or.inr (Or.inr ⟨hve, by omega⟩)
      · have hcz : (g.node key).nexts.count v = 0 := List.count_eq_zero_of_not_mem hve
        rcases hzero.mp (by omega) with hvis | rfl | hk
        · exact Or.inl (Or.inr hvis)
        · exact Or.inl (Or.inl rfl)
        · exact Or.inr (Or.inl hk)
    · rintro ((rfl | hvis) | hk | ⟨-, heq⟩)
      · have := hkey
        omega
      · have := hzero.mpr (Or.inl hvis)
        omega
      · have := hzero.mpr (Or.inr (Or.inr hk))
        omega
      · omega
  · rcases (hrkeys k).mp hk with hk | ⟨hke, htarget⟩
    · exact h.keys_lt k (hsub k hk)
    · exact (hpushed k hke htarget).1
  · rcases (hrkeys k).mp hk with hk | ⟨hke, htarget⟩
    · rw [Finset.mem_insert, not_or]
      refine ⟨fun heq => ?_, h.keys_new k (hsub k hk)⟩
      exact (List.nodup_cons.mp hnd).1 (heq ▸ hk)
    · exact (hpushed k hke htarget).2

theorem loop (hg : g.Counted) (fuel : Nat) (s : Search) (visited : Finset Nat) (h : Kahn g s visited)
    (hfuel : g.size ≤ fuel + visited.card) :
    ∃ s' visited', s.loop fuel = some s' ∧ Kahn g s' visited' ∧ s'.keys = [] := by
  induction fuel generalizing s visited with
  | zero =>
    cases hkeys : s.keys with
    | nil => exact ⟨s, visited, by simp [Search.loop, hkeys], h, hkeys⟩
    | cons key keys =>
      have hsub : insert key visited ⊆ Finset.range g.size := by
        intro v hv
        rcases Finset.mem_insert.mp hv with rfl | hv
        · exact Finset.mem_range.mpr (h.keys_lt _ (by simp [hkeys]))
        · exact Finset.mem_range.mpr (h.visited_lt v hv)
      have hcard := Finset.card_le_card hsub
      rw [Finset.card_insert_of_notMem (h.keys_new key (by simp [hkeys])), Finset.card_range] at hcard
      omega
  | succ fuel ih =>
    cases hkeys : s.keys with
    | nil => exact ⟨s, visited, by simp [Search.loop, hkeys], h, hkeys⟩
    | cons key keys =>
      have hcard := Finset.card_insert_of_notMem (h.keys_new key (by simp [hkeys]))
      obtain ⟨s', visited', hloop, hinv, hnil⟩ := ih _ _ (h.visit hg hkeys) (by omega)
      exact ⟨s', visited', by simpa only [Search.loop, hkeys] using hloop, hinv, hnil⟩

end Kahn

/-! ### Before and after the outer loop -/

theorem getD_foldl_incr (edges : List Nat) (targets : List Int) (hlt : ∀ v ∈ edges, v < targets.length) :
    (edges.foldl (fun targets key => targets.modify key (· + 1)) targets).length = targets.length ∧
      ∀ v, (edges.foldl (fun targets key => targets.modify key (· + 1)) targets).getD v 0 =
        targets.getD v 0 + edges.count v := by
  induction edges generalizing targets with
  | nil => simp
  | cons key edges ih =>
    obtain ⟨hlen, hget⟩ := ih (targets.modify key (· + 1))
      (fun v hv => by simpa using hlt v (List.mem_cons_of_mem _ hv))
    refine ⟨by simpa using hlen, fun v => ?_⟩
    rw [List.foldl_cons, hget, getD_modify _ _ _ (hlt key (by simp)), List.count_cons]
    by_cases hv : v = key
    · simp [hv]
      ring
    · simp [hv, Ne.symm hv]

theorem getD_foldl_foldl_incr (nexts : List (List Nat)) (targets : List Int)
    (hlt : ∀ edges ∈ nexts, ∀ v ∈ edges, v < targets.length) :
    let after := nexts.foldl
      (fun targets edges => edges.foldl (fun targets key => targets.modify key (· + 1)) targets) targets
    after.length = targets.length ∧
      ∀ v, after.getD v 0 = targets.getD v 0 + ((nexts.map (List.count v)).sum : Nat) := by
  induction nexts generalizing targets with
  | nil => simp
  | cons edges nexts ih =>
    obtain ⟨hlen, hget⟩ := getD_foldl_incr edges targets (hlt edges (by simp))
    obtain ⟨hlen', hget'⟩ := ih (edges.foldl (fun targets key => targets.modify key (· + 1)) targets)
      (fun es hes v hv => hlen ▸ hlt es (List.mem_cons_of_mem _ hes) v hv)
    refine ⟨hlen'.trans hlen, fun v => ?_⟩
    rw [List.foldl_cons, hget', hget, List.map_cons, List.sum_cons]
    push_cast
    ring

theorem getD_map_nexts (g : DAG E) (a : Nat) : (g.nodes.map Node.nexts).getD a [] = (g.node a).nexts := by
  unfold node
  rw [List.getD_eq_getElem?_getD, List.getD_eq_getElem?_getD, List.getElem?_map]
  cases g.nodes[a]? <;> rfl

theorem sum_map_count (g : DAG E) (v : Nat) :
    ((g.nodes.map Node.nexts).map (List.count v)).sum = g.inDegree v := by
  unfold inDegree size node
  induction g.nodes with
  | nil => rfl
  | cons n nodes ih =>
    rw [List.map_cons, List.map_cons, List.sum_cons, ih, List.length_cons, Finset.sum_range_succ', add_comm]
    rfl

theorem kahn_search {g : DAG E} (hg : g.Counted) : Kahn g g.search ∅ := by
  have hlt : ∀ edges ∈ g.nodes.map Node.nexts, ∀ v ∈ edges, v < (List.replicate g.size (0 : Int)).length := by
    intro edges hedges v hv
    rw [List.length_replicate]
    obtain ⟨a, ha, rfl⟩ := List.getElem_of_mem hedges
    refine (hg.edge_lt a v ?_).2
    unfold Edge
    rw [← getD_map_nexts, List.getD_eq_getElem _ _ ha]
    exact hv
  obtain ⟨hlen, hget⟩ := getD_foldl_foldl_incr _ _ hlt
  have htarget : ∀ v, g.search.target v = (g.inDegree v : Int) := by
    intro v
    rw [← sum_map_count, Search.target]
    refine (hget v).trans ?_
    rw [List.getD_eq_getElem?_getD, List.getElem?_getD_replicate_default_eq, zero_add]
  have hkeys : ∀ v, v ∈ g.search.keys ↔ v < g.size ∧ g.inDegree v = 0 := by
    intro v
    have hprev := hg.hasPrev_iff v
    simp only [search, List.mem_reverse, List.mem_filter, List.mem_range, Bool.not_eq_true',
      ← Bool.not_eq_true, hprev]
    omega
  refine ⟨by simp, by simp, fun a => ?_, ?_, ?_, fun v => ?_, fun v hv => ?_, fun k hk => ((hkeys k).mp hk).1,
    by simp, ?_⟩
  · rw [if_neg (Finset.notMem_empty a)]
    exact getD_map_nexts g a
  · simp [search, size]
  · simpa [search] using hlen
  · rw [htarget, Finset.sdiff_empty]
    rfl
  · rw [htarget, hkeys]
    simp [hv]
  · exact List.nodup_reverse.mpr (List.nodup_range.filter _)

/-- **The search ends**, with a stack that is empty. -/
theorem loop_search {g : DAG E} (hg : g.Counted) :
    ∃ s visited, g.search.loop g.size = some s ∧ Kahn g s visited ∧ s.keys = [] :=
  Kahn.loop hg g.size g.search ∅ (kahn_search hg) (by simp)

/-- **The search finds a cycle exactly when there is one.** -/
theorem hasCycle_iff {g : DAG E} (hg : g.Counted) : g.hasCycle = true ↔ ¬ Acyclic g.Edge := by
  obtain ⟨s, visited, hloop, hk, hnil⟩ := loop_search hg
  unfold hasCycle
  rw [hloop]
  constructor
  · -- a key with edges left was not visited
    intro hany hacyclic
    obtain ⟨edges, hedges, hne⟩ := List.any_eq_true.mp hany
    obtain ⟨a, ha, rfl⟩ := List.getElem_of_mem hedges
    have hall : ∀ v, v < g.size → v ∈ visited := by
      intro v
      induction v using (hacyclic.wellFounded hg.edge_lt).induction with
      | _ v ih =>
        intro hv
        refine (((hk.zero_iff v hv).mp ?_)).resolve_right (by simp [hnil])
        rw [hk.target_eq, Int.natCast_eq_zero, Finset.sum_eq_zero_iff]
        intro b hb
        obtain ⟨hblt, hbnew⟩ := Finset.mem_sdiff.mp hb
        refine List.count_eq_zero.mpr fun hbv => hbnew ?_
        exact ih b hbv (Finset.mem_range.mp hblt)
    have hvis := hall a (by rwa [← hk.nexts_length])
    have hempty := hk.nexts_eq a
    rw [if_pos hvis, List.getD_eq_getElem _ _ ha] at hempty
    simp [hempty] at hne
  · -- a key on a cycle is not visited, and its edge on the cycle is left
    intro hcyclic
    unfold Acyclic at hcyclic
    push Not at hcyclic
    obtain ⟨a, hcycle⟩ := hcyclic
    obtain ⟨b, hab, -⟩ := Relation.TransGen.head'_iff.mp hcycle
    have halt := (hg.edge_lt a b hab).1
    have hnew : a ∉ visited := fun hvis => Lib.not_transGen_of_acc (hk.visited_acc a hvis) hcycle
    have hedges := hk.nexts_eq a
    rw [if_neg hnew, List.getD_eq_getElem _ _ (by rwa [hk.nexts_length])] at hedges
    refine List.any_eq_true.mpr ⟨_, List.getElem_mem (by rwa [hk.nexts_length]), ?_⟩
    rw [hedges]
    unfold Edge at hab
    cases hn : (g.node a).nexts with
    | nil => simp [hn] at hab
    | cons => rfl

/-! ### What the search decrements -/

namespace Search

/-- What each `--targets[next]` of the inner loop finds there. -/
def relaxFinds : List Nat → Search → List Int
  | [], _ => []
  | next :: edges, s => s.target next :: relaxFinds edges (s.relax next)

/-- What each `--targets[next]` of the search finds there, for the rounds of `loop`. -/
def loopFinds : Nat → Search → List Int
  | 0, _ => []
  | fuel + 1, s =>
    match s.keys with
    | [] => []
    | key :: keys =>
      relaxFinds (s.nexts.getD key []).reverse { s with keys } ++ loopFinds fuel ({ s with keys }.visit key)

theorem relaxFinds_pos (edges : List Nat) (s : Search) (hlt : ∀ v ∈ edges, v < s.targets.length)
    (hle : ∀ v, (edges.count v : Int) ≤ s.target v) : ∀ found ∈ relaxFinds edges s, 0 < found := by
  induction edges generalizing s with
  | nil => exact fun found hfound => absurd hfound List.not_mem_nil
  | cons next edges ih =>
    intro found hfound
    rcases List.mem_cons.mp hfound with rfl | hfound
    · have hfirst := hle next
      rw [List.count_cons_self] at hfirst
      omega
    · refine ih (s.relax next) (fun v hv => ?_) (fun v => ?_) found hfound
      · rw [length_targets_relax]
        exact hlt v (List.mem_cons_of_mem _ hv)
      · have hrest := hle v
        rw [target_relax s (hlt next List.mem_cons_self)]
        by_cases hv : v = next
        · subst hv
          rw [List.count_cons_self] at hrest
          rw [if_pos rfl]
          omega
        · rw [List.count_cons_of_ne (Ne.symm hv)] at hrest
          rw [if_neg hv]
          omega

end Search

theorem Kahn.loopFinds_pos {g : DAG E} (hg : g.Counted) (fuel : Nat) (s : Search) (visited : Finset Nat)
    (h : Kahn g s visited) : ∀ found ∈ s.loopFinds fuel, 0 < found := by
  induction fuel generalizing s visited with
  | zero => exact fun found hfound => absurd hfound List.not_mem_nil
  | succ fuel ih =>
    intro found hfound
    unfold Search.loopFinds at hfound
    cases hkeys : s.keys with
    | nil =>
      simp only [hkeys] at hfound
      exact absurd hfound List.not_mem_nil
    | cons key keys =>
      have hmem : key ∈ s.keys := by simp [hkeys]
      have hnew := h.keys_new key hmem
      have hedges : s.nexts.getD key [] = (g.node key).nexts := by rw [h.nexts_eq, if_neg hnew]
      simp only [hkeys, hedges] at hfound
      rcases List.mem_append.mp hfound with hfound | hfound
      · refine Search.relaxFinds_pos _ _ (fun v hv => ?_) (fun v => ?_) found hfound
        · show v < s.targets.length
          rw [h.targets_length]
          exact (hg.edge_lt key v (List.mem_reverse.mp hv)).2
        · rw [List.count_reverse]
          exact h.count_le_target (h.keys_lt key hmem) hnew v
      · exact ih _ _ (h.visit hg hkeys) found hfound

/-! ### Any sequence of calls, and `go` -/

/-- One call. An executor may be added again; only keys that were added are joined. -/
def construct [DecidableEq E] (g : DAG E) : Cmd E → Option (DAG E)
  | .add e => some (g.add e).2
  | .dependency a b => if a < g.size ∧ b < g.size then some (g.dependency a b) else none

theorem construct_counted [DecidableEq E] {g g' : DAG E} (c : Cmd E) (hg : g.Counted)
    (h : g.construct c = some g') : g'.Counted := by
  cases c with
  | add e =>
    cases h
    have hbound : (⟨g.nodes, Function.update g.schedules e (g.schedules e ++ [g.size])⟩ : DAG E).Counted :=
      ⟨hg.edge_lt, hg.waitCount_eq, hg.hasPrev_iff⟩
    exact hbound.addNode (some e)
  | dependency a b =>
    simp only [construct] at h
    split_ifs at h with hlt
    cases h
    exact hg.dependency hlt.1 hlt.2

theorem run_construct_counted [DecidableEq E] {g : DAG E} {cmds : List (Cmd E)}
    (h : Lib.run construct empty cmds = some g) : g.Counted :=
  Lib.run_invariant (fun _ c _ hg hc => construct_counted c hg hc) wellFormed_empty.toCounted h

/-- `go` on the graph in place: what it returns or throws, and the graph it leaves. -/
def goInPlace (executor : E) : ExceptT String (StateM (DAG E)) Nat := do
  if (← get).hasCycle then throw "Cycle in DAG graph"
  else
    let rootNodes := (← get).keysWhere fun n => !n.hasPrev
    let leafNodes := (← get).keysWhere fun n => n.nexts.isEmpty
    let sourceKey ← modifyGet fun g => g.addNode none
    for key in rootNodes do
      modify fun g => g.dependency sourceKey key
    let sinkKey ← modifyGet fun g => g.addNode (some executor)
    for key in leafNodes do
      modify fun g => g.dependency key sinkKey
    return sourceKey

theorem run_bind_of_ok {α β : Type} {x : ExceptT String (StateM (DAG E)) α} {f : α → ExceptT String (StateM (DAG E)) β}
    {g g' : DAG E} {a : α} (h : x.run.run g = (.ok a, g')) : (x >>= f).run.run g = (f a).run.run g' := by
  simp only [ExceptT.run_bind, StateT.run_bind, h]
  rfl

theorem forIn_modify (f : Nat → DAG E → DAG E) (keys : List Nat) (g : DAG E) :
    (forIn (m := ExceptT String (StateM (DAG E))) keys PUnit.unit fun key _ => do
        modify (f key)
        pure (ForInStep.yield PUnit.unit)).run.run g = (.ok PUnit.unit, keys.foldl (fun g key => f key g) g) := by
  induction keys generalizing g with
  | nil => rfl
  | cons key keys ih =>
    rw [List.forIn_cons]
    exact ih (f key g)

theorem run_get (g : DAG E) : (get : ExceptT String (StateM (DAG E)) (DAG E)).run.run g = (.ok g, g) := rfl

theorem run_modifyGet {α : Type} (f : DAG E → α × DAG E) (g : DAG E) :
    (modifyGet f : ExceptT String (StateM (DAG E)) α).run.run g = (.ok (f g).1, (f g).2) := rfl

theorem goInPlace_eq (g : DAG E) (executor : E) :
    (goInPlace executor).run.run g = match g.go executor with
      | .ok (sourceKey, g') => (.ok sourceKey, g')
      | .error message => (.error message, g) := by
  unfold goInPlace go
  rw [run_bind_of_ok (run_get g)]
  by_cases hcycle : g.hasCycle = true
  · rw [if_pos hcycle, if_pos hcycle]
    rfl
  · rw [if_neg hcycle, if_neg hcycle, run_bind_of_ok (run_get g), run_bind_of_ok (run_get g),
      run_bind_of_ok (run_modifyGet _ g), run_bind_of_ok (forIn_modify (fun key g => g.dependency _ key) _ _),
      run_bind_of_ok (run_modifyGet _ _), run_bind_of_ok (forIn_modify (fun key g => g.dependency key _) _ _)]
    rfl

/-- **The search of a graph that any calls of `add` and `dependency` built ends and decrements no counter that is zero,
and `go` throws exactly when there is a cycle, with the graph left as it was.** -/
theorem go_throws_iff [DecidableEq E] {g : DAG E} {cmds : List (Cmd E)} (h : Lib.run construct empty cmds = some g)
    (executor : E) :
    (∃ s, g.search.loop g.size = some s ∧ s.keys = []) ∧
      (∀ found ∈ g.search.loopFinds g.size, 0 < found) ∧
      ((∃ message, ((goInPlace executor).run.run g).1 = .error message) ↔ ∃ a, Relation.TransGen g.Edge a a) ∧
      ∀ message g', (goInPlace executor).run.run g = (.error message, g') →
        message = "Cycle in DAG graph" ∧ g' = g := by
  have hg := run_construct_counted h
  obtain ⟨s, visited, hloop, -, hkeys⟩ := loop_search hg
  have hcycle : g.hasCycle = true ↔ ∃ a, Relation.TransGen g.Edge a a := by
    rw [hasCycle_iff hg, Acyclic, not_forall]
    simp only [not_not]
  refine ⟨⟨s, hloop, hkeys⟩, (kahn_search hg).loopFinds_pos hg g.size g.search ∅, ?_, fun message g' hrun => ?_⟩
  · rw [← hcycle, goInPlace_eq, go]
    by_cases hhas : g.hasCycle = true
    · simp [hhas]
    · simp [hhas]
  · rw [goInPlace_eq, go] at hrun
    by_cases hhas : g.hasCycle = true
    · rw [if_pos hhas] at hrun
      cases hrun
      exact ⟨rfl, rfl⟩
    · rw [if_neg hhas] at hrun
      cases hrun

/-- An executor that is added twice, a double edge, a node on its own and an edge from a node to itself. -/
theorem go_throws_iff_self_loop :
    ∃ g, Lib.run construct (empty : DAG Nat) [.add 5, .add 5, .dependency 0 1, .add 6, .dependency 0 1, .dependency 1 1] =
      some g ∧ ∃ message, ((goInPlace 9).run.run g).1 = .error message := by
  have hrun : Lib.run construct (empty : DAG Nat)
      [.add 5, .add 5, .dependency 0 1, .add 6, .dependency 0 1, .dependency 1 1] = some _ := rfl
  refine ⟨_, hrun, ?_⟩
  refine ((go_throws_iff hrun 9).2.2.1).mpr ⟨1, Relation.TransGen.single ?_⟩
  show 1 ∈ [1]
  exact List.mem_singleton_self 1

end Raster.DAG
