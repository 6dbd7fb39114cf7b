import Mathlib.Data.List.Chain
import Mathlib.Data.List.Nodup
import Mathlib.Logic.Function.Basic

/-!
# Rings of linked nodes

Nodes with a pointer to the next one and to the previous one, and the lists of nodes that form a ring: each is joined to the one behind
it, and the last to the first. `join` writes both pointers of a joint. Two rings are spliced, and one is cut in two, by writing two
joints; a ring that has none of the nodes that are written stays what it is. A walk along `next` that comes back to its start has seen
the other nodes of the ring.
-/

namespace Raster.Lib

structure Links (ν : Type*) where
  next : ν → ν
  prev : ν → ν

namespace Links

variable {ν : Type*} {l : Links ν} {a b x y : ν} {xs ys us ms : List ν}

/-- `b` is behind `a`. -/
def Joined (l : Links ν) (a b : ν) : Prop := l.next a = b ∧ l.prev b = a

/-- The nodes form a ring, the first one behind the last one. -/
def Ring (l : Links ν) (xs : List ν) : Prop := xs ≠ [] ∧ xs.Nodup ∧ xs.IsChain l.Joined ∧
  ∀ p ∈ xs.getLast?, ∀ a ∈ xs.head?, l.Joined p a

variable [DecidableEq ν]

def setNext (l : Links ν) (a b : ν) : Links ν := { l with next := Function.update l.next a b }

def setPrev (l : Links ν) (a b : ν) : Links ν := { l with prev := Function.update l.prev a b }

/-- Put `b` behind `a`. -/
def join (l : Links ν) (a b : ν) : Links ν := (l.setNext a b).setPrev b a

theorem joined_join (l : Links ν) (a b : ν) : (l.join a b).Joined a b :=
  ⟨Function.update_self .., Function.update_self ..⟩

theorem joined_join_of_ne (l : Links ν) (hx : x ≠ a) (hy : y ≠ b) (h : l.Joined x y) : (l.join a b).Joined x y :=
  ⟨(Function.update_of_ne hx ..).trans h.1, (Function.update_of_ne hy ..).trans h.2⟩

/-- A path to whose nodes, but the last, nothing is put behind, and whose nodes, but the first, are not put anywhere. -/
theorem isChain_join (h : xs.IsChain l.Joined) (ha : a ∉ xs.dropLast) (hb : b ∉ xs.tail) : xs.IsChain (l.join a b).Joined := by
  induction h with
  | nil => exact .nil
  | singleton x => exact .singleton x
  | cons_cons hxy _ ih =>
    rw [List.dropLast_cons_cons, List.mem_cons, not_or] at ha
    rw [List.tail_cons, List.mem_cons, not_or] at hb
    exact .cons_cons (joined_join_of_ne l (Ne.symm ha.1) (Ne.symm hb.1) hxy) (ih ha.2 hb.2)

omit [DecidableEq ν] in
theorem notMem_dropLast (h : xs.Nodup) (hp : x ∈ xs.getLast?) : x ∉ xs.dropLast := by
  rcases List.eq_nil_or_concat xs with rfl | ⟨ys, y, rfl⟩
  · exact List.not_mem_nil
  · rw [List.concat_eq_append] at h hp ⊢
    rw [List.getLast?_concat, Option.mem_some] at hp
    subst hp
    rw [List.dropLast_concat]
    intro hmem
    exact (List.nodup_append.mp h).2.2 y hmem y List.mem_cons_self rfl

omit [DecidableEq ν] in
theorem notMem_tail (h : xs.Nodup) (ha : x ∈ xs.head?) : x ∉ xs.tail := by
  cases xs with
  | nil => exact List.not_mem_nil
  | cons y ys =>
    obtain rfl : y = x := by simpa using ha
    exact (List.nodup_cons.mp h).1

/-! ### Rings -/

namespace Ring

omit [DecidableEq ν] in
theorem nodup (h : l.Ring xs) : xs.Nodup := h.2.1

omit [DecidableEq ν] in
theorem joined_last (h : l.Ring xs) (hp : x ∈ xs.getLast?) (ha : y ∈ xs.head?) : l.Joined x y := h.2.2.2 x hp y ha

omit [DecidableEq ν] in
theorem next_last (h : l.Ring xs) (hp : x ∈ xs.getLast?) : l.next x ∈ xs.head? := by
  obtain ⟨a, ha⟩ := (⟨_, List.head?_eq_some_head h.1⟩ : ∃ a, a ∈ xs.head?)
  rw [(h.joined_last hp ha).1]
  exact ha

omit [DecidableEq ν] in
theorem prev_head (h : l.Ring xs) (ha : x ∈ xs.head?) : l.prev x ∈ xs.getLast? := by
  obtain ⟨p, hp⟩ := (⟨_, List.getLast?_eq_some_getLast h.1⟩ : ∃ p, p ∈ xs.getLast?)
  rw [(h.joined_last hp ha).2]
  exact hp

omit [DecidableEq ν] in
theorem singleton_iff : l.Ring [a] ↔ l.next a = a ∧ l.prev a = a := by
  simp [Ring, Joined]

omit [DecidableEq ν] in
theorem rotate (h : l.Ring (us ++ ms)) : l.Ring (ms ++ us) := by
  obtain ⟨hne, hnodup, hchain, hlast⟩ := h
  by_cases hus : us = []
  · subst hus
    rw [List.nil_append] at hne hnodup hchain hlast
    rw [List.append_nil]
    exact ⟨hne, hnodup, hchain, hlast⟩
  by_cases hms : ms = []
  · subst hms
    rw [List.append_nil] at hne hnodup hchain hlast
    rw [List.nil_append]
    exact ⟨hne, hnodup, hchain, hlast⟩
  obtain ⟨hleft, hright, hmid⟩ := List.isChain_append.mp hchain
  refine ⟨by simp [hus], List.nodup_append_comm.mp hnodup, List.isChain_append.mpr ⟨hright, hleft, fun p hp a ha => ?_⟩,
    fun p hp a ha => ?_⟩
  · refine hlast p ?_ a ?_
    · rw [List.getLast?_append_of_ne_nil _ hms]
      exact hp
    · rw [List.head?_append_of_ne_nil _ hus]
      exact ha
  · refine hmid p ?_ a ?_
    · rwa [List.getLast?_append_of_ne_nil _ hus] at hp
    · rwa [List.head?_append_of_ne_nil _ hms] at ha

theorem join (h : l.Ring xs) (ha : a ∉ xs) (hb : b ∉ xs) : (l.join a b).Ring xs := by
  obtain ⟨hne, hnodup, hchain, hlast⟩ := h
  refine ⟨hne, hnodup, isChain_join hchain (fun hmem => ha (List.dropLast_subset _ hmem)) fun hmem => hb (List.mem_of_mem_tail hmem),
    fun p hp x hx => ?_⟩
  refine joined_join_of_ne l (fun heq => ?_) (fun heq => ?_) (hlast p hp x hx)
  · exact ha (heq ▸ List.mem_of_getLast? hp)
  · exact hb (heq ▸ List.mem_of_mem_head? hx)

theorem splice {p u t h : ν} (hus : l.Ring us) (hms : l.Ring ms) (hdisjoint : us.Disjoint ms) (hp : p ∈ us.getLast?)
    (hu : u ∈ us.head?) (ht : t ∈ ms.getLast?) (hh : h ∈ ms.head?) : ((l.join p h).join t u).Ring (us ++ ms) := by
  obtain ⟨hneus, hnodupus, hchainus, -⟩ := hus
  obtain ⟨hnems, hnodupms, hchainms, -⟩ := hms
  have hpus := List.mem_of_getLast? hp
  have huus := List.mem_of_mem_head? hu
  have htms := List.mem_of_getLast? ht
  have hhms := List.mem_of_mem_head? hh
  have hus' : us.IsChain ((l.join p h).join t u).Joined := by
    refine isChain_join (isChain_join hchainus (notMem_dropLast hnodupus hp) fun hmem => ?_) (fun hmem => ?_) (notMem_tail hnodupus hu)
    · exact hdisjoint (List.mem_of_mem_tail hmem) hhms
    · exact hdisjoint (List.dropLast_subset _ hmem) htms
  have hms' : ms.IsChain ((l.join p h).join t u).Joined := by
    refine isChain_join (isChain_join hchainms (fun hmem => ?_) (notMem_tail hnodupms hh)) (notMem_dropLast hnodupms ht) fun hmem => ?_
    · exact hdisjoint hpus (List.dropLast_subset _ hmem)
    · exact hdisjoint huus (List.mem_of_mem_tail hmem)
  refine ⟨by simp [hneus], List.nodup_append.mpr ⟨hnodupus, hnodupms, fun x hx y hy heq => hdisjoint hx (heq ▸ hy)⟩,
    hus'.append hms' fun x hx y hy => ?_, fun x hx y hy => ?_⟩
  · obtain rfl := Option.mem_unique hp hx
    obtain rfl := Option.mem_unique hh hy
    refine joined_join_of_ne _ (fun heq => ?_) (fun heq => ?_) (joined_join ..)
    · exact hdisjoint hpus (heq ▸ htms)
    · exact hdisjoint huus (heq ▸ hhms)
  · rw [List.getLast?_append_of_ne_nil _ hnems] at hx
    rw [List.head?_append_of_ne_nil _ hneus] at hy
    obtain rfl := Option.mem_unique ht hx
    obtain rfl := Option.mem_unique hu hy
    exact joined_join ..

theorem cut {p u t h : ν} (hring : l.Ring (us ++ ms)) (hp : p ∈ us.getLast?) (hu : u ∈ us.head?) (ht : t ∈ ms.getLast?)
    (hh : h ∈ ms.head?) : ((l.join p u).join t h).Ring us ∧ ((l.join p u).join t h).Ring ms := by
  obtain ⟨-, hnodup, hchain, -⟩ := hring
  obtain ⟨hchainus, hchainms, -⟩ := List.isChain_append.mp hchain
  obtain ⟨hnodupus, hnodupms, hdiff⟩ := List.nodup_append.mp hnodup
  have hdisjoint : us.Disjoint ms := fun x hx hx' => hdiff x hx x hx' rfl
  have hpus := List.mem_of_getLast? hp
  have huus := List.mem_of_mem_head? hu
  have htms := List.mem_of_getLast? ht
  have hhms := List.mem_of_mem_head? hh
  refine ⟨⟨List.ne_nil_of_mem hpus, hnodupus, ?_, fun x hx y hy => ?_⟩, List.ne_nil_of_mem htms, hnodupms, ?_, fun x hx y hy => ?_⟩
  · refine isChain_join (isChain_join hchainus (notMem_dropLast hnodupus hp) (notMem_tail hnodupus hu)) (fun hmem => ?_) fun hmem => ?_
    · exact hdisjoint (List.dropLast_subset _ hmem) htms
    · exact hdisjoint (List.mem_of_mem_tail hmem) hhms
  · obtain rfl := Option.mem_unique hp hx
    obtain rfl := Option.mem_unique hu hy
    refine joined_join_of_ne _ (fun heq => ?_) (fun heq => ?_) (joined_join ..)
    · exact hdisjoint hpus (heq ▸ htms)
    · exact hdisjoint huus (heq ▸ hhms)
  · refine isChain_join (isChain_join hchainms (fun hmem => ?_) fun hmem => ?_) (notMem_dropLast hnodupms ht) (notMem_tail hnodupms hh)
    · exact hdisjoint hpus (List.dropLast_subset _ hmem)
    · exact hdisjoint huus (List.mem_of_mem_tail hmem)
  · obtain rfl := Option.mem_unique ht hx
    obtain rfl := Option.mem_unique hh hy
    exact joined_join ..

end Ring

/-! ### Walks -/

/-- The nodes from `current` on, until the walk comes to `stop`; `fuel` bounds its steps. -/
def walk (l : Links ν) (stop : ν) : (fuel : Nat) → (current : ν) → Option (List ν)
  | 0, _ => none
  | fuel + 1, current => if current = stop then some [] else (walk l stop fuel (l.next current)).map (current :: ·)

theorem walk_path {fuel : Nat} (h : (x :: xs).IsChain l.Joined) (hend : ∀ p ∈ (x :: xs).getLast?, l.next p = a) (ha : a ∉ xs)
    (hfuel : xs.length < fuel) : l.walk a fuel (l.next x) = some xs := by
  induction xs generalizing x fuel with
  | nil =>
    obtain ⟨fuel, rfl⟩ := Nat.exists_eq_succ_of_ne_zero (Nat.ne_of_gt hfuel)
    rw [walk, if_pos (hend x rfl)]
  | cons y xs ih =>
    obtain ⟨fuel, rfl⟩ := Nat.exists_eq_succ_of_ne_zero (Nat.ne_of_gt (Nat.zero_lt_of_lt hfuel))
    obtain ⟨hxy, htail⟩ := List.isChain_cons_cons.mp h
    rw [List.mem_cons, not_or] at ha
    have hrest := ih htail (fun p hp => hend p (by rwa [List.getLast?_cons_cons])) ha.2 (Nat.lt_of_succ_lt_succ hfuel)
    rw [walk, hxy.1, if_neg (Ne.symm ha.1), hrest]
    rfl

theorem walk_ring {fuel : Nat} (h : l.Ring (a :: xs)) (hfuel : xs.length < fuel) : l.walk a fuel (l.next a) = some xs := by
  obtain ⟨-, hnodup, hchain, hlast⟩ := h
  exact walk_path hchain (fun p hp => (hlast p hp a rfl).1) (List.nodup_cons.mp hnodup).1 hfuel

end Links

end Raster.Lib
