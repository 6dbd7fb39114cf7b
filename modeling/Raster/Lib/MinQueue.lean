import Mathlib.Data.Multiset.Basic
import Mathlib.Data.Multiset.AddSub
import Mathlib.Data.List.Sort

/-!
# Priority queues by contract

`MinQueue Q α rank` is what a priority queue promises when its elements are ordered by `rank`: the
top is one of the elements of smallest rank, which one of them is up to the implementation. Proofs
against the contract hold for every way of breaking ties.

`SortedQueue` is an implementation that can be run: a sorted list, with the oldest of equal rank
first. `Logged` puts beside a queue the list of all that was ever pushed, so that a result can speak of
the last push without a change to the program that uses the queue.
-/

namespace Raster.Lib

/-- A min-first priority queue `Q` of elements `α` ordered by `rank`. -/
class MinQueue (Q : Type*) (α : outParam Type*) (rank : outParam (α → Nat)) where
  empty : Q
  push : Q → α → Q
  top : Q → Option α
  pop : Q → Q
  size : Q → Nat
  /-- The elements, with multiplicity. -/
  contents : Q → Multiset α
  contents_empty : contents empty = 0
  contents_push : ∀ q a, contents (push q a) = a ::ₘ contents q
  size_eq : ∀ q, size q = (contents q).card
  top_eq_none : ∀ q, top q = none ↔ contents q = 0
  contents_pop : ∀ q a, top q = some a → contents q = a ::ₘ contents (pop q)
  top_le : ∀ q a, top q = some a → ∀ b ∈ contents q, rank a ≤ rank b

namespace MinQueue

variable {Q α : Type*} {rank : α → Nat} [MinQueue Q α rank] {q : Q} {a b : α}

theorem top_mem (h : top q = some a) : a ∈ contents q := by
  rw [contents_pop q a h]
  exact Multiset.mem_cons_self a _

theorem size_pop (h : top q = some a) : size q = size (pop q) + 1 := by
  rw [size_eq, size_eq, contents_pop q a h, Multiset.card_cons]

theorem mem_pop_of_ne (h : top q = some a) (hb : b ∈ contents q) (hne : b ≠ a) :
    b ∈ contents (pop q) := by
  rw [contents_pop q a h, Multiset.mem_cons] at hb
  exact hb.resolve_left hne

theorem mem_of_mem_pop (h : top q = some a) (hb : b ∈ contents (pop q)) : b ∈ contents q := by
  rw [contents_pop q a h]
  exact Multiset.mem_cons_of_mem hb

theorem mem_push : b ∈ contents (push q a) ↔ b = a ∨ b ∈ contents q := by
  rw [contents_push, Multiset.mem_cons]

end MinQueue

/-! ### The sorted-list implementation -/

section sorted

variable {α : Type*} (rank : α → Nat)

/-- A list in order of rank. -/
structure SortedQueue where
  toList : List α
  sorted : toList.Pairwise fun a b => rank a ≤ rank b

variable {rank}

/-- Insert `a` after the elements of rank at most that of `a`. -/
def insertRank (rank : α → Nat) (a : α) (l : List α) : List α :=
  l.orderedInsert (fun x y => rank x < rank y) a

theorem insertRank_perm (a : α) (l : List α) : (insertRank rank a l).Perm (a :: l) :=
  List.perm_orderedInsert _ a l

theorem insertRank_sorted (a : α) {l : List α} (h : l.Pairwise fun x y => rank x ≤ rank y) :
    (insertRank rank a l).Pairwise fun x y => rank x ≤ rank y := by
  induction l with
  | nil => exact List.pairwise_singleton _ _
  | cons b l ih =>
    obtain ⟨hb, hl⟩ := List.pairwise_cons.mp h
    unfold insertRank
    rw [List.orderedInsert_cons]
    split_ifs with hab
    · refine List.pairwise_cons.mpr ⟨fun x hx => ?_, h⟩
      rcases List.mem_cons.mp hx with rfl | hx
      · omega
      · exact le_trans (by omega) (hb x hx)
    · refine List.pairwise_cons.mpr ⟨fun x hx => ?_, ih hl⟩
      rcases List.mem_cons.mp ((insertRank_perm a l).mem_iff.mp hx) with rfl | hx
      · omega
      · exact hb x hx

instance : MinQueue (SortedQueue rank) α rank where
  empty := ⟨[], List.Pairwise.nil⟩
  push q a := ⟨insertRank rank a q.toList, insertRank_sorted a q.sorted⟩
  top q := q.toList.head?
  pop q := ⟨q.toList.tail, q.sorted.tail⟩
  size q := q.toList.length
  contents q := q.toList
  contents_empty := rfl
  contents_push q a := Multiset.coe_eq_coe.mpr (insertRank_perm a q.toList)
  size_eq _ := rfl
  top_eq_none q := by simp
  contents_pop q a h := by
    obtain ⟨l, hl⟩ := List.head?_eq_some_iff.mp h
    simp [hl]
  top_le q a h b hb := by
    obtain ⟨l, hl⟩ := List.head?_eq_some_iff.mp h
    have hs := q.sorted
    rw [hl] at hs
    rw [hl, Multiset.mem_coe, List.mem_cons] at hb
    rcases hb with rfl | hb
    · exact le_refl _
    · exact (List.pairwise_cons.mp hs).1 b hb

end sorted

/-! ### A queue with its history -/

/-- A queue and what was pushed to it, the newest first. -/
structure Logged (Q α : Type*) where
  queue : Q
  pushed : List α

instance {Q α : Type*} {rank : α → Nat} [MinQueue Q α rank] : MinQueue (Logged Q α) α rank where
  empty := ⟨MinQueue.empty, []⟩
  push q a := ⟨MinQueue.push q.queue a, a :: q.pushed⟩
  top q := MinQueue.top q.queue
  pop q := ⟨MinQueue.pop q.queue, q.pushed⟩
  size q := MinQueue.size q.queue
  contents q := MinQueue.contents q.queue
  contents_empty := MinQueue.contents_empty
  contents_push q a := MinQueue.contents_push q.queue a
  size_eq q := MinQueue.size_eq q.queue
  top_eq_none q := MinQueue.top_eq_none q.queue
  contents_pop q a h := MinQueue.contents_pop q.queue a h
  top_le q a h := MinQueue.top_le q.queue a h

end Raster.Lib
