import Mathlib.Algebra.BigOperators.Group.Finset.Basic
import Mathlib.Algebra.Order.BigOperators.Group.Finset

/-!
# Counting the parties of a system

The parties `0, …, n - 1` are each in some place, `f t : α`, and `w` says what a place weighs: a number, or
a multiset of what is held there. The tally is the weight of all of them. When one party moves, the tally
changes by the weights of the two places, which is all that a counting invariant needs to know about a step.
-/

namespace Raster.Lib

section Monoid

variable {α M : Type*} [AddCommMonoid M] {n t : Nat} {f : Nat → α} {w : α → M}

/-- The weight of the first `n` parties. -/
def tally (n : Nat) (f : Nat → α) (w : α → M) : M := ∑ t ∈ Finset.range n, w (f t)

theorem tally_update (ht : t < n) (v : α) : tally n (Function.update f t v) w + w (f t) = tally n f w + w v := by
  unfold tally
  have hmem : t ∈ Finset.range n := Finset.mem_range.mpr ht
  rw [← Finset.add_sum_erase _ _ hmem, ← Finset.add_sum_erase _ (fun t => w (f t)) hmem, Function.update_self]
  have hrest : ∑ x ∈ (Finset.range n).erase t, w (Function.update f t v x) = ∑ x ∈ (Finset.range n).erase t, w (f x) :=
    Finset.sum_congr rfl fun x hx => by rw [Function.update_of_ne (Finset.ne_of_mem_erase hx)]
  rw [hrest, add_comm (w v), add_comm (w (f t)), add_assoc, add_assoc, add_comm (w v)]

theorem tally_succ : tally (n + 1) f w = tally n f w + w (f n) := Finset.sum_range_succ _ n

theorem tally_eq_zero (h : ∀ t, t < n → w (f t) = 0) : tally n f w = 0 :=
  Finset.sum_eq_zero fun t ht => h t (Finset.mem_range.mp ht)

theorem tally_add (w w' : α → M) : tally n f (fun a => w a + w' a) = tally n f w + tally n f w' := Finset.sum_add_distrib

end Monoid

variable {α : Type*} {n t : Nat} {f : Nat → α} {w : α → Nat}

theorem le_tally (ht : t < n) : w (f t) ≤ tally n f w :=
  Finset.single_le_sum (f := fun t => w (f t)) (fun _ _ => Nat.zero_le _) (Finset.mem_range.mpr ht)

theorem add_le_tally {u : Nat} (ht : t < n) (hu : u < n) (hne : t ≠ u) : w (f t) + w (f u) ≤ tally n f w := by
  have hpair : ∑ x ∈ {t, u}, w (f x) = w (f t) + w (f u) := Finset.sum_pair hne
  rw [← hpair]
  refine Finset.sum_le_sum_of_subset fun x hx => Finset.mem_range.mpr ?_
  rcases Finset.mem_insert.mp hx with rfl | hx
  · exact ht
  · exact Finset.mem_singleton.mp hx ▸ hu

theorem tally_le (h : ∀ t, t < n → w (f t) ≤ 1) : tally n f w ≤ n := by
  have hle := Finset.sum_le_card_nsmul (Finset.range n) (fun t => w (f t)) 1 fun t ht => h t (Finset.mem_range.mp ht)
  rwa [Finset.card_range, Nat.nsmul_eq_mul, Nat.mul_one] at hle

theorem exists_of_tally_pos (h : 0 < tally n f w) : ∃ t, t < n ∧ 0 < w (f t) := by
  by_contra hall
  refine absurd (tally_eq_zero (n := n) (f := f) (w := w) fun t ht => ?_) (Nat.ne_of_gt h)
  by_contra hne
  exact hall ⟨t, ht, Nat.pos_of_ne_zero hne⟩

end Raster.Lib
