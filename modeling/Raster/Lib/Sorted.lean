import Mathlib.Data.List.Basic
import Mathlib.Order.Defs.LinearOrder
import Mathlib.Order.Lattice
import Mathlib.Tactic.SplitIfs

/-!
# Ordered containers

A container of elements in the strict order of their keys: an ordered set when the element is its own key,
an ordered map when the elements are pairs. `insert` keeps the element that is there when the key is taken.
Elements that arrive in order are put at the end.
-/

namespace Raster.Lib

variable {α κ : Type*} [LinearOrder κ]

/-- Lists in the strict order of the keys. -/
def Sorted (key : α → κ) : Type _ := { l : List α // l.Pairwise fun a b => key a < key b }

/-- The place of `x` in an ordered list, unless its key is taken. -/
def insertByKey (key : α → κ) (x : α) : List α → List α
  | [] => [x]
  | y :: l => if key x < key y then x :: y :: l else if key y < key x then y :: insertByKey key x l else y :: l

variable {key : α → κ} {x y : α} {l : List α}

theorem mem_insertByKey (h : y ∈ insertByKey key x l) : y = x ∨ y ∈ l := by
  induction l with
  | nil => exact Or.inl (List.mem_singleton.mp h)
  | cons z l ih =>
    unfold insertByKey at h
    split_ifs at h
    · exact List.mem_cons.mp h
    · rcases List.mem_cons.mp h with rfl | h
      · exact Or.inr List.mem_cons_self
      · exact (ih h).imp_right (List.mem_cons_of_mem _)
    · exact Or.inr h

theorem pairwise_insertByKey (h : l.Pairwise fun a b => key a < key b) :
    (insertByKey key x l).Pairwise fun a b => key a < key b := by
  induction l with
  | nil => exact List.pairwise_singleton ..
  | cons y l ih =>
    obtain ⟨hy, hl⟩ := List.pairwise_cons.mp h
    unfold insertByKey
    split_ifs with hlt hgt
    · refine List.pairwise_cons.mpr ⟨fun z hz => ?_, h⟩
      rcases List.mem_cons.mp hz with rfl | hz
      · exact hlt
      · exact lt_trans hlt (hy z hz)
    · refine List.pairwise_cons.mpr ⟨fun z hz => ?_, ih hl⟩
      rcases mem_insertByKey hz with rfl | hz
      · exact hgt
      · exact hy z hz
    · exact h

theorem insertByKey_of_forall_lt (h : ∀ y ∈ l, key y < key x) : insertByKey key x l = l ++ [x] := by
  induction l with
  | nil => rfl
  | cons y l ih =>
    have hy := h y List.mem_cons_self
    rw [insertByKey, if_neg (lt_asymm hy), if_pos hy, ih fun z hz => h z (List.mem_cons_of_mem _ hz), List.cons_append]

namespace Sorted

def empty : Sorted key := ⟨[], List.Pairwise.nil⟩

def insert (s : Sorted key) (x : α) : Sorted key := ⟨insertByKey key x s.1, pairwise_insertByKey s.2⟩

end Sorted

end Raster.Lib
