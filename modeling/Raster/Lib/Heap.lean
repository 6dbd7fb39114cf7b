import Mathlib.Data.List.Basic
import Mathlib.Logic.Function.Basic
import Mathlib.Tactic.SplitIfs

/-!
# Memory in blocks

A heap of blocks of cells with counts of their users. A new block has a name that was not used before, and its cells hold whatever
`junk` says. `slice` reads a range of a block and `splice` writes one: what is read is what was written there, and what was there
before everywhere else. A block is free once its last user has released it.
-/

namespace Raster.Lib

variable {α : Type*}

/-! ### Ranges of a list -/

/-- The `n` elements from `i` on. -/
def slice (l : List α) (i n : Nat) : List α := (l.drop i).take n

/-- The list with `bs` in the place of the elements from `i` on. -/
def splice (l : List α) (i : Nat) (bs : List α) : List α := l.take i ++ bs ++ l.drop (i + bs.length)

@[simp] theorem slice_zero (l : List α) (i : Nat) : slice l i 0 = [] := List.take_zero

theorem length_slice {l : List α} {i n : Nat} (h : i + n ≤ l.length) : (slice l i n).length = n := by
  rw [slice, List.length_take, List.length_drop]
  omega

theorem length_splice {l bs : List α} {i : Nat} (h : i + bs.length ≤ l.length) : (splice l i bs).length = l.length := by
  rw [splice, List.length_append, List.length_append, List.length_take, List.length_drop]
  omega

theorem slice_splice_before {l : List α} {i j n : Nat} (bs : List α) (h : j + n ≤ i) (hi : i ≤ l.length) :
    slice (splice l i bs) j n = slice l j n := by
  have hlen : (l.take i).length = i := by rw [List.length_take]; omega
  rw [slice, slice, splice, List.append_assoc, List.drop_append_of_le_length (by omega),
    List.take_append_of_le_length (by rw [List.length_drop]; omega), List.drop_take, List.take_take]
  congr 1
  omega

theorem slice_splice_append {l : List α} (i n : Nat) (bs : List α) (h : i + n ≤ l.length) :
    slice (splice l (i + n) bs) i (n + bs.length) = slice l i n ++ bs := by
  have hlen : (l.take (i + n)).length = i + n := by rw [List.length_take]; omega
  have hdrop : (l.take (i + n)).drop i = slice l i n := by rw [slice, List.drop_take, Nat.add_sub_cancel_left]
  have hslice := length_slice h
  rw [slice, splice, List.append_assoc, List.drop_append_of_le_length (by omega), hdrop, ← List.append_assoc,
    List.take_append_of_le_length (by rw [List.length_append]; omega), List.take_of_length_le (by rw [List.length_append]; omega)]

theorem slice_splice_same {l : List α} {i : Nat} (bs : List α) (h : i ≤ l.length) : slice (splice l i bs) i bs.length = bs := by
  have happend := slice_splice_append i 0 bs (l := l) h
  rwa [Nat.zero_add, Nat.add_zero, slice_zero, List.nil_append] at happend

theorem slice_splice_prepend {l : List α} (i n : Nat) (bs : List α) (h : i ≤ l.length) :
    slice (splice l i bs) i (bs.length + n) = bs ++ slice l (i + bs.length) n := by
  have hlen : (l.take i).length = i := by rw [List.length_take]; omega
  rw [slice, splice, List.append_assoc, List.drop_append, List.drop_eq_nil_of_le (by omega), hlen, Nat.sub_self, List.drop_zero,
    List.nil_append, List.take_length_add_append]
  rfl

theorem slice_splice_around {l : List α} {i k n : Nat} (bs : List α) (hk : k + bs.length ≤ n) (h : i + n ≤ l.length) :
    slice (splice l (i + k) bs) i n = splice (slice l i n) k bs := by
  have hpre : (l.take (i + k)).length = i + k := by rw [List.length_take]; omega
  have hdrop : (l.take (i + k)).drop i = slice l i k := by rw [slice, List.drop_take, Nat.add_sub_cancel_left]
  have htake : (slice l i n).take k = slice l i k := by rw [slice, slice, List.take_take, Nat.min_eq_left (by omega)]
  have hk' : (slice l i k).length = k := length_slice (by omega)
  have hback : (l.drop (i + k + bs.length)).take (n - k - bs.length) = (slice l i n).drop (k + bs.length) := by
    rw [slice, List.drop_take, List.drop_drop, Nat.add_assoc, show n - k - bs.length = n - (k + bs.length) by omega]
  rw [slice, splice, List.append_assoc, List.drop_append_of_le_length (by omega), hdrop, List.take_append, List.take_append, hk',
    List.take_of_length_le (by omega), List.take_of_length_le (by omega), hback, splice, htake, List.append_assoc]

theorem slice_splice_zero {l bs : List α} {i n : Nat} (h : i + n ≤ bs.length) : slice (splice l 0 bs) i n = slice bs i n := by
  rw [slice, slice, splice, List.take_zero, List.nil_append, List.drop_append_of_le_length (by omega),
    List.take_append_of_le_length (by rw [List.length_drop]; omega)]

theorem slice_take {l : List α} {i n m : Nat} (h : i + n ≤ m) : slice (l.take m) i n = slice l i n := by
  rw [slice, slice, List.drop_take, List.take_take]
  congr 1
  omega

/-! ### The heap -/

structure Block (α : Type*) where
  cells : List α
  refcount : Nat

structure Heap (α : Type*) where
  blocks : Nat → Block α
  /-- The blocks from here on have not been used yet. -/
  fresh : Nat

namespace Heap

variable (junk : Nat → Nat → α)

/-- The name of a new block of `n` cells, and the heap with it. -/
def alloc (h : Heap α) (n : Nat) : Nat × Heap α :=
  (h.fresh, { blocks := Function.update h.blocks h.fresh { cells := (List.range n).map (junk h.fresh), refcount := 1 },
              fresh := h.fresh + 1 })

def write (h : Heap α) (b i : Nat) (bs : List α) : Heap α :=
  { h with blocks := Function.update h.blocks b { h.blocks b with cells := splice (h.blocks b).cells i bs } }

def free (h : Heap α) (b : Nat) : Heap α := { h with blocks := Function.update h.blocks b { cells := [], refcount := 0 } }

/-- One user less; the block is freed after the last one. -/
def release (h : Heap α) (b : Nat) : Heap α :=
  if (h.blocks b).refcount ≤ 1 then h.free b
  else { h with blocks := Function.update h.blocks b { h.blocks b with refcount := (h.blocks b).refcount - 1 } }

/-- One user more. -/
def retain (h : Heap α) (b : Nat) : Heap α :=
  { h with blocks := Function.update h.blocks b { h.blocks b with refcount := (h.blocks b).refcount + 1 } }

theorem alloc_of_ne (h : Heap α) (n : Nat) {b : Nat} (hb : b ≠ h.fresh) : (h.alloc junk n).2.blocks b = h.blocks b :=
  Function.update_of_ne hb ..

theorem alloc_new (h : Heap α) (n : Nat) :
    ((h.alloc junk n).2.blocks h.fresh).cells.length = n ∧ ((h.alloc junk n).2.blocks h.fresh).refcount = 1 := by
  show (Function.update h.blocks h.fresh _ h.fresh).cells.length = n ∧ (Function.update h.blocks h.fresh _ h.fresh).refcount = 1
  rw [Function.update_self]
  exact ⟨by rw [List.length_map, List.length_range], rfl⟩

theorem write_of_ne (h : Heap α) {b b' : Nat} (hb : b' ≠ b) (i : Nat) (bs : List α) : (h.write b i bs).blocks b' = h.blocks b' :=
  Function.update_of_ne hb ..

theorem write_self (h : Heap α) (b i : Nat) (bs : List α) :
    (h.write b i bs).blocks b = { h.blocks b with cells := splice (h.blocks b).cells i bs } :=
  Function.update_self ..

theorem refcount_write (h : Heap α) (b i : Nat) (bs : List α) (b' : Nat) :
    ((h.write b i bs).blocks b').refcount = (h.blocks b').refcount := by
  by_cases heq : b' = b
  · subst heq
    rw [write_self]
  · rw [write_of_ne h heq]

theorem length_write (h : Heap α) {b i : Nat} {bs : List α} (hfit : i + bs.length ≤ (h.blocks b).cells.length) (b' : Nat) :
    ((h.write b i bs).blocks b').cells.length = (h.blocks b').cells.length := by
  by_cases heq : b' = b
  · subst heq
    rw [write_self]
    exact length_splice hfit
  · rw [write_of_ne h heq]

theorem free_of_ne (h : Heap α) {b b' : Nat} (hb : b' ≠ b) : (h.free b).blocks b' = h.blocks b' :=
  Function.update_of_ne hb ..

theorem release_of_ne (h : Heap α) {b b' : Nat} (hb : b' ≠ b) : (h.release b).blocks b' = h.blocks b' := by
  unfold release
  split_ifs
  · exact free_of_ne h hb
  · exact Function.update_of_ne hb ..

theorem release_self (h : Heap α) {b : Nat} (hb : 1 < (h.blocks b).refcount) :
    (h.release b).blocks b = { h.blocks b with refcount := (h.blocks b).refcount - 1 } := by
  rw [release, if_neg (by omega)]
  exact Function.update_self ..

theorem free_self (h : Heap α) (b : Nat) : (h.free b).blocks b = { cells := [], refcount := 0 } := Function.update_self ..

theorem retain_of_ne (h : Heap α) {b b' : Nat} (hb : b' ≠ b) : (h.retain b).blocks b' = h.blocks b' :=
  Function.update_of_ne hb ..

theorem retain_self (h : Heap α) (b : Nat) :
    (h.retain b).blocks b = { h.blocks b with refcount := (h.blocks b).refcount + 1 } := Function.update_self ..

theorem cells_retain (h : Heap α) (b b' : Nat) : ((h.retain b).blocks b').cells = (h.blocks b').cells := by
  by_cases heq : b' = b
  · subst heq
    rw [retain_self]
  · rw [retain_of_ne h heq]

theorem foldl_release (bs : List Nat) (h : Heap α) {b : Nat} (hb : bs.count b < (h.blocks b).refcount) :
    ((bs.foldl release h).blocks b).cells = (h.blocks b).cells ∧
    ((bs.foldl release h).blocks b).refcount = (h.blocks b).refcount - bs.count b := by
  induction bs generalizing h with
  | nil => exact ⟨rfl, rfl⟩
  | cons b' bs ih =>
    rw [List.foldl_cons]
    by_cases heq : b = b'
    · subst heq
      rw [List.count_cons_self] at hb ⊢
      have hself := release_self h (b := b) (by omega)
      obtain ⟨hcells, hcount⟩ := ih (h.release b) (by rw [hself]; show bs.count b < _ - 1; omega)
      rw [hself] at hcells hcount
      refine ⟨hcells, hcount.trans ?_⟩
      show (h.blocks b).refcount - 1 - bs.count b = _
      omega
    · have hne := release_of_ne h heq
      rw [List.count_cons_of_ne (Ne.symm heq)] at hb ⊢
      obtain ⟨hcells, hcount⟩ := ih (h.release b') (by rw [hne]; exact hb)
      rw [hne] at hcells hcount
      exact ⟨hcells, hcount⟩

@[simp] theorem fresh_release (h : Heap α) (b : Nat) : (h.release b).fresh = h.fresh := by
  unfold release
  split_ifs <;> rfl

@[simp] theorem fresh_foldl_release (bs : List Nat) (h : Heap α) : (bs.foldl release h).fresh = h.fresh := by
  induction bs generalizing h with
  | nil => rfl
  | cons b bs ih => rw [List.foldl_cons, ih, fresh_release]

end Heap

end Raster.Lib
