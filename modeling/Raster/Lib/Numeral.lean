import Mathlib.Data.Nat.Digits.Lemmas
import Mathlib.Tactic.SplitIfs

/-!
# Numerals

Digits in a base, the most significant one first, as they are written. The value of a numeral is a left fold, `numeral` is the
shortest numeral of a number, and two numerals of the same length compare as lists do.
-/

namespace Raster.Lib

variable {b : Nat}

/-- The value of some digits. -/
def ofNumeral (b : Nat) (ds : List Nat) : Nat := ds.foldl (fun n d => n * b + d) 0

/-- The digits of a number, with one digit for 0. -/
def numeral (b n : Nat) : List Nat := if n = 0 then [0] else (b.digits n).reverse

/-- The order of lists by the first elements that differ. -/
def lexLe : List Nat → List Nat → Bool
  | [], _ => true
  | _ :: _, [] => false
  | d :: ds, e :: es => d < e || (d == e && lexLe ds es)

theorem ofNumeral_eq (b : Nat) (ds : List Nat) : ofNumeral b ds = Nat.ofDigits b ds.reverse := by
  rw [Nat.ofDigits_eq_foldr, List.foldr_reverse, ofNumeral]
  congr 1
  funext n d
  rw [Nat.cast_id, Nat.add_comm, Nat.mul_comm]

@[simp] theorem ofNumeral_nil : ofNumeral b [] = 0 := rfl

theorem ofNumeral_append (ds es : List Nat) : ofNumeral b (ds ++ es) = ofNumeral b ds * b ^ es.length + ofNumeral b es := by
  rw [ofNumeral_eq, ofNumeral_eq, ofNumeral_eq, List.reverse_append, Nat.ofDigits_append, List.length_reverse, Nat.add_comm,
    Nat.mul_comm]

theorem ofNumeral_cons (d : Nat) (ds : List Nat) : ofNumeral b (d :: ds) = d * b ^ ds.length + ofNumeral b ds := by
  have happend := ofNumeral_append (b := b) [d] ds
  rwa [List.singleton_append, show ofNumeral b [d] = d by simp [ofNumeral]] at happend

theorem ofNumeral_lt (hb : 1 < b) {ds : List Nat} (hds : ∀ d ∈ ds, d < b) : ofNumeral b ds < b ^ ds.length := by
  rw [ofNumeral_eq, ← List.length_reverse]
  exact Nat.ofDigits_lt_base_pow_length hb fun d hd => hds d (List.mem_reverse.1 hd)

theorem ofNumeral_dropWhile (ds : List Nat) : ofNumeral b (ds.dropWhile (· == 0)) = ofNumeral b ds := by
  induction ds with
  | nil => rfl
  | cons d ds ih =>
    rw [List.dropWhile_cons]
    split_ifs with hzero
    · rw [ih, ofNumeral_cons, beq_iff_eq.1 hzero, Nat.zero_mul, Nat.zero_add]
    · rfl

theorem le_ofNumeral {d : Nat} (ds : List Nat) (hd : 0 < d) : b ^ ds.length ≤ ofNumeral b (d :: ds) := by
  rw [ofNumeral_cons]
  exact Nat.le_trans (Nat.le_mul_of_pos_left _ hd) (Nat.le_add_right _ _)

theorem lexLe_iff (hb : 1 < b) {ds es : List Nat} (hlen : ds.length = es.length) (hds : ∀ d ∈ ds, d < b)
    (hes : ∀ d ∈ es, d < b) : lexLe ds es = true ↔ ofNumeral b ds ≤ ofNumeral b es := by
  induction ds generalizing es with
  | nil =>
    obtain rfl := List.eq_nil_of_length_eq_zero hlen.symm
    exact iff_of_true rfl (Nat.le_refl _)
  | cons d ds ih =>
    obtain - | ⟨e, es⟩ := es
    · cases hlen
    · rw [List.length_cons, List.length_cons, Nat.succ.injEq] at hlen
      obtain ⟨-, hds⟩ := List.forall_mem_cons.1 hds
      obtain ⟨-, hes⟩ := List.forall_mem_cons.1 hes
      have hless := ofNumeral_lt hb hds
      have hless' := ofNumeral_lt hb hes
      rw [lexLe, Bool.or_eq_true, Bool.and_eq_true, decide_eq_true_iff, beq_iff_eq, ih hlen hds hes, ofNumeral_cons,
        ofNumeral_cons, hlen]
      rw [hlen] at hless
      obtain hlt | rfl | hgt := Nat.lt_trichotomy d e
      · have hmul : (d + 1) * b ^ es.length ≤ e * b ^ es.length := Nat.mul_le_mul_right _ hlt
        rw [Nat.add_mul, Nat.one_mul] at hmul
        exact iff_of_true (.inl hlt) (by omega)
      · simp
      · have hmul : (e + 1) * b ^ es.length ≤ d * b ^ es.length := Nat.mul_le_mul_right _ hgt
        rw [Nat.add_mul, Nat.one_mul] at hmul
        exact iff_of_false (by omega) (by omega)

theorem lexLe_map_add (k : Nat) (ds es : List Nat) : lexLe (ds.map (k + ·)) (es.map (k + ·)) = lexLe ds es := by
  induction ds generalizing es with
  | nil => rfl
  | cons d ds ih =>
    obtain - | ⟨e, es⟩ := es
    · rfl
    · have hbeq : (k + d == k + e) = (d == e) := by rw [Bool.eq_iff_iff, beq_iff_eq, beq_iff_eq, Nat.add_left_cancel_iff]
      rw [List.map_cons, List.map_cons, lexLe, lexLe, ih, hbeq]
      simp

section Numeral

variable {n : Nat}

theorem numeral_of_lt (hn : n < b) : numeral b n = [n] := by
  unfold numeral
  split_ifs with hzero
  · rw [hzero]
  · rw [Nat.digits_of_lt b n hzero hn, List.reverse_singleton]

theorem numeral_of_le (hb : 1 < b) (hn : b ≤ n) : numeral b n = numeral b (n / b) ++ [n % b] := by
  have hpos : 0 < n / b := Nat.div_pos hn (by omega)
  rw [numeral, if_neg (by omega), numeral, if_neg (by omega), Nat.digits_def' hb (by omega), List.reverse_cons]

theorem ofNumeral_numeral (b n : Nat) : ofNumeral b (numeral b n) = n := by
  unfold numeral
  split_ifs with hzero
  · simp [ofNumeral, hzero]
  · rw [ofNumeral_eq, List.reverse_reverse, Nat.ofDigits_digits]

theorem numeral_lt (hb : 1 < b) : ∀ d ∈ numeral b n, d < b := by
  unfold numeral
  split_ifs
  · simpa using Nat.lt_trans Nat.one_pos hb
  · intro d hd
    exact Nat.digits_lt_base hb (List.mem_reverse.1 hd)

theorem length_numeral_pos (b n : Nat) : 0 < (numeral b n).length := by
  unfold numeral
  split_ifs with hzero
  · exact Nat.one_pos
  · rw [List.length_reverse, List.length_pos_iff]
    exact Nat.digits_ne_nil_iff_ne_zero.2 hzero

theorem length_numeral_eq (hb : 1 < b) {k : Nat} (hle : b ^ k ≤ n) (hlt : n < b ^ (k + 1)) : (numeral b n).length = k + 1 := by
  have hpos : 0 < b ^ k := Nat.pow_pos (by omega)
  rw [numeral, if_neg (by omega), List.length_reverse]
  have hless : n < b ^ (b.digits n).length := Nat.lt_base_pow_length_digits hb
  have hmore : b ^ (b.digits n).length ≤ b * n := Nat.base_pow_length_digits_le b n hb (by omega)
  have hge : k < (b.digits n).length := (Nat.pow_lt_pow_iff_right hb).1 (Nat.lt_of_le_of_lt hle hless)
  have hbound : b ^ (b.digits n).length < b ^ (k + 2) := by
    rw [Nat.pow_succ b (k + 1), Nat.mul_comm _ b]
    exact Nat.lt_of_le_of_lt hmore (Nat.mul_lt_mul_of_pos_left hlt (by omega))
  have hle' := (Nat.pow_lt_pow_iff_right hb).1 hbound
  omega

theorem length_numeral_le (hb : 1 < b) {k : Nat} (hn : n < b ^ (k + 1)) : (numeral b n).length ≤ k + 1 := by
  unfold numeral
  split_ifs with hzero
  · simp
  · have hmore : b ^ (b.digits n).length ≤ b * n := Nat.base_pow_length_digits_le b n hb hzero
    have hbound : b ^ (b.digits n).length < b ^ (k + 2) := by
      rw [Nat.pow_succ b (k + 1), Nat.mul_comm _ b]
      exact Nat.lt_of_le_of_lt hmore (Nat.mul_lt_mul_of_pos_left hn (by omega))
    have hle := (Nat.pow_lt_pow_iff_right hb).1 hbound
    rw [List.length_reverse]
    omega

theorem length_numeral_le_iff (hb : 1 < b) {k : Nat} : (numeral b n).length ≤ k + 1 ↔ n < b ^ (k + 1) := by
  constructor
  · intro hlen
    have hlt := ofNumeral_lt hb (numeral_lt (n := n) hb)
    rw [ofNumeral_numeral] at hlt
    exact hlt.trans_le (Nat.pow_le_pow_right (by omega) hlen)
  · exact length_numeral_le hb

end Numeral

end Raster.Lib
