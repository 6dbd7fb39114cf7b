import Mathlib.Algebra.Group.Nat.Defs
import Mathlib.Algebra.GroupWithZero.Nat
import Mathlib.Tactic.SplitIfs

/-!
# Code units in UTF-8

`unicode_char_to_utf8` of `raster/enc/uconv.cpp` beside the standard encoding. The encoder cuts a code unit into
groups of six bits and counts those up to the highest one that is not zero. The code points `U+0800` to `U+0FFF`
have two groups and need three bytes.
-/

namespace Raster.Uconv

/-- The loop over `utf8_word[j]`, from the last byte of the word to the first. -/
def sixBitGroups : Nat → UInt16 → List UInt8 → List UInt8
  | 0, _, word => word
  | j + 1, src, word =>
    if src = 0 then word else sixBitGroups j (src >>> 6) (((src &&& 0x3f) ||| 0x80).toUInt8 :: word)

/-- `unicode_char_to_utf8`: the bytes that are copied to `dst`. -/
def unicodeCharToUtf8 (src : UInt16) : List UInt8 :=
  if src = 0 then []
  else if src < 128 then [src.toUInt8]
  else match sixBitGroups 4 src [] with
    | [a, b] => [a ||| 0xc0, b]
    | [a, b, c] => [a ||| 0xe0, b, c]
    | _ => []

/-! ### The standard encoding -/

/-- The standard encoding of a code point of the basic plane. -/
def utf8 (u : UInt16) : List UInt8 := String.utf8EncodeChar (Char.ofNat u.toNat)

/-- The code points with two groups of six bits that need three bytes. -/
def shortened (u : UInt16) : Bool := 0x800 ≤ u && u < 0x1000

def isSurrogate (u : UInt16) : Bool := 0xd800 ≤ u && u < 0xe000

theorem group_eq (u : UInt16) : ((u &&& 0x3f) ||| 0x80).toUInt8 = UInt8.ofNat (u.toNat % 64 + 128) := by
  have hand : u.toNat &&& 63 = u.toNat % 64 := Nat.and_two_pow_sub_one_eq_mod u.toNat 6
  have hor : u.toNat % 64 ||| 128 = u.toNat % 64 + 128 := by
    rw [Nat.or_comm, Nat.add_comm]
    exact (Nat.two_pow_add_eq_or_of_lt (i := 7) (by omega) 1).symm
  apply UInt8.toNat_inj.mp
  rw [UInt16.toNat_toUInt8, UInt16.toNat_or, UInt16.toNat_and, UInt8.toNat_ofNat']
  exact congrArg (· % 2 ^ 8) ((congrArg (· ||| 128) hand).trans hor)

theorem header_eq {n k m : Nat} (hk : n < 2 ^ k) (hn : n < 128) (hm : 128 ||| 2 ^ k * m = 2 ^ k * m) :
    n + 128 ||| 2 ^ k * m = n + 2 ^ k * m := by
  rw [Nat.add_comm n 128, Nat.two_pow_add_eq_or_of_lt (i := 7) hn 1, Nat.or_comm, ← Nat.or_assoc, Nat.or_comm _ (2 ^ 7 * 1), hm,
    Nat.add_comm n]
  exact (Nat.two_pow_add_eq_or_of_lt hk m).symm

theorem header_two {n : Nat} (h : n < 64) : UInt8.ofNat (n + 128) ||| 0xc0 = UInt8.ofNat (n + 192) := by
  apply UInt8.toNat_inj.mp
  rw [UInt8.toNat_or, UInt8.toNat_ofNat', UInt8.toNat_ofNat', Nat.mod_eq_of_lt (by omega), Nat.mod_eq_of_lt (by omega)]
  exact header_eq (k := 6) (m := 3) h (by omega) rfl

theorem header_three {n : Nat} (h : n < 32) : UInt8.ofNat (n + 128) ||| 0xe0 = UInt8.ofNat (n + 224) := by
  apply UInt8.toNat_inj.mp
  rw [UInt8.toNat_or, UInt8.toNat_ofNat', UInt8.toNat_ofNat', Nat.mod_eq_of_lt (by omega), Nat.mod_eq_of_lt (by omega)]
  exact header_eq (k := 5) (m := 7) h (by omega) rfl

theorem toNat_shiftRight_six (u : UInt16) : (u >>> 6).toNat = u.toNat / 64 := by
  rw [UInt16.toNat_shiftRight]
  exact Nat.shiftRight_eq_div_pow u.toNat 6

theorem ne_zero_iff {u : UInt16} : u ≠ 0 ↔ 0 < u.toNat := by
  rw [Ne, ← UInt16.toNat_inj]
  exact Nat.pos_iff_ne_zero.symm

theorem sixBitGroups_succ {j : Nat} {u : UInt16} (hu : 0 < u.toNat) (word : List UInt8) :
    sixBitGroups (j + 1) u word = sixBitGroups j (u >>> 6) (UInt8.ofNat (u.toNat % 64 + 128) :: word) := by
  rw [sixBitGroups, if_neg (ne_zero_iff.mpr hu), group_eq]

theorem sixBitGroups_zero {j : Nat} {u : UInt16} (hu : u.toNat = 0) (word : List UInt8) : sixBitGroups j u word = word := by
  have hu : u = 0 := UInt16.toNat_inj.mp hu
  cases j with
  | zero => rfl
  | succ j => rw [sixBitGroups, if_pos hu]

theorem sixBitGroups_two {u : UInt16} (hlo : 64 ≤ u.toNat) (hhi : u.toNat < 4096) :
    sixBitGroups 4 u [] = [UInt8.ofNat (u.toNat / 64 + 128), UInt8.ofNat (u.toNat % 64 + 128)] := by
  have h1 := toNat_shiftRight_six u
  have h2 := toNat_shiftRight_six (u >>> 6)
  rw [sixBitGroups_succ (by omega), sixBitGroups_succ (by omega), sixBitGroups_zero (by omega), h1,
    Nat.mod_eq_of_lt (show u.toNat / 64 < 64 by omega)]

theorem sixBitGroups_three {u : UInt16} (hlo : 4096 ≤ u.toNat) :
    sixBitGroups 4 u [] = [UInt8.ofNat (u.toNat / 4096 + 128), UInt8.ofNat (u.toNat / 64 % 64 + 128),
      UInt8.ofNat (u.toNat % 64 + 128)] := by
  have hlt := u.toNat_lt
  have h1 := toNat_shiftRight_six u
  have h2 := toNat_shiftRight_six (u >>> 6)
  have h3 := toNat_shiftRight_six (u >>> 6 >>> 6)
  rw [sixBitGroups_succ (by omega), sixBitGroups_succ (by omega), sixBitGroups_succ (by omega), sixBitGroups_zero (by omega),
    h2, h1, Nat.div_div_eq_div_mul, Nat.mod_eq_of_lt (show u.toNat / (64 * 64) < 64 by omega)]

theorem toNat_val_ofNat {u : UInt16} (hu : isSurrogate u = false) : (Char.ofNat u.toNat).val.toNat = u.toNat := by
  have hvalid : u.toNat.isValidChar := by
    have hlt := u.toNat_lt
    simp only [isSurrogate, Bool.and_eq_false_iff, decide_eq_false_iff_not, UInt16.le_iff_toNat_le, UInt16.lt_iff_toNat_lt,
      UInt16.toNat_ofNat] at hu
    unfold Nat.isValidChar
    omega
  rw [Char.ofNat, dif_pos hvalid]
  rfl

theorem utf8_eq {u : UInt16} (hu : isSurrogate u = false) :
    utf8 u =
      if u.toNat ≤ 0x7f then [UInt8.ofNat u.toNat]
      else if u.toNat ≤ 0x7ff then [UInt8.ofNat (u.toNat / 64 % 32 + 192), UInt8.ofNat (u.toNat % 64 + 128)]
      else [UInt8.ofNat (u.toNat / 4096 % 16 + 224), UInt8.ofNat (u.toNat / 64 % 64 + 128), UInt8.ofNat (u.toNat % 64 + 128)] := by
  have hle : u.toNat ≤ 0xffff := Nat.le_of_lt_succ u.toNat_lt
  unfold utf8 String.utf8EncodeChar
  simp only [toNat_val_ofNat hu, if_pos hle]

theorem unicodeCharToUtf8_ascii {u : UInt16} (hpos : 0 < u.toNat) (hlt : u.toNat < 128) :
    unicodeCharToUtf8 u = [UInt8.ofNat u.toNat] := by
  rw [unicodeCharToUtf8, if_neg (ne_zero_iff.mpr hpos), if_pos (UInt16.lt_iff_toNat_lt.mpr hlt)]
  rfl

theorem unicodeCharToUtf8_two {u : UInt16} (hlo : 128 ≤ u.toNat) (hhi : u.toNat < 4096) :
    unicodeCharToUtf8 u = [UInt8.ofNat (u.toNat / 64 + 192), UInt8.ofNat (u.toNat % 64 + 128)] := by
  have hge : ¬ u < 128 := fun h => by
    have := UInt16.lt_iff_toNat_lt.mp h
    exact absurd hlo (Nat.not_le.mpr this)
  rw [unicodeCharToUtf8, if_neg (ne_zero_iff.mpr (by omega)), if_neg hge, sixBitGroups_two (by omega) hhi]
  simp only [header_two (show u.toNat / 64 < 64 by omega)]

theorem unicodeCharToUtf8_three {u : UInt16} (hlo : 4096 ≤ u.toNat) :
    unicodeCharToUtf8 u = [UInt8.ofNat (u.toNat / 4096 + 224), UInt8.ofNat (u.toNat / 64 % 64 + 128),
      UInt8.ofNat (u.toNat % 64 + 128)] := by
  have hlt := u.toNat_lt
  have hge : ¬ u < 128 := fun h => by
    have := UInt16.lt_iff_toNat_lt.mp h
    exact absurd (Nat.le_trans (by decide) hlo) (Nat.not_le.mpr this)
  rw [unicodeCharToUtf8, if_neg (ne_zero_iff.mpr (by omega)), if_neg hge, sixBitGroups_three hlo]
  simp only [header_three (show u.toNat / 4096 < 32 by omega)]

theorem shortened_iff {u : UInt16} : shortened u = true ↔ 0x800 ≤ u.toNat ∧ u.toNat < 0x1000 := by
  simp [shortened, UInt16.le_iff_toNat_le, UInt16.lt_iff_toNat_lt]

theorem unicodeCharToUtf8_eq {u : UInt16} (hpos : u ≠ 0) (hsur : isSurrogate u = false) (hshort : shortened u = false) :
    unicodeCharToUtf8 u = utf8 u := by
  have hpos := ne_zero_iff.mp hpos
  have hlt := u.toNat_lt
  have hshort : ¬ (0x800 ≤ u.toNat ∧ u.toNat < 0x1000) := fun h => by
    rw [shortened_iff.mpr h] at hshort
    cases hshort
  rw [utf8_eq hsur]
  split_ifs with hone htwo
  · exact unicodeCharToUtf8_ascii hpos (by omega)
  · rw [unicodeCharToUtf8_two (by omega) (by omega), Nat.mod_eq_of_lt (show u.toNat / 64 < 32 by omega)]
  · rw [unicodeCharToUtf8_three (by omega), Nat.mod_eq_of_lt (show u.toNat / 4096 < 16 by omega)]

theorem length_utf8 {u : UInt16} (hsur : isSurrogate u = false) :
    (utf8 u).length = if u.toNat < 0x80 then 1 else if u.toNat < 0x800 then 2 else 3 := by
  rw [utf8_eq hsur]
  split_ifs <;> first | omega | rfl

/-- The word of a code point is never longer than the standard says, and shorter exactly where it is shortened. -/
theorem length_unicodeCharToUtf8 {u : UInt16} (hpos : u ≠ 0) (hsur : isSurrogate u = false) :
    (unicodeCharToUtf8 u).length + (if shortened u then 1 else 0) = (utf8 u).length := by
  by_cases hshort : shortened u = true
  · obtain ⟨hlo, hhi⟩ := shortened_iff.mp hshort
    rw [if_pos hshort, unicodeCharToUtf8_two (by omega) (by omega), length_utf8 hsur, if_neg (by omega), if_neg (by omega)]
    rfl
  · rw [if_neg hshort, unicodeCharToUtf8_eq hpos hsur (by simpa using hshort), Nat.add_zero]

theorem length_unicodeCharToUtf8_le (u : UInt16) : (unicodeCharToUtf8 u).length ≤ 3 := by
  unfold unicodeCharToUtf8
  split_ifs
  · simp
  · simp
  · split <;> simp

end Raster.Uconv
