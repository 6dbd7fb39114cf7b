import Raster.Enc.Gbk
import Mathlib.Tactic.Tauto

/-!
# From GBK to code units

`gbk_to_unicode` of `raster/enc/uconv.cpp`. The destination is the memory behind `dst`, with whatever it held
before. Each turn of the loop counts one unit; an invalid byte stores `UCS2_NO_MAPPING` or ends the call if the
flags say so, and otherwise its unit is counted without being stored.
-/

namespace Raster.Uconv

/-- The memory behind the destination. -/
abbrev Units := Nat → UInt16

/-- `CHK_FLG`, with `none` for the early return. -/
def chkFlg (flags : Flags) (dst : Units) (dl : Nat) : Option Units :=
  if flags.has .error then none
  else if flags.has .replace then some (Function.update dst dl noMapping)
  else some dst

/-- The loop of `gbk_to_unicode`, at the bytes that are left. -/
def gbkToUnicodeLoop (table : GbkTable) (dstSize : UInt32) (flags : Flags) : List UInt8 → Nat → Units → Int × Units
  | [], dl, dst => (toInt dl, dst)
  | a :: src, dl, dst =>
    if dl < dstSize.toNat then
      if legalGbkFirstByte a then
        match src with
        | [] => (toInt dl, dst)
        | b :: rest =>
          if legalGbkSecondByte b then
            gbkToUnicodeLoop table dstSize flags rest (dl + 1) (Function.update dst dl (gbkCharToUnicode table a b))
          else match chkFlg flags dst dl with
            | none => (-1, dst)
            | some dst => gbkToUnicodeLoop table dstSize flags (b :: rest) (dl + 1) dst
      else if isAscii a then
        gbkToUnicodeLoop table dstSize flags src (dl + 1) (Function.update dst dl a.toUInt16)
      else if a = gbkEuro then
        gbkToUnicodeLoop table dstSize flags src (dl + 1) (Function.update dst dl ucs2Euro)
      else match chkFlg flags dst dl with
        | none => (-1, dst)
        | some dst => gbkToUnicodeLoop table dstSize flags src (dl + 1) dst
    else (toInt dl, dst)

def gbkToUnicode (table : GbkTable) (src : List UInt8) (dst : Units) (dstSize : UInt32) (flags : Flags) : Int × Units :=
  if dstSize = 0 then (0, dst) else gbkToUnicodeLoop table dstSize flags src 0 dst

/-! ### The loop, one character after the other -/

variable {table : GbkTable} {dstSize : UInt32} {flags : Flags}

/-- One turn of the loop. -/
def storeToken (table : GbkTable) (flags : Flags) (t : GbkToken) (dst : Units) (dl : Nat) : Option Units :=
  match t.codeUnit table with
  | some u => some (Function.update dst dl u)
  | none => chkFlg flags dst dl

/-- The loop on the characters that there is room for. -/
def storeTokens (table : GbkTable) (flags : Flags) : List GbkToken → Nat → Units → Int × Units
  | [], dl, dst => (toInt dl, dst)
  | t :: ts, dl, dst =>
    match storeToken table flags t dst dl with
    | none => (-1, dst)
    | some dst => storeTokens table flags ts (dl + 1) dst

theorem take_room {t : GbkToken} {ts : List GbkToken} {size dl : Nat} (h : dl < size) :
    (t :: ts).take (size - dl) = t :: ts.take (size - (dl + 1)) := by
  rw [show size - dl = size - (dl + 1) + 1 by omega, List.take_succ_cons]

theorem storeToken_single_ascii {a : UInt8} (ha : isAscii a = true) (dst : Units) (dl : Nat) :
    storeToken table flags (.single a) dst dl = some (Function.update dst dl a.toUInt16) := by
  rw [GbkToken.single, if_pos ha]
  rfl

theorem storeToken_single_euro (dst : Units) (dl : Nat) :
    storeToken table flags (.single gbkEuro) dst dl = some (Function.update dst dl ucs2Euro) := rfl

theorem storeToken_single_invalid {a : UInt8} (ha : ¬ isAscii a = true) (ha' : a ≠ gbkEuro) (dst : Units) (dl : Nat) :
    storeToken table flags (.single a) dst dl = chkFlg flags dst dl := by
  rw [GbkToken.single, if_neg ha, if_neg ha']
  rfl

theorem gbkToUnicodeLoop_eq (src : List UInt8) (dl : Nat) (dst : Units) :
    gbkToUnicodeLoop table dstSize flags src dl dst =
      storeTokens table flags ((gbkTokens src).take (dstSize.toNat - dl)) dl dst := by
  fun_induction gbkToUnicodeLoop table dstSize flags src dl dst with
  | case1 dl dst => rw [gbkTokens_nil, List.take_nil, storeTokens]
  | case2 dl dst a hroom ha => rw [gbkTokens_half ha, List.take_nil, storeTokens]
  | case3 dl dst a hroom ha b rest hb ih =>
    rw [gbkTokens_pair ha hb, take_room hroom, storeTokens, ih]
    rfl
  | case4 dl dst a hroom ha b rest hb hflag =>
    rw [gbkTokens_broken ha hb, take_room hroom, storeTokens, storeToken]
    simp only [GbkToken.codeUnit, hflag]
  | case5 dl dst a hroom ha b rest hb dst' hflag ih =>
    rw [gbkTokens_broken ha hb, take_room hroom, storeTokens, storeToken, ih]
    simp only [GbkToken.codeUnit, hflag]
  | case6 dl dst a src hroom ha hascii ih =>
    rw [gbkTokens_single ha, take_room hroom, storeTokens, storeToken_single_ascii hascii, ih]
  | case7 dl dst src hroom ha hascii ih =>
    rw [gbkTokens_single ha, take_room hroom, storeTokens, storeToken_single_euro, ih]
  | case8 dl dst a src hroom ha hascii heuro hflag =>
    rw [gbkTokens_single ha, take_room hroom, storeTokens, storeToken_single_invalid hascii heuro, hflag]
  | case9 dl dst a src hroom ha hascii heuro dst' hflag ih =>
    rw [gbkTokens_single ha, take_room hroom, storeTokens, storeToken_single_invalid hascii heuro, hflag, ih]
  | case10 dl dst a src hroom =>
    rw [Nat.sub_eq_zero_of_le (Nat.le_of_not_lt hroom), List.take_zero, storeTokens]

/-- The characters of a text that are converted into a destination of the size. -/
def converted (src : List UInt8) (dstSize : UInt32) : List GbkToken := (gbkTokens src).take dstSize.toNat

theorem gbkToUnicode_eq (src : List UInt8) (dst : Units) :
    gbkToUnicode table src dst dstSize flags = storeTokens table flags (converted src dstSize) 0 dst := by
  unfold gbkToUnicode
  split_ifs with hsize
  · rw [hsize]
    rfl
  · rw [gbkToUnicodeLoop_eq, converted, Nat.sub_zero]

/-! ### What a call returns and leaves -/

theorem storeToken_eq_none_iff {t : GbkToken} {dst : Units} {dl : Nat} :
    storeToken table flags t dst dl = none ↔ flags.has .error = true ∧ t.isInvalid = true := by
  cases t with
  | invalid c =>
    unfold storeToken chkFlg
    simp only [GbkToken.codeUnit, GbkToken.isInvalid, and_true]
    split_ifs <;> simp_all
  | _ => simp [storeToken, GbkToken.codeUnit, GbkToken.isInvalid]

theorem storeToken_of_ne {t : GbkToken} {dst dst' : Units} {dl j : Nat} (h : storeToken table flags t dst dl = some dst')
    (hne : j ≠ dl) : dst' j = dst j := by
  unfold storeToken chkFlg at h
  split at h
  · cases h
    exact Function.update_of_ne hne ..
  · split_ifs at h
    · cases h
      exact Function.update_of_ne hne ..
    · cases h
      rfl

theorem storeToken_self {t : GbkToken} {dst dst' : Units} {dl : Nat} (h : storeToken table flags t dst dl = some dst') :
    dst' dl = (t.codeUnit table).getD (if flags.has .replace then noMapping else dst dl) := by
  unfold storeToken chkFlg at h
  cases hunit : t.codeUnit table with
  | some u =>
    simp only [hunit] at h
    cases h
    exact Function.update_self ..
  | none =>
    simp only [hunit] at h
    split_ifs at h with _ hreplace
    · cases h
      rw [Option.getD_none, if_pos hreplace, Function.update_self]
    · cases h
      rw [Option.getD_none, if_neg hreplace]

theorem storeTokens_fst (ts : List GbkToken) (dl : Nat) (dst : Units) :
    (storeTokens table flags ts dl dst).1 =
      if flags.has .error = true ∧ ∃ t ∈ ts, t.isInvalid = true then -1 else toInt (dl + ts.length) := by
  induction ts generalizing dl dst with
  | nil => simp [storeTokens]
  | cons t ts ih =>
    rw [storeTokens]
    cases hstore : storeToken table flags t dst dl with
    | none =>
      obtain ⟨herror, ht⟩ := storeToken_eq_none_iff.mp hstore
      rw [if_pos ⟨herror, t, List.mem_cons_self, ht⟩]
    | some dst' =>
      have ht : ¬ (flags.has .error = true ∧ t.isInvalid = true) := by
        intro hnone
        rw [storeToken_eq_none_iff.mpr hnone] at hstore
        cases hstore
      refine (ih (dl + 1) dst').trans ?_
      rw [List.length_cons, Nat.add_assoc, Nat.add_comm 1]
      refine if_congr ?_ rfl rfl
      simp only [List.mem_cons, exists_eq_or_imp]
      tauto

theorem storeTokens_below (ts : List GbkToken) (dl : Nat) (dst : Units) {j : Nat} (hj : j < dl) :
    (storeTokens table flags ts dl dst).2 j = dst j := by
  induction ts generalizing dl dst with
  | nil => rfl
  | cons t ts ih =>
    rw [storeTokens]
    cases hstore : storeToken table flags t dst dl with
    | none => rfl
    | some dst' => exact (ih (dl + 1) dst' (by omega)).trans (storeToken_of_ne hstore (by omega))

theorem storeTokens_unit (table : GbkTable) (ts : List GbkToken) (dl : Nat) (dst : Units)
    (hok : ¬ (flags.has .error = true ∧ ∃ t ∈ ts, t.isInvalid = true)) {k : Nat} (hk : k < ts.length) :
    (storeTokens table flags ts dl dst).2 (dl + k) =
      (ts[k].codeUnit table).getD (if flags.has .replace then noMapping else dst (dl + k)) := by
  induction ts generalizing dl dst k with
  | nil => cases hk
  | cons t ts ih =>
    rw [storeTokens]
    cases hstore : storeToken table flags t dst dl with
    | none =>
      obtain ⟨herror, ht⟩ := storeToken_eq_none_iff.mp hstore
      exact absurd ⟨herror, t, List.mem_cons_self, ht⟩ hok
    | some dst' =>
      cases k with
      | zero => exact (storeTokens_below ts (dl + 1) dst' (by omega)).trans (storeToken_self hstore)
      | succ k =>
        have hok' : ¬ (flags.has .error = true ∧ ∃ t ∈ ts, t.isInvalid = true) :=
          fun ⟨herror, t', ht', hinv⟩ => hok ⟨herror, t', List.mem_cons_of_mem _ ht', hinv⟩
        have hrest := ih (dl + 1) dst' hok' (Nat.lt_of_succ_lt_succ hk)
        rw [show dl + 1 + k = dl + (k + 1) by omega, storeToken_of_ne hstore (by omega)] at hrest
        exact hrest

/-! ### The destination and its old content -/

/-- The flags leave an invalid byte without a unit. -/
def Flags.silent (flags : Flags) : Bool := !flags.has .error && !flags.has .replace

/-- Two calls into different memory return the same number, and the units that they count are the same. -/
def WritesWhatItCounts (table : GbkTable) (src : List UInt8) (dstSize : UInt32) (flags : Flags) : Prop :=
  ∀ dst dst' : Units,
    (gbkToUnicode table src dst dstSize flags).1 = (gbkToUnicode table src dst' dstSize flags).1 ∧
    (0 ≤ (gbkToUnicode table src dst dstSize flags).1 →
      ∀ j : Nat, j < (gbkToUnicode table src dst dstSize flags).1 →
        (gbkToUnicode table src dst dstSize flags).2 j = (gbkToUnicode table src dst' dstSize flags).2 j)

theorem length_converted_lt (src : List UInt8) (dstSize : UInt32) : (converted src dstSize).length < 2 ^ 32 :=
  Nat.lt_of_le_of_lt (List.length_take_le ..) dstSize.toNat_lt

/-- **The output does not depend on the old memory exactly if no invalid byte is passed over.** For every text,
size and flags: the flags say what to do with invalid bytes, or there are none among the converted characters, or
there are so many that the number returned is negative. -/
theorem writesWhatItCounts_iff (table : GbkTable) (src : List UInt8) (dstSize : UInt32) (flags : Flags) :
    WritesWhatItCounts table src dstSize flags ↔
      flags.silent = false ∨ (∀ t ∈ converted src dstSize, t.isInvalid = false) ∨
        2 ^ 31 ≤ (converted src dstSize).length := by
  have hlength := length_converted_lt src dstSize
  constructor
  · intro h
    by_contra hnot
    obtain ⟨hsilent, hinv, hcount⟩ : flags.silent = true ∧ (∃ t ∈ converted src dstSize, t.isInvalid = true) ∧
        (converted src dstSize).length < 2 ^ 31 := by
      simpa [not_or] using hnot
    obtain ⟨herror, hreplace⟩ : flags.has .error = false ∧ flags.has .replace = false := by
      simpa [Flags.silent] using hsilent
    obtain ⟨t, ht, hinv⟩ := hinv
    obtain ⟨k, hk, rfl⟩ := List.getElem_of_mem ht
    have hok : ¬ (flags.has .error = true ∧ ∃ t ∈ converted src dstSize, t.isInvalid = true) := by simp [herror]
    have hunit : ∀ dst : Units, (gbkToUnicode table src dst dstSize flags).2 k = dst k := by
      intro dst
      have hkth := storeTokens_unit table (converted src dstSize) 0 dst hok hk
      rwa [GbkToken.codeUnit_eq_none.mpr hinv, Option.getD_none, if_neg (by simp [hreplace]), Nat.zero_add,
        ← gbkToUnicode_eq] at hkth
    have hret : (gbkToUnicode table src (fun _ => 0) dstSize flags).1 = (converted src dstSize).length := by
      rw [gbkToUnicode_eq, storeTokens_fst, if_neg hok, Nat.zero_add, toInt_of_lt hcount]
    have heq := (h (fun _ => 0) (fun _ => 1)).2 (by omega) k (by omega)
    rw [hunit, hunit] at heq
    cases heq
  · intro h dst dst'
    rw [gbkToUnicode_eq, gbkToUnicode_eq, storeTokens_fst, storeTokens_fst]
    refine ⟨rfl, fun hnonneg j hj => ?_⟩
    split_ifs at hnonneg hj with hbad
    · exact absurd hnonneg (by decide)
    rw [Nat.zero_add] at hnonneg hj
    have hcount : (converted src dstSize).length < 2 ^ 31 := by
      by_contra hle
      exact absurd hnonneg (Int.not_le.mpr (toInt_neg (Nat.le_of_not_lt hle) hlength))
    rw [toInt_of_lt hcount, Int.ofNat_lt] at hj
    have hleft := storeTokens_unit table (converted src dstSize) 0 dst hbad hj
    have hright := storeTokens_unit table (converted src dstSize) 0 dst' hbad hj
    rw [Nat.zero_add] at hleft hright
    rw [hleft, hright]
    rcases h with hflags | hvalid | hcount'
    · cases hunit : (converted src dstSize)[j].codeUnit table with
      | some u => rfl
      | none =>
        have hinv := GbkToken.codeUnit_eq_none.mp hunit
        have hreplace : flags.has .replace = true := by
          have herror : flags.has .error = false := by
            by_contra herror
            exact hbad ⟨by simpa using herror, _, List.getElem_mem hj, hinv⟩
          simpa [Flags.silent, herror] using hflags
        rw [Option.getD_none, Option.getD_none, if_pos hreplace, if_pos hreplace]
    · cases hunit : (converted src dstSize)[j].codeUnit table with
      | some u => rfl
      | none =>
        have hinv := GbkToken.codeUnit_eq_none.mp hunit
        rw [hvalid _ (List.getElem_mem hj)] at hinv
        cases hinv
    · omega

/-- One invalid byte: one unit is counted and none is stored. -/
theorem writesWhatItCounts_false_invalid : ¬ WritesWhatItCounts (fun _ => 0x4e00) [0xff] 1 .ignore := by
  intro h
  have heq := (h (fun _ => 0) (fun _ => 1)).2 (by decide) 0 (by decide)
  revert heq
  decide

end Raster.Uconv
