import Raster.Enc.CharProperty
import Mathlib.Data.Nat.Init

/-!
# Property tables for GBK

With the charset `gbk`, `compile` writes the table of code points in the order of their GBK codes. In the table of
the codes `0` stands for no code, and ASCII has the entry `0` too, although its codes are its code points. So the
loop writes all of these to index `0`, one over the other, and nothing to the indices of ASCII.
-/

namespace Raster.CharProperty

/-- The GBK code of a code point. -/
def encoding (unicodeToGbk : UInt16 → UInt16) (c : UInt16) : Option UInt16 :=
  if c < 0x80 then some c else if unicodeToGbk c = 0 then none else some (unicodeToGbk c)

/-- The table of GBK is the one of code points, at the index of their codes; a code point without a code does not
change it when the loop comes to it. -/
structure Reindexed (unicodeToGbk : UInt16 → UInt16) (table gbk : Table) : Prop where
  encoded : ∀ c g : UInt16, c < 0xffff → encoding unicodeToGbk c = some g → gbk g = table c
  unencoded : ∀ c : UInt16, c < 0xffff → encoding unicodeToGbk c = none →
    gbkTableUpTo unicodeToGbk table (c.toNat + 1) = gbkTableUpTo unicodeToGbk table c.toNat

/-- What is known of the table of GBK codes: ASCII has no entries, and the codes are above ASCII. -/
structure GbkCodes (unicodeToGbk : UInt16 → UInt16) : Prop where
  ascii : ∀ c : UInt16, c < 0x80 → unicodeToGbk c = 0
  above : ∀ c : UInt16, unicodeToGbk c ≠ 0 → ¬ unicodeToGbk c < 0x80

variable {unicodeToGbk : UInt16 → UInt16} {table : Table}

theorem gbkTableUpTo_succ (n : Nat) (g : UInt16) :
    gbkTableUpTo unicodeToGbk table (n + 1) g =
      if unicodeToGbk (UInt16.ofNat n) = g then table (UInt16.ofNat n) else gbkTableUpTo unicodeToGbk table n g := by
  rw [gbkTableUpTo, Function.update_apply]
  exact if_congr eq_comm rfl rfl

theorem gbkTableUpTo_cases (n : Nat) (hn : n ≤ 0xffff) (g : UInt16) :
    (gbkTableUpTo unicodeToGbk table n g = 0 ∧ ∀ c : UInt16, c.toNat < n → unicodeToGbk c ≠ g) ∨
    ∃ c : UInt16, c.toNat < n ∧ unicodeToGbk c = g ∧ gbkTableUpTo unicodeToGbk table n g = table c := by
  induction n with
  | zero => exact Or.inl ⟨rfl, fun c hc => absurd hc (Nat.not_lt_zero _)⟩
  | succ n ih =>
    have htoNat : (UInt16.ofNat n).toNat = n := by
      rw [UInt16.toNat_ofNat', Nat.mod_eq_of_lt (by omega)]
    rw [gbkTableUpTo_succ]
    split_ifs with hg
    · exact Or.inr ⟨UInt16.ofNat n, by omega, hg, rfl⟩
    · rcases ih (by omega) with ⟨hzero, hnone⟩ | ⟨c, hc, hcg, htable⟩
      · refine Or.inl ⟨hzero, fun c hc hcg => ?_⟩
        rcases Nat.lt_succ_iff_lt_or_eq.mp hc with hlt | heq
        · exact hnone c hlt hcg
        · exact hg (by rw [← heq, UInt16.ofNat_toNat, hcg])
      · exact Or.inr ⟨c, by omega, hcg, htable⟩

theorem gbkTableUpTo_ascii (hcodes : GbkCodes unicodeToGbk) {n : Nat} (hn : n ≤ 0xffff) {g : UInt16} (hg : g < 0x80)
    (hne : g ≠ 0) : gbkTableUpTo unicodeToGbk table n g = 0 := by
  rcases gbkTableUpTo_cases n hn g with ⟨hzero, -⟩ | ⟨c, -, hcg, -⟩
  · exact hzero
  · exact absurd (hcg ▸ hg) (hcodes.above c (hcg ▸ hne))

/-- The code points that have no entry in the table of codes. -/
def Blank (unicodeToGbk : UInt16 → UInt16) (c : UInt16) : Prop := c < 0x80 ∨ unicodeToGbk c = 0

instance (c : UInt16) : Decidable (Blank unicodeToGbk c) := inferInstanceAs (Decidable (_ ∨ _))

theorem encoding_of_not_blank {c : UInt16} (h : ¬ Blank unicodeToGbk c) :
    encoding unicodeToGbk c = some (unicodeToGbk c) := by
  rw [encoding, if_neg fun hc => h (Or.inl hc), if_neg fun hc => h (Or.inr hc)]

theorem Reindexed.ascii (hcodes : GbkCodes unicodeToGbk) (h : Reindexed unicodeToGbk table (gbkTable unicodeToGbk table))
    {c : UInt16} (hc : c < 0x80) (hne : c ≠ 0) : table c = 0 := by
  have hlt : c < 0xffff := UInt16.lt_trans hc (by decide)
  rw [← h.encoded c c hlt (if_pos hc)]
  exact gbkTableUpTo_ascii hcodes (Nat.le_refl _) hc hne

theorem toNat_ofNat_of_lt {n : Nat} (hn : n < 0xffff) : (UInt16.ofNat n).toNat = n := by
  rw [UInt16.toNat_ofNat', Nat.mod_eq_of_lt (by omega)]

/-- After the first two code points nothing but zero is at index `0`: the code points that the loop writes there are of
ASCII, or do not change it. -/
theorem Reindexed.zero (hcodes : GbkCodes unicodeToGbk) (h : Reindexed unicodeToGbk table (gbkTable unicodeToGbk table))
    {n : Nat} (htwo : 2 ≤ n) (hn : n ≤ 0xffff) : gbkTableUpTo unicodeToGbk table n 0 = 0 := by
  induction n, htwo using Nat.le_induction with
  | base =>
    rw [gbkTableUpTo_succ, if_pos (hcodes.ascii _ (by decide))]
    exact h.ascii hcodes (by decide) (by decide)
  | succ n hle ih =>
    have htoNat := toNat_ofNat_of_lt (n := n) (by omega)
    have hlt : UInt16.ofNat n < 0xffff := by
      rw [UInt16.lt_iff_toNat_lt, htoNat]
      exact hn
    by_cases hsmall : UInt16.ofNat n < 0x80
    · rw [gbkTableUpTo_succ, if_pos (hcodes.ascii _ hsmall)]
      refine h.ascii hcodes hsmall fun hzero => ?_
      rw [hzero, UInt16.toNat_zero] at htoNat
      omega
    · by_cases hblank : unicodeToGbk (UInt16.ofNat n) = 0
      · have hsame := h.unencoded _ hlt (by rw [encoding, if_neg hsmall, if_pos hblank])
        rw [htoNat] at hsame
        rw [hsame]
        exact ih (by omega)
      · rw [gbkTableUpTo_succ, if_neg hblank]
        exact ih (by omega)

theorem Reindexed.blank (hcodes : GbkCodes unicodeToGbk) (h : Reindexed unicodeToGbk table (gbkTable unicodeToGbk table))
    {c : UInt16} (hc : c < 0xffff) (hblank : Blank unicodeToGbk c) : table c = 0 := by
  by_cases hsmall : c < 0x80
  · rw [← h.encoded c c hc (if_pos hsmall)]
    by_cases hne : c = 0
    · rw [hne]
      exact h.zero hcodes (by decide) (Nat.le_refl _)
    · exact gbkTableUpTo_ascii hcodes (Nat.le_refl _) hsmall hne
  · have hzero := hblank.resolve_left hsmall
    have hlarge : 0x80 ≤ c.toNat := UInt16.le_iff_toNat_le.mp (UInt16.not_lt.mp hsmall)
    have hlt : c.toNat < 0xffff := UInt16.lt_iff_toNat_lt.mp hc
    have hsame := congrFun (h.unencoded c hc (by rw [encoding, if_neg hsmall, if_pos hzero])) 0
    rw [gbkTableUpTo_succ, UInt16.ofNat_toNat, if_pos hzero] at hsame
    rw [hsame]
    exact h.zero hcodes (by omega) (by omega)

theorem reindexed_of_blank (hcodes : GbkCodes unicodeToGbk)
    (hblank : ∀ c : UInt16, c < 0xffff → Blank unicodeToGbk c → table c = 0)
    (hsame : ∀ c c' : UInt16, c < 0xffff → c' < 0xffff → ¬ Blank unicodeToGbk c → unicodeToGbk c' = unicodeToGbk c →
      table c' = table c) : Reindexed unicodeToGbk table (gbkTable unicodeToGbk table) := by
  have hzero : ∀ n ≤ 0xffff, gbkTableUpTo unicodeToGbk table n 0 = 0 := by
    intro n hn
    rcases gbkTableUpTo_cases n hn 0 with ⟨h, -⟩ | ⟨c, hc, hc0, htable⟩
    · exact h
    · rw [htable]
      exact hblank c (UInt16.lt_iff_toNat_lt.mpr (Nat.lt_of_lt_of_le hc hn)) (Or.inr hc0)
  constructor
  · intro c g hc hg
    by_cases hb : Blank unicodeToGbk c
    · have hsmall : c < 0x80 := by
        by_contra hlarge
        rw [encoding, if_neg hlarge, if_pos (hb.resolve_left hlarge)] at hg
        cases hg
      rw [encoding, if_pos hsmall] at hg
      cases hg
      rw [hblank c hc hb]
      by_cases hne : c = 0
      · rw [hne]
        exact hzero _ (Nat.le_refl _)
      · exact gbkTableUpTo_ascii hcodes (Nat.le_refl _) hsmall hne
    · rw [encoding_of_not_blank hb] at hg
      cases hg
      rcases @gbkTableUpTo_cases unicodeToGbk table 0xffff (Nat.le_refl _) (unicodeToGbk c) with ⟨-, hnone⟩ | ⟨c', hc', hsamec, htable⟩
      · exact absurd rfl (hnone c (UInt16.lt_iff_toNat_lt.mp hc))
      · rw [gbkTable, htable]
        exact hsame c c' hc (UInt16.lt_iff_toNat_lt.mpr hc') hb hsamec
  · intro c hc hnone
    have hlarge : ¬ c < 0x80 := fun hsmall => by
      rw [encoding, if_pos hsmall] at hnone
      cases hnone
    have hc0 : unicodeToGbk c = 0 := by
      by_contra hne
      rw [encoding_of_not_blank (not_or.mpr ⟨hlarge, hne⟩)] at hnone
      cases hnone
    funext g
    rw [gbkTableUpTo_succ, UInt16.ofNat_toNat, hc0]
    split_ifs with hg
    · rw [← hg, hblank c hc (Or.inr hc0), hzero _ (Nat.le_of_lt (UInt16.lt_iff_toNat_lt.mp hc))]
    · rfl

/-- **The table of GBK is the one of code points exactly if nothing that goes to index `0` has properties.** For every
configuration that is accepted: no character of ASCII and no code point without a code has a property, and code
points with the same code have the same properties. -/
theorem reindexed_iff (unicodeToGbk : UInt16 → UInt16) (hcodes : GbkCodes unicodeToGbk) (text behind : List UInt8)
    (ucs2 gbk : Compiled) (hucs2 : compile unicodeToGbk text behind "ucs2" = some ucs2)
    (hgbk : compile unicodeToGbk text behind "gbk" = some gbk) :
    Reindexed unicodeToGbk ucs2.table gbk.table ↔
      (∀ c : UInt16, c < 0xffff → Blank unicodeToGbk c → ucs2.table c = 0) ∧
      ∀ c c' : UInt16, c < 0xffff → c' < 0xffff → ¬ Blank unicodeToGbk c → unicodeToGbk c' = unicodeToGbk c →
        ucs2.table c' = ucs2.table c := by
  have hgbktable : gbk.table = gbkTable unicodeToGbk ucs2.table := by
    obtain ⟨conf, hconf⟩ := exists_conf_of_compile hucs2
    rw [compile_ucs2 hconf] at hucs2
    rw [compile_gbk hconf] at hgbk
    cases hucs2
    cases hgbk
    rfl
  rw [hgbktable]
  constructor
  · intro h
    refine ⟨fun c hc hblank => h.blank hcodes hc hblank, fun c c' hc hc' hblank hsame => ?_⟩
    have hblank' : ¬ Blank unicodeToGbk c' := by
      rintro (hsmall | hzero)
      · exact hblank (Or.inr (hsame ▸ hcodes.ascii c' hsmall))
      · exact hblank (Or.inr (hsame ▸ hzero))
    rw [← h.encoded c' _ hc' (encoding_of_not_blank hblank'), hsame, h.encoded c _ hc (encoding_of_not_blank hblank)]
  · rintro ⟨hblank, hsame⟩
    exact reindexed_of_blank hcodes hblank hsame

/-- A table of codes with one entry, for `U+4E00`. -/
def oneCode (c : UInt16) : UInt16 := if c = 0x4e00 then 0xd2bb else 0

theorem oneCode_codes : GbkCodes oneCode := by
  constructor
  · intro c hc
    refine if_neg ?_
    rintro rfl
    exact absurd hc (by decide)
  · intro c hc
    unfold oneCode at hc ⊢
    split_ifs at hc ⊢
    · decide
    · exact absurd rfl hc

theorem parse_oneRange_hanzi :
    parse [0x41, 0x0a, 0x30, 0x78, 0x34, 0x65, 0x30, 0x30, 0x20, 0x41] [] = some (oneRange 0x4e00 0x4e00 [[0x41]]) := rfl

/-- A category `A` and the line `0x4e00 A`. -/
theorem reindexed_iff_oneCode :
    ∃ ucs2 gbk, compile oneCode [0x41, 0x0a, 0x30, 0x78, 0x34, 0x65, 0x30, 0x30, 0x20, 0x41] [] "ucs2" = some ucs2 ∧
      compile oneCode [0x41, 0x0a, 0x30, 0x78, 0x34, 0x65, 0x30, 0x30, 0x20, 0x41] [] "gbk" = some gbk ∧
      Reindexed oneCode ucs2.table gbk.table := by
  have hucs2 := @compile_ucs2 oneCode _ _ _ parse_oneRange_hanzi
  have hgbk := @compile_gbk oneCode _ _ _ parse_oneRange_hanzi
  refine ⟨_, _, hucs2, hgbk, (reindexed_iff oneCode oneCode_codes _ [] _ _ hucs2 hgbk).mpr ⟨?_, ?_⟩⟩
  · intro c _ hblank
    have hne : c ≠ 0x4e00 := by
      rintro rfl
      exact absurd hblank (by decide)
    refine if_neg fun hcontains => hne ?_
    exact UInt16.le_antisymm hcontains.2 hcontains.1
  · intro c c' _ _ hc hsame
    have hone : ∀ x, oneCode x ≠ 0 → x = 0x4e00 := by
      intro x hx
      by_contra hne
      exact hx (if_neg hne)
    have hc0 : oneCode c ≠ 0 := fun hzero => hc (Or.inr hzero)
    rw [hone c hc0, hone c' (hsame ▸ hc0)]

/-- A category `A` and the line `0x0041 A`: the letter has no properties in the table of GBK. -/
theorem reindexed_false_letter :
    ∃ ucs2 gbk, compile oneCode [0x41, 0x0a, 0x30, 0x78, 0x30, 0x30, 0x34, 0x31, 0x20, 0x41] [] "ucs2" = some ucs2 ∧
      compile oneCode [0x41, 0x0a, 0x30, 0x78, 0x30, 0x30, 0x34, 0x31, 0x20, 0x41] [] "gbk" = some gbk ∧
      ¬ Reindexed oneCode ucs2.table gbk.table := by
  refine ⟨_, _, compile_ucs2 parse_oneRange_letter, compile_gbk parse_oneRange_letter, fun h => ?_⟩
  have hletter := h.ascii oneCode_codes (c := 0x41) (by decide) (by decide)
  revert hletter
  decide

end Raster.CharProperty
