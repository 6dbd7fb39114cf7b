import Raster.Enc.GbkToUnicode
import Raster.Enc.Utf8

/-!
# From GBK to UTF-8

`gbk_to_utf8` of `raster/enc/uconv.cpp`. Its loop has an index and a pointer that go on together as long as an
invalid byte is skipped or ends the call, and then it is a loop over the characters (`putTokens`). It is compared
with `gbk_to_unicode` followed by the standard encoding, and with the room that the size check leaves.
-/

namespace Raster.Uconv

/-- The end of a turn of the loop: the word is left out if there is no room for it. -/
def putUtf8 (dstSize : UInt32) (tmp : UInt16) (dl : UInt32) (out : List UInt8)
    (next : UInt32 → List UInt8 → Int × List UInt8) : Int × List UInt8 :=
  let word := unicodeCharToUtf8 tmp
  let len := UInt32.ofNat word.length
  if dstSize ≤ dl + len then (toInt dl.toNat, out) else next (dl + len) (out ++ word)

/-- The loop of `gbk_to_utf8`: `n` is `src_len - i`, and `src` is what is left behind the pointer, which is never
behind `i`. -/
def gbkToUtf8Loop (table : GbkTable) (dstSize : UInt32) (flags : Flags) :
    Nat → List UInt8 → UInt16 → UInt32 → List UInt8 → Int × List UInt8
  | 0, _, _, dl, out => (toInt dl.toNat, out)
  | _ + 1, [], _, dl, out => (toInt dl.toNat, out)
  | n + 1, a :: src, tmp, dl, out =>
    if dl < dstSize then
      if legalGbkFirstByte a then
        match n, src with
        | 0, _ => (toInt dl.toNat, out)
        | _ + 1, [] => (toInt dl.toNat, out)
        | n + 1, b :: rest =>
          if legalGbkSecondByte b then
            let tmp := gbkCharToUnicode table a b
            putUtf8 dstSize tmp dl out (gbkToUtf8Loop table dstSize flags n rest tmp)
          else if flags.has .error then (-1, out)
          else if flags = .ignore then gbkToUtf8Loop table dstSize flags (n + 1) (b :: rest) tmp dl out
          else putUtf8 dstSize tmp dl out (gbkToUtf8Loop table dstSize flags (n + 1) (a :: b :: rest) tmp)
      else if isAscii a then
        let tmp := a.toUInt16
        putUtf8 dstSize tmp dl out (gbkToUtf8Loop table dstSize flags n src tmp)
      else if a = gbkEuro then
        let tmp := ucs2Euro
        putUtf8 dstSize tmp dl out (gbkToUtf8Loop table dstSize flags n src tmp)
      else if flags.has .error then (-1, out)
      else if flags = .ignore then gbkToUtf8Loop table dstSize flags n src tmp dl out
      else putUtf8 dstSize tmp dl out (gbkToUtf8Loop table dstSize flags n (a :: src) tmp)
    else (toInt dl.toNat, out)

/-- `gbk_to_utf8`, with the bytes that it writes. -/
def gbkToUtf8 (table : GbkTable) (src : List UInt8) (dstSize : UInt32) (flags : Flags) : Int × List UInt8 :=
  if dstSize = 0 then (0, [])
  else if dstSize < UInt32.ofNat src.length / 2 * 3 + 1 then (-1, [])
  else gbkToUtf8Loop table dstSize flags src.length src 0 0 []

/-! ### The loop, one character after the other -/

/-- The loop on characters: one that is not valid is skipped or ends the call. -/
def putTokens (table : GbkTable) (dstSize : UInt32) (flags : Flags) : List GbkToken → UInt32 → List UInt8 → Int × List UInt8
  | [], dl, out => (toInt dl.toNat, out)
  | t :: ts, dl, out =>
    if dl < dstSize then
      match t.codeUnit table with
      | some u => putUtf8 dstSize u dl out (putTokens table dstSize flags ts)
      | none => if flags.has .error then (-1, out) else putTokens table dstSize flags ts dl out
    else (toInt dl.toNat, out)

variable {table : GbkTable} {dstSize : UInt32} {flags : Flags}

theorem putUtf8_congr {u : UInt16} {dl : UInt32} {out : List UInt8} {next next' : UInt32 → List UInt8 → Int × List UInt8}
    (h : ∀ dl out, next dl out = next' dl out) : putUtf8 dstSize u dl out next = putUtf8 dstSize u dl out next' := by
  rw [funext fun dl => funext fun out => h dl out]

/-- The flags, or the text, keep the pointer and the index together. -/
def InStep (flags : Flags) (ts : List GbkToken) : Prop :=
  flags = .ignore ∨ flags.has .error = true ∨ ∀ t ∈ ts, t.isInvalid = false

theorem InStep.tail {t : GbkToken} {ts : List GbkToken} (h : InStep flags (t :: ts)) : InStep flags ts := by
  rcases h with h | h | h
  · exact Or.inl h
  · exact Or.inr (Or.inl h)
  · exact Or.inr (Or.inr fun t' ht' => h t' (List.mem_cons_of_mem _ ht'))

theorem InStep.ignore_of_invalid {c : UInt8} {ts : List GbkToken} (h : InStep flags (.invalid c :: ts))
    (herror : ¬ flags.has .error = true) : flags = .ignore := by
  rcases h with h | h | h
  · exact h
  · exact absurd h herror
  · cases h _ List.mem_cons_self

theorem gbkToUtf8Loop_eq (src : List UInt8) (tmp : UInt16) (dl : UInt32) (out : List UInt8) (h : InStep flags (gbkTokens src)) :
    gbkToUtf8Loop table dstSize flags src.length src tmp dl out = putTokens table dstSize flags (gbkTokens src) dl out := by
  fun_induction gbkTokens src generalizing tmp dl out with
  | case1 => rfl
  | case2 a ha =>
    rw [List.length_singleton, gbkToUtf8Loop, putTokens, if_pos ha]
    exact ite_self _
  | case3 a ha b rest hb ih =>
    rw [List.length_cons, List.length_cons, gbkToUtf8Loop, putTokens, if_pos ha]
    refine if_congr Iff.rfl ?_ rfl
    simp only [if_pos hb]
    exact putUtf8_congr fun dl out => ih _ dl out h.tail
  | case4 a ha b rest hb ih =>
    rw [List.length_cons, List.length_cons, gbkToUtf8Loop, putTokens, if_pos ha]
    refine if_congr Iff.rfl ?_ rfl
    simp only [if_neg hb, GbkToken.codeUnit]
    split_ifs with herror hignore
    · rfl
    · exact ih tmp dl out h.tail
    · exact absurd (h.ignore_of_invalid herror) hignore
  | case5 a src ha ih =>
    rw [List.length_cons, gbkToUtf8Loop.eq_def, putTokens]
    refine if_congr Iff.rfl ?_ rfl
    rw [if_neg ha]
    by_cases hascii : isAscii a = true
    · rw [if_pos hascii, GbkToken.single, if_pos hascii]
      exact putUtf8_congr fun dl out => ih _ dl out h.tail
    by_cases heuro : a = gbkEuro
    · rw [if_neg hascii, if_pos heuro, GbkToken.single, if_neg hascii, if_pos heuro]
      exact putUtf8_congr fun dl out => ih _ dl out h.tail
    rw [GbkToken.single, if_neg hascii, if_neg heuro] at h ⊢
    rw [if_neg hascii, if_neg heuro]
    split_ifs with herror hignore
    · rfl
    · exact ih tmp dl out h.tail
    · exact absurd (h.ignore_of_invalid herror) hignore

/-- The code units of the valid characters. -/
def codeUnits (table : GbkTable) (ts : List GbkToken) : List UInt16 := ts.filterMap fun t => t.codeUnit table

/-- What the encoder makes of the valid characters. -/
def words (table : GbkTable) (ts : List GbkToken) : List UInt8 := (codeUnits table ts).flatMap unicodeCharToUtf8

theorem words_cons_some {t : GbkToken} {u : UInt16} (ht : t.codeUnit table = some u) (ts : List GbkToken) :
    words table (t :: ts) = unicodeCharToUtf8 u ++ words table ts := by
  rw [words, codeUnits, List.filterMap_cons_some ht, List.flatMap_cons]
  rfl

theorem words_cons_none {t : GbkToken} (ht : t.codeUnit table = none) (ts : List GbkToken) :
    words table (t :: ts) = words table ts := by
  rw [words, codeUnits, List.filterMap_cons_none ht]
  rfl

theorem toNat_add_ofNat {dl : UInt32} {k : Nat} (h : dl.toNat + k < 2 ^ 32) : (dl + UInt32.ofNat k).toNat = dl.toNat + k := by
  rw [UInt32.toNat_add, UInt32.toNat_ofNat', Nat.mod_eq_of_lt (show k < 2 ^ 32 by omega), Nat.mod_eq_of_lt h]

theorem putUtf8_room {u : UInt16} {dl : UInt32} {out : List UInt8} {next : UInt32 → List UInt8 → Int × List UInt8}
    (h : dl.toNat + (unicodeCharToUtf8 u).length < dstSize.toNat) :
    putUtf8 dstSize u dl out next =
      next (dl + UInt32.ofNat (unicodeCharToUtf8 u).length) (out ++ unicodeCharToUtf8 u) := by
  have hsize := dstSize.toNat_lt
  refine if_neg fun hle => ?_
  rw [UInt32.le_iff_toNat_le, toNat_add_ofNat (by omega)] at hle
  omega

/-- The flags make an invalid byte among the characters an error. -/
def Fails (flags : Flags) (ts : List GbkToken) : Prop := flags.has .error = true ∧ ∃ t ∈ ts, t.isInvalid = true

instance (ts : List GbkToken) : Decidable (Fails flags ts) := inferInstanceAs (Decidable (_ ∧ _))

theorem fails_cons {t : GbkToken} {ts : List GbkToken} (ht : t.isInvalid = false) :
    Fails flags (t :: ts) ↔ Fails flags ts := by
  simp [Fails, ht]

theorem isInvalid_of_codeUnit {t : GbkToken} {u : UInt16} (ht : t.codeUnit table = some u) : t.isInvalid = false := by
  by_contra hinv
  rw [GbkToken.codeUnit_eq_none.mpr (by simpa using hinv)] at ht
  cases ht

theorem putTokens_room (ts : List GbkToken) (dl : UInt32) (out : List UInt8)
    (hroom : dl.toNat + (words table ts).length < dstSize.toNat) :
    (Fails flags ts → (putTokens table dstSize flags ts dl out).1 = -1) ∧
    (¬ Fails flags ts → putTokens table dstSize flags ts dl out =
      (toInt (dl.toNat + (words table ts).length), out ++ words table ts)) := by
  have hsize := dstSize.toNat_lt
  induction ts generalizing dl out with
  | nil =>
    refine ⟨fun hfails => ?_, fun _ => ?_⟩
    · obtain ⟨-, t, ht, -⟩ := hfails
      cases ht
    · rw [putTokens, words, codeUnits, List.filterMap_nil, List.flatMap_nil, List.append_nil, List.length_nil, Nat.add_zero]
  | cons t ts ih =>
    have hdl : dl < dstSize := UInt32.lt_iff_toNat_lt.mpr (by omega)
    rw [putTokens, if_pos hdl]
    cases ht : t.codeUnit table with
    | some u =>
      rw [words_cons_some ht, List.length_append] at hroom ⊢
      rw [fails_cons (isInvalid_of_codeUnit ht)]
      simp only [putUtf8_room (show dl.toNat + (unicodeCharToUtf8 u).length < dstSize.toNat by omega)]
      have hlen : (dl + UInt32.ofNat (unicodeCharToUtf8 u).length).toNat = dl.toNat + (unicodeCharToUtf8 u).length :=
        toNat_add_ofNat (by omega)
      have hrest := ih (dl + UInt32.ofNat (unicodeCharToUtf8 u).length) (out ++ unicodeCharToUtf8 u) (by omega)
      rwa [hlen, Nat.add_assoc, List.append_assoc] at hrest
    | none =>
      have hinv := GbkToken.codeUnit_eq_none.mp ht
      rw [words_cons_none ht] at hroom ⊢
      by_cases herror : flags.has .error = true
      · exact ⟨fun _ => by simp only [if_pos herror], fun hnot => absurd ⟨herror, t, List.mem_cons_self, hinv⟩ hnot⟩
      · simp only [if_neg herror]
        obtain ⟨-, hok⟩ := ih dl out hroom
        exact ⟨fun hfails => absurd hfails.1 herror, fun _ => hok fun hfails => herror hfails.1⟩

theorem putTokens_lt (ts : List GbkToken) (dl : UInt32) (out : List UInt8) (hdl : dl < dstSize) (hok : ¬ Fails flags ts) :
    ∃ d : UInt32, d < dstSize ∧ (putTokens table dstSize flags ts dl out).1 = toInt d.toNat := by
  induction ts generalizing dl out with
  | nil => exact ⟨dl, hdl, by rw [putTokens]⟩
  | cons t ts ih =>
    rw [putTokens, if_pos hdl]
    cases ht : t.codeUnit table with
    | some u =>
      rw [fails_cons (isInvalid_of_codeUnit ht)] at hok
      show ∃ d : UInt32, d < dstSize ∧ (putUtf8 dstSize u dl out _).1 = toInt d.toNat
      unfold putUtf8
      dsimp only
      split_ifs with hfull
      · exact ⟨dl, hdl, by dsimp only⟩
      · exact ih _ _ (UInt32.not_le.mp hfull) hok
    | none =>
      have hinv := GbkToken.codeUnit_eq_none.mp ht
      by_cases herror : flags.has .error = true
      · exact absurd ⟨herror, t, List.mem_cons_self, hinv⟩ hok
      · simp only [if_neg herror]
        exact ih dl out hdl fun hfails => herror hfails.1

/-! ### The text without its invalid bytes -/

/-- The text without its invalid bytes; half a character at the end stays. -/
def dropInvalid : List UInt8 → List UInt8
  | [] => []
  | a :: src =>
    if legalGbkFirstByte a then
      match src with
      | [] => [a]
      | b :: rest => if legalGbkSecondByte b then a :: b :: dropInvalid rest else dropInvalid (b :: rest)
    else if (GbkToken.single a).isInvalid then dropInvalid src
    else a :: dropInvalid src

theorem gbkTokens_dropInvalid (src : List UInt8) :
    gbkTokens (dropInvalid src) = (gbkTokens src).filter fun t => !t.isInvalid := by
  fun_induction dropInvalid src with
  | case1 => rfl
  | case2 a ha =>
    rw [gbkTokens_half ha]
    rfl
  | case3 a ha b rest hb ih =>
    rw [gbkTokens_pair ha hb, gbkTokens_pair ha hb, ih]
    rfl
  | case4 a ha b rest hb ih =>
    rw [gbkTokens_broken ha hb, ih]
    rfl
  | case5 a src ha hinv ih => rw [gbkTokens_single ha, List.filter_cons_of_neg (by simp [hinv]), ih]
  | case6 a src ha hinv ih =>
    rw [gbkTokens_single ha, gbkTokens_single ha, List.filter_cons_of_pos (by simpa using hinv), ih]

theorem length_gbkTokens_le (src : List UInt8) : (gbkTokens src).length ≤ src.length := by
  fun_induction gbkTokens src with
  | case1 => exact Nat.le_refl 0
  | case2 a ha => exact Nat.zero_le _
  | case3 a ha b rest hb ih =>
    simp only [List.length_cons]
    omega
  | case4 a ha b rest hb ih =>
    simp only [List.length_cons] at ih ⊢
    omega
  | case5 a src ha ih =>
    simp only [List.length_cons]
    omega

theorem mem_of_ascii_mem {src : List UInt8} {c : UInt8} (h : GbkToken.ascii c ∈ gbkTokens src) : c ∈ src := by
  fun_induction gbkTokens src with
  | case1 => cases h
  | case2 a ha => cases h
  | case3 a ha b rest hb ih =>
    rcases List.mem_cons.mp h with h | h
    · cases h
    · exact List.mem_cons_of_mem _ (List.mem_cons_of_mem _ (ih h))
  | case4 a ha b rest hb ih =>
    rcases List.mem_cons.mp h with h | h
    · cases h
    · exact List.mem_cons_of_mem _ (ih h)
  | case5 a src ha ih =>
    rcases List.mem_cons.mp h with h | h
    · unfold GbkToken.single at h
      split_ifs at h
      cases h
      exact List.mem_cons_self
    · exact List.mem_cons_of_mem _ (ih h)

theorem codeUnits_filter (ts : List GbkToken) : codeUnits table (ts.filter fun t => !t.isInvalid) = codeUnits table ts := by
  induction ts with
  | nil => rfl
  | cons t ts ih =>
    cases ht : t.codeUnit table with
    | some u =>
      rw [List.filter_cons_of_pos (by simp [isInvalid_of_codeUnit ht]), codeUnits, codeUnits, List.filterMap_cons_some ht,
        List.filterMap_cons_some ht]
      exact congrArg (u :: ·) ih
    | none =>
      rw [List.filter_cons_of_neg (by simp [GbkToken.codeUnit_eq_none.mp ht]), ih, codeUnits, codeUnits,
        List.filterMap_cons_none ht]

theorem codeUnits_eq_map {ts : List GbkToken} (hts : ∀ t ∈ ts, t.isInvalid = false) (x : GbkToken → UInt16) :
    codeUnits table ts = ts.map fun t => (t.codeUnit table).getD (x t) := by
  induction ts with
  | nil => rfl
  | cons t ts ih =>
    obtain ⟨ht, hts⟩ := List.forall_mem_cons.mp hts
    cases hunit : t.codeUnit table with
    | some u =>
      rw [codeUnits, List.filterMap_cons_some hunit, List.map_cons, hunit]
      exact congrArg (u :: ·) (ih hts)
    | none =>
      rw [GbkToken.codeUnit_eq_none.mp hunit] at ht
      cases ht

/-- Code points that the table and a text without `NUL` give. -/
def Regular (u : UInt16) : Prop := u ≠ 0 ∧ isSurrogate u = false

/-- What holds of the table, of the euro sign and of the bytes of the text holds of the code units of its characters. -/
theorem forall_codeUnits {P : UInt16 → Prop} {src : List UInt8} (htable : ∀ i, P (table i)) (hnone : P noMapping)
    (heuro : P ucs2Euro) (hbytes : ∀ c ∈ src, P c.toUInt16) : ∀ u ∈ codeUnits table (gbkTokens src), P u := by
  intro u hu
  obtain ⟨t, ht, hunit⟩ := List.mem_filterMap.mp hu
  cases t with
  | pair a b =>
    cases hunit
    unfold gbkCharToUnicode
    dsimp only
    split_ifs
    · exact htable _
    · exact hnone
  | ascii c =>
    cases hunit
    exact hbytes c (mem_of_ascii_mem ht)
  | euro =>
    cases hunit
    exact heuro
  | invalid c => cases hunit

theorem toUInt16_lt (c : UInt8) {n : UInt16} (hn : 256 ≤ n.toNat) : c.toUInt16 < n := by
  rw [UInt16.lt_iff_toNat_lt, UInt8.toNat_toUInt16]
  exact Nat.lt_of_lt_of_le c.toNat_lt hn

theorem regular_byte {c : UInt8} (hc : c ≠ 0) : Regular c.toUInt16 := by
  constructor
  · intro h
    exact hc (UInt8.toNat_inj.mp (by simpa using congrArg UInt16.toNat h))
  · have hlt : ¬ (0xd800 : UInt16) ≤ c.toUInt16 := UInt16.not_le.mpr (toUInt16_lt c (by decide))
    simp [isSurrogate, hlt]

theorem regular_codeUnits {src : List UInt8} (htable : ∀ i, Regular (table i)) (hnul : 0 ∉ src) :
    ∀ u ∈ codeUnits table (gbkTokens src), Regular u :=
  forall_codeUnits htable ⟨by decide, by decide⟩ ⟨by decide, by decide⟩ fun _ hc => regular_byte fun hzero => hnul (hzero ▸ hc)

theorem shortened_codeUnits {src : List UInt8} (htable : ∀ i, shortened (table i) = false) :
    ∀ u ∈ codeUnits table (gbkTokens src), shortened u = false := by
  refine forall_codeUnits htable (by decide) (by decide) fun c _ => ?_
  have hlt : ¬ (0x800 : UInt16) ≤ c.toUInt16 := UInt16.not_le.mpr (toUInt16_lt c (by decide))
  simp [shortened, hlt]

/-! ### The two ways to UTF-8 -/

/-- The words of regular code points are as long as the standard encodings, less one byte for each shortened one. -/
theorem length_words_add {us : List UInt16} (hus : ∀ u ∈ us, Regular u) :
    (us.flatMap unicodeCharToUtf8).length + us.countP shortened = (us.flatMap utf8).length := by
  induction us with
  | nil => rfl
  | cons u us ih =>
    obtain ⟨hu, hus⟩ := List.forall_mem_cons.mp hus
    have hlen := length_unicodeCharToUtf8 hu.1 hu.2
    have hrest := ih hus
    rw [List.flatMap_cons, List.flatMap_cons, List.length_append, List.length_append, List.countP_cons]
    omega

theorem words_eq_iff {us : List UInt16} (hus : ∀ u ∈ us, Regular u) :
    us.flatMap unicodeCharToUtf8 = us.flatMap utf8 ↔ ∀ u ∈ us, shortened u = false := by
  constructor
  · intro h u hu
    have hlen := length_words_add hus
    rw [h] at hlen
    have hcount : us.countP shortened = 0 := by omega
    simpa using List.countP_eq_zero.mp hcount u hu
  · intro h
    induction us with
    | nil => rfl
    | cons u us ih =>
      obtain ⟨hu, hus⟩ := List.forall_mem_cons.mp hus
      obtain ⟨hshort, hshorts⟩ := List.forall_mem_cons.mp h
      rw [List.flatMap_cons, List.flatMap_cons, unicodeCharToUtf8_eq hu.1 hu.2 hshort, ih hus hshorts]

theorem length_flatMap_le (us : List UInt16) : (us.flatMap unicodeCharToUtf8).length ≤ 3 * us.length := by
  induction us with
  | nil => exact Nat.zero_le _
  | cons u us ih =>
    have hu := length_unicodeCharToUtf8_le u
    rw [List.flatMap_cons, List.length_append, List.length_cons]
    omega

theorem length_words_le (table : GbkTable) (src : List UInt8) : (words table (gbkTokens src)).length ≤ 3 * src.length := by
  have hwords := length_flatMap_le (codeUnits table (gbkTokens src))
  have hunits : (codeUnits table (gbkTokens src)).length ≤ (gbkTokens src).length := List.length_filterMap_le ..
  have htokens := length_gbkTokens_le src
  rw [words]
  omega

/-- The units of `gbk_to_unicode` for the text without its invalid bytes, in the standard encoding, and their length. -/
def viaUnicode (table : GbkTable) (src : List UInt8) (dst : Units) (dstSize : UInt32) (flags : Flags) : Int × List UInt8 :=
  let r := gbkToUnicode table (dropInvalid src) dst dstSize flags
  let bytes := ((List.range r.1.toNat).map r.2).flatMap utf8
  (toInt bytes.length, bytes)

/-- `gbk_to_utf8` does the same as `gbk_to_unicode` followed by the standard encoding; with errors, it fails on the
same texts. -/
def AgreesThroughUnicode (table : GbkTable) (src : List UInt8) (dstSize : UInt32) (flags : Flags) : Prop :=
  ∀ dst : Units,
    (flags = .ignore → gbkToUtf8 table src dstSize flags = viaUnicode table src dst dstSize flags) ∧
    (flags.has .error = true →
      ((gbkToUtf8 table src dstSize flags).1 = -1 ↔ (gbkToUnicode table src dst dstSize flags).1 = -1) ∧
      ((gbkToUtf8 table src dstSize flags).1 ≠ -1 →
        gbkToUtf8 table src dstSize flags = viaUnicode table src dst dstSize flags))

theorem converted_eq {src : List UInt8} (hroom : src.length ≤ dstSize.toNat) : converted src dstSize = gbkTokens src :=
  List.take_of_length_le (Nat.le_trans (length_gbkTokens_le src) hroom)

theorem gbkToUnicode_fst {src : List UInt8} (dst : Units) (hroom : src.length ≤ dstSize.toNat) :
    (gbkToUnicode table src dst dstSize flags).1 =
      if Fails flags (gbkTokens src) then -1 else toInt (gbkTokens src).length := by
  rw [gbkToUnicode_eq, storeTokens_fst, converted_eq hroom, Nat.zero_add]
  rfl

theorem viaUnicode_eq {src : List UInt8} (dst : Units) (hroom : 3 * src.length + 1 ≤ dstSize.toNat) :
    viaUnicode table src dst dstSize flags =
      (toInt ((codeUnits table (gbkTokens src)).flatMap utf8).length, (codeUnits table (gbkTokens src)).flatMap utf8) := by
  have hsize := dstSize.toNat_lt
  have htokens := length_gbkTokens_le src
  have hvalid : ∀ t ∈ (gbkTokens src).filter fun t => !t.isInvalid, t.isInvalid = false :=
    fun t ht => by simpa using (List.mem_filter.mp ht).2
  have hconv : converted (dropInvalid src) dstSize = (gbkTokens src).filter fun t => !t.isInvalid := by
    rw [converted, gbkTokens_dropInvalid, List.take_of_length_le]
    exact Nat.le_trans (List.length_filter_le ..) (by omega)
  have hcount : ((gbkTokens src).filter fun t => !t.isInvalid).length < 2 ^ 31 :=
    Nat.lt_of_le_of_lt (List.length_filter_le ..) (by omega)
  have hok : ¬ (flags.has .error = true ∧ ∃ t ∈ (gbkTokens src).filter fun t => !t.isInvalid, t.isInvalid = true) := by
    rintro ⟨-, t, ht, hinv⟩
    rw [hvalid t ht] at hinv
    cases hinv
  have hunits : (List.range ((gbkTokens src).filter fun t => !t.isInvalid).length).map
      (gbkToUnicode table (dropInvalid src) dst dstSize flags).2 = codeUnits table (gbkTokens src) := by
    rw [← codeUnits_filter, codeUnits_eq_map hvalid fun _ => 0, gbkToUnicode_eq, hconv]
    refine List.ext_getElem (by simp) fun k hk hk' => ?_
    rw [List.length_map] at hk'
    have hkth := storeTokens_unit table _ 0 dst hok hk'
    have hinv := hvalid _ (List.getElem_mem hk')
    rw [List.getElem_map, List.getElem_range, List.getElem_map]
    rw [Nat.zero_add] at hkth
    rw [hkth]
    cases hunit : (((gbkTokens src).filter fun t => !t.isInvalid)[k]).codeUnit table with
    | some u => rfl
    | none =>
      rw [GbkToken.codeUnit_eq_none.mp hunit] at hinv
      cases hinv
  have hret : (gbkToUnicode table (dropInvalid src) dst dstSize flags).1 =
      ((gbkTokens src).filter fun t => !t.isInvalid).length := by
    rw [gbkToUnicode_eq, hconv, storeTokens_fst, if_neg hok, Nat.zero_add, toInt_of_lt hcount]
  simp only [viaUnicode, hret, Int.toNat_natCast, hunits]

theorem sizeCheck_of_room {src : List UInt8} (hroom : 3 * src.length + 1 ≤ dstSize.toNat) :
    dstSize ≠ 0 ∧ ¬ dstSize < UInt32.ofNat src.length / 2 * 3 + 1 := by
  have hsize := dstSize.toNat_lt
  constructor
  · rintro rfl
    exact absurd hroom (by simp)
  · have hone : (1 : UInt32).toNat = 1 := rfl
    have htwo : (2 : UInt32).toNat = 2 := rfl
    have hthree : (3 : UInt32).toNat = 3 := rfl
    rw [UInt32.lt_iff_toNat_lt, UInt32.toNat_add, UInt32.toNat_mul, UInt32.toNat_div, UInt32.toNat_ofNat', hone, htwo, hthree,
      Nat.mod_eq_of_lt (show src.length < 2 ^ 32 by omega), Nat.mod_eq_of_lt (show src.length / 2 * 3 < 2 ^ 32 by omega),
      Nat.mod_eq_of_lt (show src.length / 2 * 3 + 1 < 2 ^ 32 by omega)]
    omega

theorem gbkToUtf8_room {src : List UInt8} (hroom : 3 * src.length + 1 ≤ dstSize.toNat)
    (hflags : flags = .ignore ∨ flags.has .error = true) :
    (Fails flags (gbkTokens src) → (gbkToUtf8 table src dstSize flags).1 = -1) ∧
    (¬ Fails flags (gbkTokens src) → gbkToUtf8 table src dstSize flags =
      (toInt (words table (gbkTokens src)).length, words table (gbkTokens src))) := by
  obtain ⟨hzero, hcheck⟩ := sizeCheck_of_room hroom
  have hwords := length_words_le table src
  rw [gbkToUtf8, if_neg hzero, if_neg hcheck, gbkToUtf8Loop_eq src 0 0 [] (hflags.imp_right Or.inl)]
  have hput := @putTokens_room table dstSize flags (gbkTokens src) 0 []
    (by simpa using (show (words table (gbkTokens src)).length < dstSize.toNat by omega))
  simpa using hput

/-- **The two ways to UTF-8 agree exactly if no code point is shortened.** For every table of code points other than
zero and the surrogates, every text without `NUL` and every size with three bytes of room for each of its bytes. -/
theorem agreesThroughUnicode_iff (table : GbkTable) (src : List UInt8) (dstSize : UInt32) (flags : Flags)
    (htable : ∀ i, Regular (table i)) (hnul : 0 ∉ src) (hroom : 3 * src.length + 1 ≤ dstSize.toNat)
    (hflags : flags = .ignore ∨ flags.has .error = true) :
    AgreesThroughUnicode table src dstSize flags ↔
      Fails flags (gbkTokens src) ∨ ∀ u ∈ codeUnits table (gbkTokens src), shortened u = false := by
  have hsize := dstSize.toNat_lt
  have hwords := length_words_le table src
  have htokens := length_gbkTokens_le src
  have hregular : ∀ u ∈ codeUnits table (gbkTokens src), Regular u := regular_codeUnits htable hnul
  obtain ⟨hfail, hok⟩ := @gbkToUtf8_room table dstSize flags src hroom hflags
  have hunicode : ∀ dst : Units, (gbkToUnicode table src dst dstSize flags).1 =
      if Fails flags (gbkTokens src) then -1 else toInt (gbkTokens src).length :=
    fun dst => gbkToUnicode_fst dst (by omega)
  by_cases hfails : Fails flags (gbkTokens src)
  · refine ⟨fun _ => Or.inl hfails, fun _ dst => ⟨fun hignore => ?_, fun _ => ?_⟩⟩
    · rw [hignore] at hfails
      exact absurd hfails.1 (by decide)
    · rw [hfail hfails, hunicode, if_pos hfails]
      exact ⟨Iff.rfl, fun hne => absurd rfl hne⟩
  · have hword := hok hfails
    have hne : (gbkToUtf8 table src dstSize flags).1 ≠ -1 := by
      have hlt : (words table (gbkTokens src)).length < 2 ^ 32 - 1 := by omega
      simpa only [hword] using toInt_ne_neg_one hlt
    have hsame : ∀ dst : Units, gbkToUtf8 table src dstSize flags = viaUnicode table src dst dstSize flags ↔
        ∀ u ∈ codeUnits table (gbkTokens src), shortened u = false := by
      intro dst
      rw [hword, viaUnicode_eq dst hroom, ← words_eq_iff hregular]
      exact ⟨fun h => (Prod.mk.inj h).2, fun h => by rw [words, h]⟩
    constructor
    · intro h
      obtain ⟨hignore, herror⟩ := h fun _ => 0
      refine Or.inr ((hsame fun _ => 0).mp ?_)
      rcases hflags with hflags | hflags
      · exact hignore hflags
      · exact (herror hflags).2 hne
    · rintro (h | h) dst
      · exact absurd h hfails
      · have heq := (hsame dst).mpr h
        refine ⟨fun _ => heq, fun _ => ⟨⟨fun h => absurd h hne, fun h => ?_⟩, fun _ => heq⟩⟩
        rw [hunicode, if_neg hfails, toInt_of_lt (by omega)] at h
        omega

/-- The euro byte, an invalid byte and a letter. -/
theorem agreesThroughUnicode_iff_euro : AgreesThroughUnicode (fun _ => 0x4e00) [0x80, 0xff, 0x61] 10 .ignore := by
  have hunits : (codeUnits (fun _ => 0x4e00) (gbkTokens [0x80, 0xff, 0x61])).all (fun u => !shortened u) = true := by decide
  refine (agreesThroughUnicode_iff (fun _ => 0x4e00) [0x80, 0xff, 0x61] 10 .ignore (fun _ => ?_) ?_ ?_ (Or.inl rfl)).mpr (Or.inr ?_)
  · exact ⟨by decide, by decide⟩
  · decide
  · decide
  · intro u hu
    simpa using List.all_eq_true.mp hunits u hu

/-- With a table that has `U+0905` (a letter of Devanagari) the word has two bytes in place of three. -/
theorem agreesThroughUnicode_false_shortened : ¬ AgreesThroughUnicode (fun _ => 0x905) [0x81, 0x40] 7 .ignore := by
  intro h
  have heq := congrArg Prod.fst ((h fun _ => 0).1 rfl)
  revert heq
  decide

/-! ### Truncation -/

/-- A text of whole characters without `NUL`. -/
structure IsGbkText (src : List UInt8) : Prop where
  valid : ∀ t ∈ gbkTokens src, t.isInvalid = false
  whole : (gbkTokens src).flatMap GbkToken.bytes = src
  noNul : 0 ∉ src

/-- The length of the characters of a text in UTF-8. -/
def utf8Length (table : GbkTable) (src : List UInt8) : Nat :=
  ((codeUnits table (gbkTokens src)).map fun u => (utf8 u).length).sum

/-- The checks at the start of `gbk_to_utf8`. -/
def SizeChecked (src : List UInt8) (dstSize : UInt32) : Prop :=
  dstSize ≠ 0 ∧ ¬ dstSize < UInt32.ofNat src.length / 2 * 3 + 1

/-- **A text is converted as a whole exactly if the destination has room for one more byte.** For every text of whole
characters, every size that passes the checks and all flags; the table has no zero, no surrogate and no code point
that is shortened. -/
theorem gbkToUtf8_whole_iff (table : GbkTable) (src : List UInt8) (dstSize : UInt32) (flags : Flags)
    (htable : ∀ i, Regular (table i) ∧ shortened (table i) = false) (hsrc : IsGbkText src) (hcheck : SizeChecked src dstSize) :
    (gbkToUtf8 table src dstSize flags).1 = utf8Length table src ↔
      utf8Length table src < dstSize.toNat ∧ utf8Length table src < 2 ^ 31 := by
  have hsize := dstSize.toNat_lt
  have htotal : (words table (gbkTokens src)).length = utf8Length table src := by
    have hregular := regular_codeUnits (fun i => (htable i).1) hsrc.noNul
    rw [words, (words_eq_iff hregular).mpr (shortened_codeUnits fun i => (htable i).2), List.length_flatMap, utf8Length]
  have hok : ¬ Fails flags (gbkTokens src) := by
    rintro ⟨-, t, ht, hinv⟩
    rw [hsrc.valid t ht] at hinv
    cases hinv
  rw [gbkToUtf8, if_neg hcheck.1, if_neg hcheck.2, gbkToUtf8Loop_eq src 0 0 [] (Or.inr (Or.inr hsrc.valid))]
  rcases Nat.lt_or_ge (utf8Length table src) dstSize.toNat with hfits | hfull
  · have hput := (@putTokens_room table dstSize flags (gbkTokens src) 0 [] (by simpa [htotal] using hfits)).2 hok
    rw [hput, htotal]
    refine ⟨fun h => ⟨hfits, ?_⟩, fun h => ?_⟩
    · by_contra hnot
      have hneg := toInt_neg (Nat.le_of_not_lt hnot) (by omega)
      simp only [UInt32.toNat_zero, Nat.zero_add] at h
      omega
    · simpa using toInt_of_lt h.2
  · have hpos : (0 : UInt32) < dstSize := by
      rw [UInt32.lt_iff_toNat_lt]
      exact Nat.pos_of_ne_zero fun h => hcheck.1 (UInt32.toNat_inj.mp h)
    obtain ⟨d, hd, hret⟩ := @putTokens_lt table dstSize flags (gbkTokens src) 0 [] hpos hok
    have hle := toInt_le d.toNat_lt
    rw [UInt32.lt_iff_toNat_lt] at hd
    rw [hret]
    refine ⟨fun h => ?_, fun h => ?_⟩
    · omega
    · omega

/-- A character of two bytes, the euro sign and a letter. -/
theorem gbkToUtf8_whole_iff_euro : (gbkToUtf8 (fun _ => 0x4e2d) [0xd6, 0xd0, 0x80, 0x61] 8 .ignore).1 = 7 := by
  refine (gbkToUtf8_whole_iff (fun _ => 0x4e2d) [0xd6, 0xd0, 0x80, 0x61] 8 .ignore (fun _ => ?_) ⟨?_, ?_, ?_⟩ ?_).mpr ?_
  · exact ⟨⟨by decide, by decide⟩, by decide⟩
  · decide
  · decide
  · decide
  · exact ⟨by decide, by decide⟩
  · exact ⟨by decide, by decide⟩

/-- A letter and room for one byte, which passes the checks. -/
theorem gbkToUtf8_whole_false_letter :
    IsGbkText [0x61] ∧ SizeChecked [0x61] 1 ∧
      (gbkToUtf8 (fun _ => 0x4e00) [0x61] 1 .ignore).1 ≠ utf8Length (fun _ => 0x4e00) [0x61] :=
  ⟨⟨by decide, by decide, by decide⟩, ⟨by decide, by decide⟩, by decide⟩

end Raster.Uconv
