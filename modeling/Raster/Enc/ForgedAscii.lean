import Raster.Enc.Utf8ToGbk

/-!
# Forged ASCII

Whether the ASCII characters in the output of `utf8_to_gbk` come from ASCII bytes of the source. The output is read as
GBK: a first byte without its second byte takes one of the next word, and from there on the characters that are read are
not the ones that were written.
-/

namespace Raster.Uconv

/-- The byte of the output is made from an ASCII byte of the source, which is the same one. -/
def OutByte.genuine (src : List UInt8) (o : OutByte) : Prop := o.len = 1 ∧ src[o.place]? = some o.byte

/-- Every ASCII character of the output is at a byte that comes from an equal byte of the source. -/
def AsciiFromSource (src : List UInt8) (out : List OutByte) : Prop :=
  ∀ ts c us, gbkTokens (out.map OutByte.byte) = ts ++ .ascii c :: us →
    ∃ o, out[(ts.flatMap GbkToken.bytes).length]? = some o ∧ o.byte = c ∧ o.genuine src

/-- A code point has a GBK character. -/
def mapped (table : UnicodeTable) (v : Nat) : Bool :=
  v < 0x80 || (v < 0x10000 && (table (UInt16.ofNat v) != 0 || v == ucs2Euro.toNat))

/-- The code points of words. -/
def codePoints (ws : List Word) : List Nat :=
  (ws.filter fun w => bytesFromHeader (w.bytes.headD 0) ≠ 0).map fun w => codePoint w.bytes

/-- No ASCII is forged, and a call with `UCONV_INVCHAR_ERROR` that does not return `-1` has characters for all
code points. -/
def NotForged (table : UnicodeTable) (src : List UInt8) (dstSize : UInt32) (flags : Flags) (rpChar : UInt8) : Prop :=
  match utf8ToGbk table src dstSize flags rpChar with
  | .failed => True
  | .outside => False
  | .done dl out =>
    AsciiFromSource src (out.take dl.toNat) ∧ (flags.has .error → ∀ v ∈ codePoints (wordsOf src), mapped table v)

/-- The words are read without an ASCII character that is not in the source. A first byte whose second byte is to come
is `half` a character. -/
def inStep (rpChar : UInt8) : Bool → List WordKind → Bool
  | _, [] => true
  | half, .skipped :: ks => inStep rpChar half ks
  | _, .ascii _ :: ks => inStep rpChar false ks
  | half, .forged c :: ks => half && legalGbkSecondByte c && inStep rpChar false ks
  | false, .code _ b :: ks => (legalGbkSecondByte b || !isAscii b) && inStep rpChar false ks
  | true, .code _ b :: ks => !isAscii b && inStep rpChar (legalGbkFirstByte b) ks
  | _, .euro :: ks => inStep rpChar false ks
  | half, .replaced :: ks => inStep rpChar (!half && legalGbkFirstByte rpChar) ks

/-! ### Reading the output -/

section reading

variable {src : List UInt8} {o o' : OutByte} {out : List OutByte}

theorem asciiFromSource_nil : AsciiFromSource src [] := by
  intro ts c us h
  simp at h

theorem asciiFromSource_half (ho : legalGbkFirstByte o.byte = true) : AsciiFromSource src [o] := by
  intro ts c us h
  rw [List.map_singleton, gbkTokens_half ho] at h
  simp at h

theorem asciiFromSource_append {front : List OutByte} {t : GbkToken} (hlen : t.bytes.length = front.length)
    (h : gbkTokens ((front ++ out).map OutByte.byte) = t :: gbkTokens (out.map OutByte.byte)) :
    AsciiFromSource src (front ++ out) ↔
      (∀ c, t = .ascii c → ∃ o, (front ++ out)[0]? = some o ∧ o.byte = c ∧ o.genuine src) ∧ AsciiFromSource src out := by
  constructor
  · intro hall
    refine ⟨?_, ?_⟩
    · rintro c rfl
      exact hall [] c _ h
    · intro ts c us htokens
      obtain ⟨o, ho, hgenuine⟩ := hall (t :: ts) c us (by rw [h, htokens]; rfl)
      rw [List.flatMap_cons, List.length_append, hlen, List.getElem?_append_right (Nat.le_add_right _ _),
        Nat.add_sub_cancel_left] at ho
      exact ⟨o, ho, hgenuine⟩
  · rintro ⟨hfirst, hrest⟩ ts c us htokens
    rw [h] at htokens
    cases ts with
    | nil => exact hfirst c (List.cons.inj htokens).1
    | cons t' ts =>
      obtain ⟨rfl, hts⟩ := List.cons.inj htokens
      obtain ⟨o, ho, hgenuine⟩ := hrest ts c us hts
      refine ⟨o, ?_, hgenuine⟩
      rwa [List.flatMap_cons, List.length_append, hlen, List.getElem?_append_right (Nat.le_add_right _ _),
        Nat.add_sub_cancel_left]

theorem asciiFromSource_pair (ho : legalGbkFirstByte o.byte = true) (ho' : legalGbkSecondByte o'.byte = true) :
    AsciiFromSource src (o :: o' :: out) ↔ AsciiFromSource src out := by
  refine (@asciiFromSource_append src out [o, o'] (.pair o.byte o'.byte) rfl (gbkTokens_pair ho ho')).trans ?_
  exact and_iff_right fun c h => GbkToken.noConfusion h

theorem asciiFromSource_broken (ho : legalGbkFirstByte o.byte = true) (ho' : ¬ legalGbkSecondByte o'.byte = true) :
    AsciiFromSource src (o :: o' :: out) ↔ AsciiFromSource src (o' :: out) := by
  refine (@asciiFromSource_append src (o' :: out) [o] (.invalid o.byte) rfl (gbkTokens_broken ho ho')).trans ?_
  exact and_iff_right fun c h => GbkToken.noConfusion h

theorem asciiFromSource_single (ho : ¬ legalGbkFirstByte o.byte = true) :
    AsciiFromSource src (o :: out) ↔ (isAscii o.byte = true → o.genuine src) ∧ AsciiFromSource src out := by
  have hlen : (GbkToken.single o.byte).bytes.length = [o].length := by
    unfold GbkToken.single
    split_ifs <;> rfl
  refine (@asciiFromSource_append src out [o] (.single o.byte) hlen (gbkTokens_single ho)).trans (and_congr_left fun _ => ?_)
  constructor
  · intro h hascii
    obtain ⟨o', ho', -, hgenuine⟩ := h o.byte (if_pos hascii)
    rwa [Option.some.inj ho']
  · intro h c hc
    unfold GbkToken.single at hc
    split_ifs at hc with hascii
    exact ⟨o, rfl, GbkToken.ascii.inj hc, h hascii⟩

end reading

/-! ### The words of the source -/

/-- A word of a source: it is there at its place, and has the length that its header says. -/
structure IsWord (src : List UInt8) (w : Word) : Prop where
  inSource : w.bytes <+: src.drop w.place
  header : ∃ a conts, w.bytes = a :: conts ∧ conts.length = bytesFromHeader a - 1

theorem nextWord_some {src w rest : List UInt8} (h : nextWord src = some (w, rest)) :
    src = w ++ rest ∧ ∃ a conts, w = a :: conts ∧ conts.length = bytesFromHeader a - 1 := by
  cases src with
  | nil => simp [nextWord] at h
  | cons a src =>
    rw [nextWord] at h
    split_ifs at h with hzero hshort
    · obtain ⟨rfl, rfl⟩ := Prod.mk.inj (Option.some.inj h)
      exact ⟨rfl, a, [], rfl, by rw [hzero]; rfl⟩
    · obtain ⟨rfl, rfl⟩ := Prod.mk.inj (Option.some.inj h)
      refine ⟨by rw [List.cons_append, List.take_append_drop], a, _, rfl, ?_⟩
      rw [List.length_take]
      omega

theorem isWord_of_mem_wordsFrom {src : List UInt8} (n place : Nat) {w : Word} (hw : w ∈ wordsFrom n place (src.drop place)) :
    IsWord src w := by
  induction n generalizing place with
  | zero => exact absurd hw (List.not_mem_nil)
  | succ n ih =>
    rw [wordsFrom] at hw
    cases hnext : nextWord (src.drop place) with
    | none =>
      rw [hnext] at hw
      exact absurd hw (List.not_mem_nil)
    | some next =>
      obtain ⟨bytes, rest⟩ := next
      obtain ⟨hsplit, hheader⟩ := nextWord_some hnext
      rw [hnext] at hw
      rcases List.mem_cons.mp hw with rfl | hw
      · exact ⟨⟨rest, hsplit.symm⟩, hheader⟩
      · have hrest : rest = src.drop (place + bytes.length) := by
          rw [← List.drop_drop, hsplit, List.drop_left]
        rw [hrest] at hw
        exact ih _ hw

theorem isWord_of_mem {src : List UInt8} {w : Word} (hw : w ∈ wordsOf src) : IsWord src w :=
  isWord_of_mem_wordsFrom src.length 0 hw

theorem bytesFromHeader_eq_one {a : UInt8} : bytesFromHeader a = 1 ↔ a < 0x80 := by
  unfold bytesFromHeader
  split_ifs with h <;> simp [h]

theorem isAsciiUnit_iff {u : UInt16} : isAsciiUnit u = true ↔ u.toNat < 0x80 := by
  have hlt := u.toNat_lt
  have hand : (0xff80 &&& u : UInt16).toNat = 0xff80 &&& u.toNat := UInt16.toNat_and _ _
  -- the seven bits below are gone, and the nine above stay
  have hmod : (0xff80 &&& u.toNat) % 2 ^ 7 = 0 := by
    rw [Nat.and_mod_two_pow]
    exact Nat.zero_and _
  have hdiv : (0xff80 &&& u.toNat) / 2 ^ 7 = u.toNat / 2 ^ 7 := by
    rw [Nat.and_div_two_pow, Nat.and_comm]
    refine (Nat.and_two_pow_sub_one_eq_mod (u.toNat / 2 ^ 7) 9).trans (Nat.mod_eq_of_lt ?_)
    omega
  rw [isAsciiUnit, beq_iff_eq, ← UInt16.toNat_inj, hand, UInt16.toNat_zero]
  omega

theorem shiftIn_eq (v : Nat) (cur : UInt8) : shiftIn (UInt16.ofNat v) cur = UInt16.ofNat (v * 64 + cur.toNat % 64) := by
  have hlow : (cur &&& 0x3f).toUInt16.toNat = cur.toNat % 64 := by
    rw [UInt8.toNat_toUInt16, UInt8.toNat_and]
    exact Nat.and_two_pow_sub_one_eq_mod cur.toNat 6
  have hhigh : (UInt16.ofNat v <<< 6).toNat = (v % 1024) <<< 6 := by
    rw [UInt16.toNat_shiftLeft, UInt16.toNat_ofNat', Nat.shiftLeft_eq, Nat.shiftLeft_eq]
    change v % 2 ^ 16 * 2 ^ 6 % 2 ^ 16 = _
    omega
  rw [← UInt16.toNat_inj, shiftIn, UInt16.toNat_or, hlow, hhigh, UInt16.toNat_ofNat',
    ← Nat.shiftLeft_add_eq_or_of_lt (Nat.mod_lt _ (by decide)), Nat.shiftLeft_eq]
  omega

theorem unitOf_eq (bytes : List UInt8) : unitOf bytes = UInt16.ofNat (codePoint bytes) := by
  cases bytes with
  | nil => rfl
  | cons a conts =>
    have hfold : ∀ v : Nat, conts.foldl shiftIn (UInt16.ofNat v) =
        UInt16.ofNat (conts.foldl (fun v cur => v * 64 + cur.toNat % 64) v) := by
      intro v
      induction conts generalizing v with
      | nil => rfl
      | cons cur conts ih => rw [List.foldl_cons, shiftIn_eq, ih, List.foldl_cons]
    rw [unitOf, codePoint, ← hfold, UInt16.ofNat_uInt8ToNat]

variable {table : UnicodeTable} {rpChar : UInt8} {src : List UInt8} {w : Word}

theorem unitOf_single {c : UInt8} (hc : c < 0x80) : unitOf [c] = c.toUInt16 := by
  have hall : ~~~ utf8Header 1 = (-1 : UInt8) := rfl
  rw [unitOf, bytesFromHeader_eq_one.mpr hc, hall, UInt8.and_neg_one]
  rfl

theorem kindOf_single {c : UInt8} (hc : c < 0x80) : kindOf table [c] = .ascii c := by
  have hone := bytesFromHeader_eq_one.mpr hc
  have hascii : isAsciiUnit (unitOf [c]) = true := by
    rw [unitOf_single hc, isAsciiUnit_iff, UInt8.toNat_toUInt16]
    exact UInt8.lt_iff_toNat_lt.mp hc
  rw [kindOf_cons (by omega), if_pos hascii, if_pos rfl, unitOf_single hc, UInt8.toUInt8_toUInt16]

theorem IsWord.length_eq_one (h : IsWord src w) (hskip : kindOf table w.bytes ≠ .skipped) (hone : w.bytes.length = 1) :
    ∃ c, c < 0x80 ∧ kindOf table w.bytes = .ascii c ∧ src[w.place]? = some c := by
  obtain ⟨c, conts, hbytes, hconts⟩ := h.header
  rw [hbytes, List.length_cons] at hone
  have hnil : conts = [] := List.length_eq_zero_iff.mp (by omega)
  subst hnil
  have hheader : bytesFromHeader c ≠ 0 := by
    intro hzero
    exact hskip (by rw [hbytes]; exact if_pos hzero)
  have hc : c < 0x80 := bytesFromHeader_eq_one.mp (by simp at hconts; omega)
  refine ⟨c, hc, by rw [hbytes, kindOf_single hc], ?_⟩
  obtain ⟨rest, hrest⟩ := h.inSource
  rw [← List.head?_drop, ← hrest, hbytes]
  rfl

theorem IsWord.of_ascii {c : UInt8} (h : IsWord src w) (hkind : kindOf table w.bytes = .ascii c) :
    isAscii c = true ∧ OutByte.genuine src ⟨c, w.place, w.bytes.length⟩ := by
  have hone : w.bytes.length = 1 := by
    obtain ⟨a, conts, hbytes, -⟩ := h.header
    rw [hbytes, kindOf] at hkind
    rw [hbytes]
    split_ifs at hkind with hzero hascii hnil
    rw [hnil]
    rfl
  obtain ⟨c', hc, hkind', hplace⟩ := h.length_eq_one (by rw [hkind]; exact WordKind.noConfusion) hone
  rw [hkind] at hkind'
  obtain rfl := WordKind.ascii.inj hkind'
  exact ⟨decide_eq_true hc, hone, hplace⟩

theorem IsWord.not_genuine (h : IsWord src w) (hskip : kindOf table w.bytes ≠ .skipped)
    (hascii : ∀ c, kindOf table w.bytes ≠ .ascii c) (b : UInt8) : ¬ OutByte.genuine src ⟨b, w.place, w.bytes.length⟩ := by
  rintro ⟨hone, -⟩
  obtain ⟨c, -, hkind, -⟩ := h.length_eq_one hskip hone
  exact hascii c hkind

theorem isAscii_toUInt8 {u : UInt16} (hu : isAsciiUnit u = true) : isAscii u.toUInt8 = true := by
  have hlt := isAsciiUnit_iff.mp hu
  refine decide_eq_true (UInt8.lt_iff_toNat_lt.mpr ?_)
  rw [UInt16.toNat_toUInt8, Nat.mod_eq_of_lt (by omega)]
  exact hlt

theorem isAscii_of_forged {bytes : List UInt8} {c : UInt8} (hkind : kindOf table bytes = .forged c) : isAscii c = true := by
  cases bytes with
  | nil => exact WordKind.noConfusion hkind
  | cons a conts =>
    rw [kindOf] at hkind
    split_ifs at hkind with hzero hascii hnil
    rw [← WordKind.forged.inj hkind]
    exact isAscii_toUInt8 hascii

theorem legalGbkFirstByte_of_code {bytes : List UInt8} {a b : UInt8}
    (htable : ∀ u, table u ≠ 0 → legalGbkFirstByte (table u >>> 8).toUInt8 = true) (hkind : kindOf table bytes = .code a b) :
    legalGbkFirstByte a = true := by
  cases bytes with
  | nil => exact WordKind.noConfusion hkind
  | cons x conts =>
    rw [kindOf] at hkind
    split_ifs at hkind with hzero hascii hnil hcode
    rw [← (WordKind.code.inj hkind).1]
    exact htable _ hcode

/-! ### The automaton -/

theorem legalGbkSecondByte_of_first {c : UInt8} (h : legalGbkFirstByte c = true) : legalGbkSecondByte c = true := by
  simp only [legalGbkFirstByte, legalGbkSecondByte, Bool.and_eq_true, Bool.or_eq_true, decide_eq_true_eq,
    UInt8.le_iff_toNat_le, UInt8.toNat_ofNat] at h ⊢
  omega

theorem not_legalGbkFirstByte {c : UInt8} (h : isAscii c = true) : ¬ legalGbkFirstByte c = true := by
  intro hfirst
  rw [legalGbkFirstByte_not_isAscii hfirst] at h
  exact Bool.false_ne_true h

section automaton

variable {o o' : OutByte} {out : List OutByte}

theorem asciiFromSource_genuine (hascii : isAscii o.byte = true) (ho : o.genuine src) :
    AsciiFromSource src (o :: out) ↔ AsciiFromSource src out := by
  rw [asciiFromSource_single (not_legalGbkFirstByte hascii)]
  exact and_iff_right fun _ => ho

theorem asciiFromSource_forged (hascii : isAscii o.byte = true) (ho : ¬ o.genuine src) : ¬ AsciiFromSource src (o :: out) := by
  rw [asciiFromSource_single (not_legalGbkFirstByte hascii)]
  exact fun h => ho (h.1 hascii)

theorem asciiFromSource_other (hascii : isAscii o.byte = false) (ho : ¬ legalGbkFirstByte o.byte = true) :
    AsciiFromSource src (o :: out) ↔ AsciiFromSource src out := by
  rw [asciiFromSource_single ho, hascii]
  exact and_iff_right fun h => absurd h Bool.false_ne_true

theorem asciiFromSource_second (ho : legalGbkFirstByte o.byte = true)
    (ho' : ¬ legalGbkSecondByte o'.byte = true → (AsciiFromSource src (o' :: out) ↔ AsciiFromSource src out)) :
    AsciiFromSource src (o :: o' :: out) ↔ AsciiFromSource src out := by
  by_cases hsecond : legalGbkSecondByte o'.byte = true
  · exact asciiFromSource_pair ho hsecond
  · rw [asciiFromSource_broken ho hsecond]
    exact ho' hsecond

end automaton

def kinds (table : UnicodeTable) (ws : List Word) : List WordKind := ws.map fun w => kindOf table w.bytes

theorem asciiFromSource_written (htable : ∀ u, table u ≠ 0 → legalGbkFirstByte (table u >>> 8).toUInt8 = true)
    (hrp : isAscii rpChar = false) (ws : List Word) (hws : ∀ w ∈ ws, IsWord src w) :
    (AsciiFromSource src (written table rpChar ws) ↔ inStep rpChar false (kinds table ws) = true) ∧
      ∀ o, legalGbkFirstByte o.byte = true →
        (AsciiFromSource src (o :: written table rpChar ws) ↔ inStep rpChar true (kinds table ws) = true) := by
  induction ws with
  | nil =>
    refine ⟨?_, fun o ho => ?_⟩
    · exact iff_of_true asciiFromSource_nil rfl
    · exact iff_of_true (asciiFromSource_half ho) rfl
  | cons w ws ih =>
    obtain ⟨ih, ihhalf⟩ := ih fun w' hw' => hws w' (List.mem_cons_of_mem _ hw')
    have hw := hws w List.mem_cons_self
    rw [written_cons, kinds, List.map_cons, Word.made]
    cases hkind : kindOf table w.bytes with
    | skipped => exact ⟨ih, ihhalf⟩
    | ascii c =>
      obtain ⟨hascii, hgenuine⟩ := hw.of_ascii hkind
      have hout : AsciiFromSource src (⟨c, w.place, w.bytes.length⟩ :: written table rpChar ws) ↔ _ :=
        asciiFromSource_genuine hascii hgenuine
      exact ⟨hout.trans ih, fun o ho => (asciiFromSource_second ho fun _ => hout).trans ih⟩
    | forged c =>
      have hascii := isAscii_of_forged hkind
      have hnot := hw.not_genuine (by rw [hkind]; exact WordKind.noConfusion) (by rw [hkind]; exact fun _ => WordKind.noConfusion) c
      have hout : ¬ AsciiFromSource src (⟨c, w.place, w.bytes.length⟩ :: written table rpChar ws) :=
        asciiFromSource_forged hascii hnot
      refine ⟨iff_of_false hout Bool.false_ne_true, fun o ho => ?_⟩
      by_cases hsecond : legalGbkSecondByte c = true
      · refine (asciiFromSource_pair ho hsecond).trans (ih.trans ?_)
        simp [inStep, hsecond, kinds]
      · refine (asciiFromSource_broken ho hsecond).trans (iff_of_false hout ?_)
        simp [inStep, hsecond]
    | code a b =>
      have ha := legalGbkFirstByte_of_code htable hkind
      have hnot := hw.not_genuine (by rw [hkind]; exact WordKind.noConfusion) (by rw [hkind]; exact fun _ => WordKind.noConfusion) b
      refine ⟨?_, fun o ho => ?_⟩
      · by_cases hsecond : legalGbkSecondByte b = true
        · refine (asciiFromSource_pair ha hsecond).trans (ih.trans ?_)
          simp [inStep, hsecond, kinds]
        refine (asciiFromSource_broken ha hsecond).trans ?_
        by_cases hascii : isAscii b = true
        · refine iff_of_false (asciiFromSource_forged hascii hnot) ?_
          simp [inStep, hsecond, hascii]
        · refine (asciiFromSource_other (eq_false_of_ne_true hascii)
            fun h => hsecond (legalGbkSecondByte_of_first h)).trans (ih.trans ?_)
          simp [inStep, hascii, kinds]
      · refine (asciiFromSource_pair ho (legalGbkSecondByte_of_first ha)).trans ?_
        by_cases hascii : isAscii b = true
        · refine iff_of_false (asciiFromSource_forged hascii hnot) ?_
          simp [inStep, hascii]
        by_cases hfirst : legalGbkFirstByte b = true
        · refine (ihhalf ⟨b, w.place, w.bytes.length⟩ hfirst).trans ?_
          simp [inStep, hascii, hfirst, kinds]
        · refine (asciiFromSource_other (eq_false_of_ne_true hascii) hfirst).trans (ih.trans ?_)
          simp [inStep, hascii, hfirst, kinds]
    | euro =>
      have hout : AsciiFromSource src (⟨gbkEuro, w.place, w.bytes.length⟩ :: written table rpChar ws) ↔ _ :=
        asciiFromSource_other (show isAscii gbkEuro = false by decide) (show ¬ legalGbkFirstByte gbkEuro = true by decide)
      exact ⟨hout.trans ih, fun o ho => (asciiFromSource_second ho fun _ => hout).trans ih⟩
    | replaced =>
      refine ⟨?_, fun o ho => ?_⟩
      · by_cases hfirst : legalGbkFirstByte rpChar = true
        · refine (ihhalf ⟨rpChar, w.place, w.bytes.length⟩ hfirst).trans ?_
          simp [inStep, hfirst, kinds]
        · refine (asciiFromSource_other hrp hfirst).trans (ih.trans ?_)
          simp [inStep, hfirst, kinds]
      · exact (asciiFromSource_second ho fun hsecond =>
          asciiFromSource_other hrp fun hfirst => hsecond (legalGbkSecondByte_of_first hfirst)).trans ih

/-! ### Code points without a character -/

theorem mapped_codePoint_iff {bytes : List UInt8} (hheader : bytesFromHeader (bytes.headD 0) ≠ 0)
    (hkind : kindOf table bytes ≠ .replaced) : mapped table (codePoint bytes) = true ↔ codePoint bytes < 0x10000 := by
  constructor
  · intro h
    simp only [mapped, Bool.or_eq_true, Bool.and_eq_true, decide_eq_true_eq] at h
    omega
  intro hlt
  have hunit : (unitOf bytes).toNat = codePoint bytes := by
    rw [unitOf_eq, UInt16.toNat_ofNat', Nat.mod_eq_of_lt hlt]
  simp only [mapped, Bool.or_eq_true, Bool.and_eq_true, decide_eq_true_eq, bne_iff_ne, beq_iff_eq]
  cases bytes with
  | nil => exact Or.inl (by decide)
  | cons a conts =>
    rw [List.headD_cons] at hheader
    rw [kindOf_cons hheader] at hkind
    split_ifs at hkind with hascii hnil hcode heuro
    · exact Or.inl (by rwa [← hunit, ← isAsciiUnit_iff])
    · exact Or.inl (by rwa [← hunit, ← isAsciiUnit_iff])
    · exact Or.inr ⟨hlt, Or.inl (by rwa [← unitOf_eq])⟩
    · exact Or.inr ⟨hlt, Or.inr (by rw [← hunit, heuro])⟩
    · exact absurd rfl hkind

theorem reached_append (size : Nat) (ws : List Word) (d : Nat) :
    reached table rpChar size ws d ++ ws.drop (reached table rpChar size ws d).length = ws := by
  induction ws generalizing d with
  | nil => rfl
  | cons w ws ih =>
    rw [reached]
    split_ifs with hroom
    · rw [List.length_cons, List.drop_succ_cons, List.cons_append, ih]
    · rfl

theorem forall_codePoints_append {ws ws' : List Word} {P : Nat → Prop} :
    (∀ v ∈ codePoints (ws ++ ws'), P v) ↔ (∀ v ∈ codePoints ws, P v) ∧ ∀ v ∈ codePoints ws', P v := by
  rw [codePoints, List.filter_append, List.map_append]
  exact List.forall_mem_append

/-- If the call does not fail, the words that are reached have characters unless a code point is above `U+FFFF`. -/
theorem forall_mapped_iff {flags : Flags} {ws : List Word} (herror : flags.has .error = true) (h : ¬ fails table flags ws = true) :
    (∀ v ∈ codePoints ws, mapped table v = true) ↔ ∀ v ∈ codePoints ws, v < 0x10000 := by
  have hkind : ∀ w ∈ ws, kindOf table w.bytes ≠ .replaced := by
    intro w hw hk
    refine h ?_
    rw [fails, herror, Bool.true_and]
    exact List.any_eq_true.mpr ⟨w, hw, decide_eq_true hk⟩
  simp only [codePoints, List.mem_map, List.mem_filter, decide_eq_true_eq]
  constructor
  · rintro hall v ⟨w, ⟨hw, hheader⟩, rfl⟩
    exact (mapped_codePoint_iff hheader (hkind w hw)).mp (hall _ ⟨w, ⟨hw, hheader⟩, rfl⟩)
  · rintro hall v ⟨w, ⟨hw, hheader⟩, rfl⟩
    exact (mapped_codePoint_iff hheader (hkind w hw)).mpr (hall _ ⟨w, ⟨hw, hheader⟩, rfl⟩)

/-- **No ASCII is forged exactly if the words that there is room for are read in step.** For every table of codes with
legal first bytes, every source, every destination that is not smaller, all flags without `UCONV_INVCHAR_ENTITES` and
every replacement that is not ASCII: the call returns `-1` for one of these words; or nothing is read behind the source,
they are read in step, and with `UCONV_INVCHAR_ERROR` none of their code points is above `U+FFFF` and every code point
behind them has a character. -/
theorem notForged_iff (table : UnicodeTable) (src : List UInt8) (dstSize : UInt32) (flags : Flags) (rpChar : UInt8)
    (htable : ∀ u, table u ≠ 0 → legalGbkFirstByte (table u >>> 8).toUInt8 = true) (hsize : src.length ≤ dstSize.toNat)
    (hflags : flags.has .entites = false) (hrp : isAscii rpChar = false) :
    let ws := reached table rpChar dstSize.toNat (wordsOf src) 0
    let rest := (wordsOf src).drop ws.length
    NotForged table src dstSize flags rpChar ↔
      fails table flags ws = true ∨
        (arrives table rpChar dstSize.toNat (wordsOf src) 0 && overreads src.length (lastPart src.length src)) = false ∧
          inStep rpChar false (kinds table ws) = true ∧
          (flags.has .error = true → (∀ v ∈ codePoints ws, v < 0x10000) ∧ ∀ v ∈ codePoints rest, mapped table v = true) := by
  intro ws rest
  have hlt := dstSize.toNat_lt
  by_cases hzero : dstSize = 0
  · subst hzero
    obtain rfl : src = [] := List.length_eq_zero_iff.mp (Nat.le_zero.mp hsize)
    refine iff_of_true ⟨?_, ?_⟩ ?_
    · exact asciiFromSource_nil
    · intro _ v hv
      exact absurd hv List.not_mem_nil
    · exact Or.inr ⟨rfl, rfl, fun _ => ⟨fun v hv => absurd hv List.not_mem_nil, fun v hv => absurd hv List.not_mem_nil⟩⟩
  have hpos : 0 < dstSize.toNat := Nat.pos_of_ne_zero fun h => hzero (UInt32.toNat_inj.mp h)
  have hsplit : ws ++ rest = wordsOf src := reached_append dstSize.toNat (wordsOf src) 0
  have hwords : ∀ w ∈ ws, IsWord src w := by
    intro w hw
    refine isWord_of_mem ?_
    rw [← hsplit]
    exact List.mem_append_left _ hw
  have hread := (asciiFromSource_written htable hrp ws hwords).1
  have hlen : (written table rpChar ws).length < dstSize.toNat := by
    have h := @length_written_reached table rpChar _ (wordsOf src) _ hpos
    rwa [Nat.zero_add] at h
  have htake : (written table rpChar ws).take (UInt32.ofNat (written table rpChar ws).length).toNat = written table rpChar ws := by
    rw [UInt32.toNat_ofNat', Nat.mod_eq_of_lt (by omega), List.take_length]
  rw [NotForged, utf8ToGbk_eq hflags hsize hzero]
  dsimp only
  by_cases hfails : fails table flags ws = true
  · rw [if_pos hfails]
    exact iff_of_true trivial (Or.inl hfails)
  rw [if_neg hfails, or_iff_right hfails]
  by_cases houtside : (arrives table rpChar dstSize.toNat (wordsOf src) 0 && overreads src.length (lastPart src.length src)) = true
  · rw [if_pos houtside]
    refine iff_of_false id fun h => ?_
    rw [houtside] at h
    exact Bool.noConfusion h.1
  · rw [if_neg houtside, and_iff_right (eq_false_of_ne_true houtside)]
    dsimp only
    rw [htake, hread]
    refine and_congr_right fun _ => forall_congr' fun herror => ?_
    rw [← hsplit, forall_codePoints_append, forall_mapped_iff herror hfails]

/-- A letter and a character of two bytes. -/
theorem notForged_letter :
    NotForged (fun u => if u = 0x4e2d then 0xd6d0 else 0) [0x61, 0xe4, 0xb8, 0xad] 5 .error 0x80 := by
  refine (notForged_iff _ _ _ _ _ ?_ (by decide) (by decide) (by decide)).mpr (Or.inr ⟨by decide, by decide, ?_⟩)
  · intro u hu
    split_ifs at hu ⊢ with h
    · decide
    · exact absurd rfl hu
  · intro _
    decide

/-- The overlong word of the letter `A`. -/
theorem notForged_false_overlong : ¬ NotForged (fun _ => 0) [0xc1, 0x81] 3 .replace 0x80 := by
  rintro ⟨h, -⟩
  obtain ⟨o, ho, -, hlen, -⟩ := h [] 0x41 [] (by decide)
  have hmade : o = ⟨0x41, 0, 2⟩ := Option.some.inj (ho.symm.trans (by decide))
  rw [hmade] at hlen
  exact absurd hlen (by decide)

end Raster.Uconv
