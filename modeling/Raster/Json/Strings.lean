import Raster.Json.Parser

/-!
# Strings in JSON

What `parseString` accepts, as a grammar, and what `escapeString` makes of a string. The decoder of UTF-8 returns a code point exactly
when the bytes are its encoding, so that both ways to print one, as it is and as `\u` with four digits, are read as the same bytes.
-/

namespace Raster.Json

open Utf8 Conv

/-! ### Decoding is the inverse of encoding -/

theorem lead2_of {b : UInt8} (hc0 : b &&& 0xc0 = 0xc0) (hlast : b <<< 1 <<< 1 &&& 0x80 = 0) : ∃ a < 32, b = lead2 a := by
  have hall : ∀ b : Fin 256, UInt8.ofNat b &&& 0xc0 = 0xc0 → UInt8.ofNat b <<< 1 <<< 1 &&& 0x80 = 0 →
      UInt8.ofNat b = lead2 (b % 32) := by decide +kernel
  have hb := hall ⟨b.toNat, UInt8.toNat_lt b⟩
  rw [UInt8.ofNat_toNat] at hb
  exact ⟨b.toNat % 32, Nat.mod_lt _ (by decide), hb hc0 hlast⟩

theorem lead3_of {b : UInt8} (hc0 : b &&& 0xc0 = 0xc0) (hmore : ¬ b <<< 1 <<< 1 &&& 0x80 = 0)
    (hlast : b <<< 1 <<< 1 <<< 1 &&& 0x80 = 0) : ∃ a < 16, b = lead3 a := by
  have hall : ∀ b : Fin 256, UInt8.ofNat b &&& 0xc0 = 0xc0 → ¬ UInt8.ofNat b <<< 1 <<< 1 &&& 0x80 = 0 →
      UInt8.ofNat b <<< 1 <<< 1 <<< 1 &&& 0x80 = 0 → UInt8.ofNat b = lead3 (b % 16) := by decide +kernel
  have hb := hall ⟨b.toNat, UInt8.toNat_lt b⟩
  rw [UInt8.ofNat_toNat] at hb
  exact ⟨b.toNat % 16, Nat.mod_lt _ (by decide), hb hc0 hmore hlast⟩

theorem trailByte_of {b : UInt8} (hb : b &&& 0xc0 = 0x80) : ∃ t < 64, b = trailByte t := by
  have hall : ∀ b : Fin 256, UInt8.ofNat b &&& 0xc0 = 0x80 → UInt8.ofNat b = trailByte (b % 64) := by decide +kernel
  have hb' := hall ⟨b.toNat, UInt8.toNat_lt b⟩
  rw [UInt8.ofNat_toNat] at hb'
  exact ⟨b.toNat % 64, Nat.mod_lt _ (by decide), hb' hb⟩

theorem and_not_mask {v m : UInt32} {k : Nat} (hm : m.toNat = 2 ^ k - 1) (hv : v.toNat < 2 ^ k) : v &&& ~~~ m = 0 := by
  have hand : v &&& m = v := by
    rw [← UInt32.toNat_inj, UInt32.toNat_and, hm, Nat.and_two_pow_sub_one_eq_mod, Nat.mod_eq_of_lt hv]
  rw [← hand, UInt32.and_assoc]
  simp

/-- The code point that a decoder returns, without a replacement for errors, is what the bytes encode. -/
structure Decodes (s : List UInt8) (v : UInt32) (n : Nat) : Prop where
  take : s.take n = codePointToUtf8 v
  pos : 0 < n
  le : n ≤ s.length
  lt : v.toNat < 0x10000
  scalar : ¬(0xd800 ≤ v.toNat ∧ v.toNat ≤ 0xdfff)

theorem trailLoop_ok {text : List UInt8} {p n i e : Nat} {fst : UInt8} {d v : UInt32}
    (h : trailLoop text false p (n + 1) i fst d = .ok (v, e)) :
    p + i < text.length ∧ ∃ t < 64, text.getD (p + i) 0 = trailByte t ∧
      (fst <<< 1 &&& 0x80 = 0 ∧ v = (d <<< 6 ||| (trailByte t &&& 0x3f).toUInt32) &&& bitMask i ∧ ¬ v &&& ~~~ bitMask (i - 1) = 0 ∧
          ¬(i = 2 ∧ ((0xd800 ≤ v ∧ v ≤ 0xdfff) ∨ 0x10ffff < v)) ∧ e = p + i + 1 ∨
        ¬ fst <<< 1 &&& 0x80 = 0 ∧ trailLoop text false p n (i + 1) (fst <<< 1) (d <<< 6 ||| (trailByte t &&& 0x3f).toUInt32) = .ok (v, e)) := by
  rw [trailLoop] at h
  dsimp only at h
  split_ifs at h with hlt htrail hlast hlong hvalid
  · cases h
  · cases h
  · cases h
  · rw [Except.ok.injEq, Prod.mk.injEq] at h
    obtain ⟨t, ht, hbyte⟩ := trailByte_of (not_not.1 htrail)
    rw [hbyte] at h hlong hvalid
    obtain ⟨rfl, rfl⟩ := h
    exact ⟨hlt, t, ht, hbyte, .inl ⟨hlast, rfl, hlong, hvalid, rfl⟩⟩
  · obtain ⟨t, ht, hbyte⟩ := trailByte_of (not_not.1 htrail)
    rw [hbyte] at h
    exact ⟨hlt, t, ht, hbyte, .inr ⟨hlast, h⟩⟩
  · cases h

theorem utf8ToCodePoint_ok {s : List UInt8} {v : UInt32} {n : Nat} (h : utf8ToCodePoint s 0 false = .ok (v, n)) : Decodes s v n := by
  obtain - | ⟨b, rest⟩ := s
  · cases h
  unfold utf8ToCodePoint at h
  simp only [List.length_cons, Nat.le_zero_eq, Nat.add_one_ne_zero, if_false, List.getD_cons_zero] at h
  split_ifs at h with hascii hlead
  · rw [Except.ok.injEq, Prod.mk.injEq] at h
    obtain ⟨rfl, rfl⟩ := h
    have hsmall : b.toUInt32.toNat < 0x80 := by
      have hall : ∀ b : Fin 256, UInt8.ofNat b &&& 0x80 = 0 → b.val < 0x80 := by decide +kernel
      have hb := hall ⟨b.toNat, UInt8.toNat_lt b⟩
      rw [UInt8.ofNat_toNat] at hb
      exact hb hascii
    refine ⟨?_, Nat.one_pos, by simp, by omega, by omega⟩
    rw [codePointToUtf8_one hsmall, UInt8.toUInt8_toUInt32]
    rfl
  · cases h
  · rw [not_not] at hlead
    obtain ⟨hlt, t, ht, hbyte, ⟨hlast, hv, hlong, -, rfl⟩ | ⟨hmore, h⟩⟩ := trailLoop_ok h
    · obtain ⟨a, ha, rfl⟩ := lead2_of hlead hlast
      obtain ⟨-, -, -, hnat⟩ := lead2_facts ha
      obtain ⟨-, htrail, -⟩ := trailByte_facts ht
      have hvalue : v.toNat = a * 64 + t := by
        rw [hv, UInt32.toNat_and, toNat_shift_or (by omega) (by omega), hnat, htrail,
          show (bitMask 1).toNat = 2 ^ 11 - 1 from rfl, Nat.and_two_pow_sub_one_eq_mod]
        omega
      have hlow : 0x80 ≤ v.toNat := by
        by_contra hlow
        exact hlong (and_not_mask (k := 7) rfl (by omega))
      obtain - | ⟨b₁, rest⟩ := rest
      · exact absurd hlt (by simp)
      obtain rfl : b₁ = trailByte t := hbyte
      refine ⟨?_, by omega, by simp, by omega, by omega⟩
      rw [codePointToUtf8_two hlow (by omega), hvalue, show (a * 64 + t) / 64 = a by omega, show (a * 64 + t) % 64 = t by omega]
      rfl
    · obtain ⟨hlt', u, hu, hbyte', ⟨hlast, hv, hlong, hvalid, rfl⟩ | ⟨-, h⟩⟩ := trailLoop_ok h
      · obtain ⟨a, ha, rfl⟩ := lead3_of hlead hmore hlast
        obtain ⟨-, -, -, -, hnat⟩ := lead3_facts ha
        obtain ⟨-, htrail, -⟩ := trailByte_facts ht
        obtain ⟨-, htrail', -⟩ := trailByte_facts hu
        have hd := toNat_shift_or (d := (lead3 a).toUInt32) (t := (trailByte t &&& 0x3f).toUInt32) (by omega) (by omega)
        have hvalue : v.toNat = a * 4096 + t * 64 + u := by
          rw [hv, UInt32.toNat_and, toNat_shift_or (by omega) (by omega), hd, hnat, htrail, htrail',
            show (bitMask 2).toNat = 2 ^ 16 - 1 from rfl, Nat.and_two_pow_sub_one_eq_mod]
          omega
        have hlow : 0x800 ≤ v.toNat := by
          by_contra hlow
          exact hlong (and_not_mask (k := 11) rfl (by omega))
        have hscalar : ¬(0xd800 ≤ v.toNat ∧ v.toNat ≤ 0xdfff) := fun h => hvalid ⟨rfl, .inl h⟩
        obtain - | ⟨b₁, - | ⟨b₂, rest⟩⟩ := rest
        · exact absurd hlt (by simp)
        · exact absurd hlt' (by simp)
        obtain rfl : b₁ = trailByte t := hbyte
        obtain rfl : b₂ = trailByte u := hbyte'
        refine ⟨?_, by omega, by simp, by omega, hscalar⟩
        rw [codePointToUtf8_three hlow (by omega), hvalue, show (a * 4096 + t * 64 + u) / 4096 = a by omega,
          show (a * 4096 + t * 64 + u) / 64 % 64 = t by omega, show (a * 4096 + t * 64 + u) % 64 = u by omega]
        rfl
      · cases h

/-! ### Escapes -/

/-- Four hexadecimal digits and their number. -/
inductive Hex : List UInt8 → Nat → Prop
  | intro {c₀ c₁ c₂ c₃ : UInt8} {h₀ h₁ h₂ h₃ : Nat} (e₀ : hexDigitValue c₀ = some h₀) (e₁ : hexDigitValue c₁ = some h₁)
      (e₂ : hexDigitValue c₂ = some h₂) (e₃ : hexDigitValue c₃ = some h₃) :
      Hex [c₀, c₁, c₂, c₃] (h₀ * 4096 + h₁ * 256 + h₂ * 16 + h₃)

/-- What may be behind a backslash, and what it stands for. -/
inductive Escape : List UInt8 → List UInt8 → Prop
  | short {e c : UInt8} (h : unescape e = some c) : Escape [e] [c]
  | unicode {ds : List UInt8} {n : Nat} (h : Hex ds n) (hscalar : ¬(0xd800 ≤ n ∧ n ≤ 0xdfff)) :
      Escape (117 :: ds) (codePointToUtf8 (UInt32.ofNat n))
  | surrogates {ds ds' : List UInt8} {n m : Nat} (h : Hex ds n) (hhigh : 0xd800 ≤ n ∧ n ≤ 0xdbff) (h' : Hex ds' m)
      (hlow : 0xdc00 ≤ m ∧ m ≤ 0xdfff) :
      Escape (117 :: (ds ++ (92 :: 117 :: ds'))) (codePointToUtf8 (UInt32.ofNat (0x10000 + (n % 0x400) * 0x400 + m % 0x400)))

/-- The text between the quotes of a string, and what it stands for. -/
inductive Literal : List UInt8 → List UInt8 → Prop
  | nil : Literal [] []
  | plain {c : UInt8} {text value : List UInt8} (hquote : c ≠ 34) (hslash : c ≠ 92) (h : Literal text value) :
      Literal (c :: text) (c :: value)
  | escape {e out text value : List UInt8} (he : Escape e out) (h : Literal text value) : Literal (92 :: (e ++ text)) (out ++ value)

theorem error_ne_ok {α : Type} (s : Input) (what : String) (a : α) : (s.error what : Except Error α) ≠ .ok a := by
  rintro ⟨⟩

theorem hexVal_iff {s : Input} {h : Nat} : hexVal s = .ok h ↔ ∃ c, s.current = some c ∧ hexDigitValue c = some h := by
  rw [← Option.bind_eq_some_iff, hexVal]
  cases s.current.bind hexDigitValue with
  | none => exact iff_of_false (error_ne_ok _ _ _) (by simp)
  | some h' => rw [Except.ok.injEq, Option.some.injEq]

theorem readHex_iff {s s' : Input} {n : Nat} :
    readHex s = .ok (n, s') ↔ ∃ ds rest, Hex ds n ∧ s.range = ds ++ rest ∧ s' = { s with range := rest } := by
  obtain ⟨range, l⟩ := s
  unfold readHex
  constructor
  · intro h
    obtain - | ⟨c₀, - | ⟨c₁, - | ⟨c₂, - | ⟨c₃, rest⟩⟩⟩⟩ := range
    any_goals cases h
    rw [if_neg (by simp)] at h
    obtain ⟨h₀, e₀, h⟩ := bind_eq_ok.1 h
    obtain ⟨h₁, e₁, h⟩ := bind_eq_ok.1 h
    obtain ⟨h₂, e₂, h⟩ := bind_eq_ok.1 h
    obtain ⟨h₃, e₃, h⟩ := bind_eq_ok.1 h
    obtain ⟨_, ⟨⟩, e₀⟩ := hexVal_iff.1 e₀
    obtain ⟨_, ⟨⟩, e₁⟩ := hexVal_iff.1 e₁
    obtain ⟨_, ⟨⟩, e₂⟩ := hexVal_iff.1 e₂
    obtain ⟨_, ⟨⟩, e₃⟩ := hexVal_iff.1 e₃
    cases h
    exact ⟨_, rest, .intro e₀ e₁ e₂ e₃, rfl, rfl⟩
  · rintro ⟨ds, rest, ⟨e₀, e₁, e₂, e₃⟩, hrange, rfl⟩
    obtain rfl : range = _ := hrange
    rw [if_neg (by simp)]
    refine bind_eq_ok.2 ⟨_, hexVal_iff.2 ⟨_, rfl, e₀⟩, bind_eq_ok.2 ⟨_, hexVal_iff.2 ⟨_, rfl, e₁⟩, ?_⟩⟩
    exact bind_eq_ok.2 ⟨_, hexVal_iff.2 ⟨_, rfl, e₂⟩, bind_eq_ok.2 ⟨_, hexVal_iff.2 ⟨_, rfl, e₃⟩, rfl⟩⟩

theorem consume_iff {text : List UInt8} {s s' : Input} :
    s.consume text = some s' ↔ ∃ rest, s.range = text ++ rest ∧ s' = { s with range := rest } := by
  obtain ⟨range, l⟩ := s
  unfold Input.consume
  dsimp only
  split_ifs with hprefix
  · obtain ⟨rest, rfl⟩ := List.isPrefixOf_iff_prefix.1 hprefix
    simp [eq_comm]
  · refine iff_of_false (by simp) ?_
    rintro ⟨rest, rfl, -⟩
    exact hprefix (List.isPrefixOf_iff_prefix.2 ⟨rest, rfl⟩)

theorem decodeUnicodeEscape_iff {s s' : Input} {out : List UInt8} :
    decodeUnicodeEscape s = .ok (out, s') ↔ ∃ e rest, Escape (117 :: e) out ∧ s.range = e ++ rest ∧ s' = { s with range := rest } := by
  unfold decodeUnicodeEscape
  constructor
  · intro h
    obtain ⟨⟨n, s₁⟩, hn, h⟩ := bind_eq_ok.1 h
    obtain ⟨ds, rest, hds, hrange, rfl⟩ := readHex_iff.1 hn
    dsimp only at h
    split_ifs at h with hhigh hlow
    · split at h
      · exact absurd h (error_ne_ok _ _ _)
      · next s₂ hconsume =>
        obtain ⟨rest', hrest, rfl⟩ := consume_iff.1 hconsume
        obtain ⟨⟨m, s₃⟩, hm, h⟩ := bind_eq_ok.1 h
        obtain ⟨ds', rest'', hds', hrange', rfl⟩ := readHex_iff.1 hm
        dsimp only at h hrest hrange'
        split_ifs at h with hlow
        · cases h
          refine ⟨ds ++ (92 :: 117 :: ds'), rest'', .surrogates hds hhigh hds' hlow, ?_, rfl⟩
          rw [hrange, hrest, hrange', List.append_assoc]
          rfl
        · exact absurd h (error_ne_ok _ _ _)
    · exact absurd h (error_ne_ok _ _ _)
    · cases h
      exact ⟨ds, rest, .unicode hds (by omega), hrange, rfl⟩
  · rintro ⟨e, rest, hescape, hrange, rfl⟩
    generalize he : 117 :: e = e' at hescape
    cases hescape with
    | short h =>
      obtain ⟨rfl, -⟩ := List.cons.inj he
      cases h
    | unicode h hscalar =>
      obtain ⟨-, rfl⟩ := List.cons.inj he
      refine bind_eq_ok.2 ⟨_, readHex_iff.2 ⟨_, _, h, hrange, rfl⟩, ?_⟩
      dsimp only
      rw [if_neg (by omega), if_neg (by omega)]
      rfl
    | @surrogates ds ds' n m h hhigh h' hlow =>
      obtain ⟨-, rfl⟩ := List.cons.inj he
      rw [List.append_assoc] at hrange
      refine bind_eq_ok.2 ⟨_, readHex_iff.2 ⟨_, _, h, hrange, rfl⟩, ?_⟩
      have hconsume : Input.consume [92, 117] { s with range := 92 :: 117 :: ds' ++ rest } = some { s with range := ds' ++ rest } :=
        consume_iff.2 ⟨_, rfl, rfl⟩
      dsimp only
      rw [if_pos hhigh, hconsume]
      refine bind_eq_ok.2 ⟨_, readHex_iff.2 ⟨_, _, h', rfl, rfl⟩, ?_⟩
      dsimp only
      rw [if_pos hlow]
      rfl

theorem parseEscape_iff {s s' : Input} {out : List UInt8} :
    parseEscape s = .ok (out, s') ↔ ∃ e rest, Escape e out ∧ s.range = e ++ rest ∧ s' = { s with range := rest } := by
  obtain ⟨range, l⟩ := s
  constructor
  · intro h
    unfold parseEscape at h
    split at h
    · next hcurrent =>
      obtain ⟨e, rest, he, hrange, rfl⟩ := decodeUnicodeEscape_iff.1 h
      obtain ⟨range, rfl⟩ := List.head?_eq_some_iff.1 hcurrent
      obtain rfl : range = e ++ rest := hrange
      exact ⟨117 :: e, rest, he, rfl, rfl⟩
    · next c _ hcurrent =>
      obtain ⟨range, rfl⟩ := List.head?_eq_some_iff.1 hcurrent
      split at h
      · next c' hc =>
        cases h
        exact ⟨[c], range, .short hc, rfl, rfl⟩
      · exact absurd h (error_ne_ok _ _ _)
    · exact absurd h (error_ne_ok _ _ _)
  · rintro ⟨e, rest, he, rfl, rfl⟩
    unfold parseEscape
    cases he with
    | @short e c h =>
      have hne : e ≠ 117 := by
        rintro rfl
        cases h
      dsimp only [Input.current, List.cons_append, List.head?_cons]
      split
      · next heq => exact absurd (Option.some.inj heq) hne
      · next c' _ heq =>
        obtain rfl := Option.some.inj heq
        rw [h]
        rfl
      · next heq => cases heq
    | unicode h hscalar => exact decodeUnicodeEscape_iff.2 ⟨_, rest, .unicode h hscalar, rfl, rfl⟩
    | surrogates h hhigh h' hlow => exact decodeUnicodeEscape_iff.2 ⟨_, rest, .surrogates h hhigh h' hlow, rfl, rfl⟩

/-! ### Literals -/

theorem Escape.ne_nil {e out : List UInt8} (h : Escape e out) : e ≠ [] := by
  cases h <;> exact List.cons_ne_nil _ _

theorem Hex.isHex {ds : List UInt8} {n : Nat} (h : Hex ds n) : ∀ c ∈ ds, (hexDigitValue c).isSome := by
  obtain ⟨e₀, e₁, e₂, e₃⟩ := h
  simp [e₀, e₁, e₂, e₃]

theorem Escape.count {e out : List UInt8} (h : Escape e out) : e.count 10 = 0 := by
  have hhex {ds : List UInt8} {n : Nat} (h : Hex ds n) : ds.count 10 = 0 := by
    rw [List.count_eq_zero]
    exact fun hmem => absurd (h.isHex 10 hmem) (by decide)
  cases h with
  | @short e c h =>
    rw [List.count_eq_zero, List.mem_singleton]
    rintro rfl
    cases h
  | unicode h => rw [List.count_cons_of_ne (by decide), hhex h]
  | surrogates h _ h' =>
    rw [List.count_cons_of_ne (by decide), List.count_append, hhex h, List.count_cons_of_ne (by decide),
      List.count_cons_of_ne (by decide), hhex h']

theorem Escape.lines {e out : List UInt8} (h : Escape e out) (text : List UInt8) : lines (92 :: (e ++ text)) = lines text := by
  rw [Json.lines, Json.lines, List.count_cons_of_ne (by decide), List.count_append, h.count, Nat.zero_add]

theorem Literal.append {t₁ t₂ v₁ v₂ : List UInt8} (h₁ : Literal t₁ v₁) (h₂ : Literal t₂ v₂) : Literal (t₁ ++ t₂) (v₁ ++ v₂) := by
  induction h₁ with
  | nil => exact h₂
  | plain hquote hslash _ ih => exact .plain hquote hslash ih
  | escape he _ ih =>
    rw [List.cons_append, List.append_assoc, List.append_assoc]
    exact .escape he ih

/-- What neither ends a string nor is a backslash. -/
def isPlain (c : UInt8) : Bool := c != 34 && c != 92

theorem isPlain_iff {c : UInt8} : isPlain c = true ↔ c ≠ 34 ∧ c ≠ 92 := by
  rw [isPlain, Bool.and_eq_true, bne_iff_ne, bne_iff_ne]

theorem Literal.of_plain {text : List UInt8} (h : ∀ c ∈ text, isPlain c = true) : Literal text text := by
  induction text with
  | nil => exact .nil
  | cons c text ih =>
    obtain ⟨hc, htext⟩ := List.forall_mem_cons.1 h
    exact .plain (isPlain_iff.1 hc).1 (isPlain_iff.1 hc).2 (ih htext)

theorem stringLoop_plain (fuel : Nat) (ret range : List UInt8) (l : UInt32) {c : UInt8} (hc : isPlain c = true) :
    stringLoop fuel ret ⟨c :: range, l⟩ = stringLoop fuel (ret ++ [c]) ⟨range, l + lines [c]⟩ := by
  obtain - | fuel := fuel
  · rfl
  · have hcount : l + lines [c] + lines (range.takeWhile isPlain) = l + lines (c :: range.takeWhile isPlain) := by
      rw [UInt32.add_assoc, ← lines_append]
      rfl
    have hskip : Input.skipWhile isPlain ⟨c :: range, l⟩ = (c :: range.takeWhile isPlain,
        (Input.skipWhile isPlain ⟨range, l + lines [c]⟩).2) := by
      simp only [Input.skipWhile, List.takeWhile_cons_of_pos hc, List.dropWhile_cons_of_pos hc, hcount]
    unfold stringLoop
    rw [show (fun c : UInt8 => c != 34 && c != 92) = isPlain from rfl, hskip]
    have happend : ret ++ (c :: range.takeWhile isPlain) = ret ++ [c] ++ range.takeWhile isPlain := by
      rw [List.append_assoc, List.singleton_append]
    dsimp only
    rw [happend]
    rfl

theorem stringLoop_quote (fuel : Nat) (ret range : List UInt8) (l : UInt32) :
    stringLoop (fuel + 1) ret ⟨34 :: range, l⟩ = .ok (ret, ⟨range, l⟩) := by
  simp [stringLoop, Input.skipWhile, Input.current, Input.next]

theorem stringLoop_slash (fuel : Nat) (ret range : List UInt8) (l : UInt32) :
    stringLoop (fuel + 1) ret ⟨92 :: range, l⟩ = parseEscape ⟨range, l⟩ >>= fun r => stringLoop fuel (ret ++ r.1) r.2 := by
  simp [stringLoop, Input.skipWhile, Input.current, Input.next]

/-- **The text of a string** is read up to the first quote that is not escaped, and stands for what its characters and escapes do. -/
theorem stringLoop_iff {fuel : Nat} {s s' : Input} {ret out : List UInt8} (hfuel : s.range.length < fuel) :
    stringLoop fuel ret s = .ok (out, s') ↔ ∃ text value rest, Literal text value ∧ s.range = text ++ (34 :: rest) ∧
      out = ret ++ value ∧ s' = { range := rest, lineNum := s.lineNum + lines text } := by
  obtain ⟨range, l⟩ := s
  dsimp only at hfuel ⊢
  constructor
  · intro h
    induction hn : range.length using Nat.strong_induction_on generalizing fuel range l ret with
    | _ n ih =>
      subst hn
      obtain - | fuel := fuel
      · cases h
      obtain - | ⟨c, range⟩ := range
      · cases h
      have hless : range.length < (c :: range).length := Nat.lt_succ_self _
      by_cases hc : isPlain c = true
      · rw [stringLoop_plain _ _ _ _ hc] at h
        obtain ⟨text, value, rest, htext, hrange, hout, rfl⟩ := ih _ hless range _ (Nat.lt_of_succ_lt hfuel) h rfl
        refine ⟨c :: text, c :: value, rest, .plain (isPlain_iff.1 hc).1 (isPlain_iff.1 hc).2 htext, ?_, ?_, ?_⟩
        · rw [List.cons_append, ← hrange]
        · rw [hout, List.append_assoc, List.singleton_append]
        · rw [UInt32.add_assoc, ← lines_append]
          rfl
      · by_cases hquote : c = 34
        · subst hquote
          rw [stringLoop_quote] at h
          cases h
          exact ⟨[], [], range, .nil, rfl, (List.append_nil _).symm, by rw [lines_nil, UInt32.add_zero]⟩
        · obtain rfl : c = 92 := by
            by_contra hslash
            exact hc (isPlain_iff.2 ⟨hquote, hslash⟩)
          rw [stringLoop_slash] at h
          obtain ⟨⟨out', s₁⟩, he, h⟩ := bind_eq_ok.1 h
          obtain ⟨e, rest₁, hescape, hrange, rfl⟩ := parseEscape_iff.1 he
          obtain rfl : range = e ++ rest₁ := hrange
          have hshort : rest₁.length ≤ (e ++ rest₁).length := by
            rw [List.length_append]
            exact Nat.le_add_left _ _
          obtain ⟨text, value, rest, htext, hrange, hout, rfl⟩ := ih _ (Nat.lt_of_le_of_lt hshort hless) rest₁ _
            (Nat.lt_of_le_of_lt hshort (Nat.lt_of_succ_lt_succ hfuel)) h rfl
          refine ⟨92 :: (e ++ text), out' ++ value, rest, .escape hescape htext, ?_, ?_, ?_⟩
          · rw [hrange, List.cons_append, List.append_assoc]
          · rw [hout, List.append_assoc]
          · rw [hescape.lines]
  · rintro ⟨text, value, rest, htext, rfl, rfl, rfl⟩
    induction htext generalizing fuel ret l with
    | nil =>
      obtain - | fuel := fuel
      · exact absurd hfuel (Nat.not_lt_zero _)
      · rw [List.nil_append, stringLoop_quote, List.append_nil, lines_nil, UInt32.add_zero]
    | @plain c text value hquote hslash _ ih =>
      rw [List.cons_append, stringLoop_plain _ _ _ _ (isPlain_iff.2 ⟨hquote, hslash⟩), ih _ (Nat.lt_of_succ_lt hfuel), List.append_assoc,
        List.singleton_append, UInt32.add_assoc, ← lines_append]
      rfl
    | @escape e out' text value he _ ih =>
      obtain - | fuel := fuel
      · exact absurd hfuel (Nat.not_lt_zero _)
      · have hparse : parseEscape ⟨e ++ (text ++ 34 :: rest), l⟩ = .ok (out', ⟨text ++ 34 :: rest, l⟩) :=
          parseEscape_iff.2 ⟨e, _, he, rfl, rfl⟩
        have hshort : (text ++ 34 :: rest).length < fuel := by
          simp only [List.cons_append, List.length_cons, List.length_append] at hfuel ⊢
          omega
        rw [List.cons_append, List.append_assoc, stringLoop_slash, hparse]
        refine (ih _ hshort).trans ?_
        rw [List.append_assoc, he.lines]

theorem parseString_iff {range out : List UInt8} {l : UInt32} {s' : Input} :
    parseString ⟨34 :: range, l⟩ = .ok (out, s') ↔
      ∃ text rest, Literal text out ∧ range = text ++ (34 :: rest) ∧ s' = { range := rest, lineNum := l + lines text } := by
  unfold parseString
  rw [stringLoop_iff (show range.length < range.length + 1 from Nat.lt_succ_self _)]
  simp only [Input.next, List.tail_cons, List.nil_append]
  constructor
  · rintro ⟨text, value, rest, htext, hrange, rfl, rfl⟩
    exact ⟨text, rest, htext, hrange, rfl⟩
  · rintro ⟨text, rest, htext, hrange, rfl⟩
    exact ⟨text, out, rest, htext, hrange, rfl, rfl⟩

/-! ### What is printed -/

theorem hexDigitValue_hexDigit {h : Nat} (hh : h < 16) : hexDigitValue (hexDigit h) = some h := by
  have hall : ∀ h : Fin 16, hexDigitValue (hexDigit h) = some h.val := by decide
  exact hall ⟨h, hh⟩

theorem hex_hexDigit {h₀ h₁ h₂ h₃ n : Nat} (b₀ : h₀ < 16) (b₁ : h₁ < 16) (b₂ : h₂ < 16) (b₃ : h₃ < 16)
    (hn : n = h₀ * 4096 + h₁ * 256 + h₂ * 16 + h₃) : Hex [hexDigit h₀, hexDigit h₁, hexDigit h₂, hexDigit h₃] n := by
  rw [hn]
  exact .intro (hexDigitValue_hexDigit b₀) (hexDigitValue_hexDigit b₁) (hexDigitValue_hexDigit b₂) (hexDigitValue_hexDigit b₃)

theorem Escape.literal {e out : List UInt8} (h : Escape e out) : Literal (92 :: e) out := by
  have hliteral := Literal.escape h .nil
  rwa [List.append_nil, List.append_nil] at hliteral

theorem shortEscape_facts (c : UInt8) : ∀ e, shortEscape c = some e → unescape e = some c := by
  intro e he
  unfold shortEscape at he
  split_ifs at he with h₁ h₂ h₃ h₄ h₅ <;> cases he <;> subst_vars <;> rfl

theorem escapeByte_literal (c : UInt8) : Literal (escapeByte c) [c] := by
  unfold escapeByte
  split_ifs with hself hcontrol
  · refine (Escape.short ?_).literal
    obtain rfl | rfl := hself <;> rfl
  · split
    · next e he => exact (Escape.short (shortEscape_facts c e he)).literal
    · have hc : c.toNat ≤ 0x1f := UInt8.le_iff_toNat_le.1 hcontrol
      have hhigh : ((c &&& 0xf0) >>> 4).toNat = c.toNat / 16 := by
        have hall : ∀ b : Fin 256, ((UInt8.ofNat b &&& 0xf0) >>> 4).toNat = b.val / 16 := by decide +kernel
        have hb := hall ⟨c.toNat, UInt8.toNat_lt c⟩
        rwa [UInt8.ofNat_toNat] at hb
      have hlow : (c &&& 0xf).toNat = c.toNat % 16 := by
        rw [UInt8.toNat_and]
        exact Nat.and_two_pow_sub_one_eq_mod _ 4
      have hhex : Hex [48, 48, hexDigit ((c &&& 0xf0) >>> 4).toNat, hexDigit (c &&& 0xf).toNat] c.toNat := by
        rw [hhigh, hlow]
        have hzero : 0 < 16 := by decide
        exact hex_hexDigit hzero hzero (by omega) (by omega) (by omega)
      have hliteral := (Escape.unicode hhex (by omega)).literal
      have hnat : (UInt32.ofNat c.toNat).toNat = c.toNat := UInt32.toNat_ofNat_of_lt (by simp only [UInt32.size]; omega)
      rwa [codePointToUtf8_one (by omega), UInt32.toUInt8_ofNat', UInt8.ofNat_toNat] at hliteral
  · refine Literal.plain ?_ ?_ .nil
    · exact fun h => hself (.inr h)
    · exact fun h => hself (.inl h)

theorem escapeByte_line (c : UInt8) : 10 ∉ escapeByte c := by
  have hall : ∀ b : Fin 256, 10 ∉ escapeByte (UInt8.ofNat b) := by decide +kernel
  have hb := hall ⟨c.toNat, UInt8.toNat_lt c⟩
  rwa [UInt8.ofNat_toNat] at hb

theorem escapeCodePoint_literal {v : UInt32} (hlt : v.toNat < 0x10000) (hscalar : ¬(0xd800 ≤ v.toNat ∧ v.toNat ≤ 0xdfff)) :
    Escape (escapeCodePoint v).tail (codePointToUtf8 v) := by
  have hshift (k : Nat) (hk : k < 32) : (v >>> UInt32.ofNat k &&& 0x0f).toNat = v.toNat / 2 ^ k % 16 := by
    rw [UInt32.toNat_and, toNat_shiftRight_ofNat v k hk]
    exact Nat.and_two_pow_sub_one_eq_mod _ 4
  have h₀ : (v >>> 12).toNat = v.toNat / 4096 := toNat_shiftRight_ofNat v 12 (by decide)
  have h₁ : (v >>> 8 &&& 0x0f).toNat = v.toNat / 256 % 16 := hshift 8 (by decide)
  have h₂ : (v >>> 4 &&& 0x0f).toNat = v.toNat / 16 % 16 := hshift 4 (by decide)
  have h₃ : (v &&& 0x0f).toNat = v.toNat % 16 := by
    rw [UInt32.toNat_and]
    exact Nat.and_two_pow_sub_one_eq_mod _ 4
  have hhex : Hex (escapeCodePoint v).tail.tail v.toNat := by
    unfold escapeCodePoint
    rw [h₀, h₁, h₂, h₃]
    exact hex_hexDigit (by omega) (by omega) (by omega) (by omega) (by omega)
  have hescape := Escape.unicode hhex hscalar
  rwa [UInt32.ofNat_toNat] at hescape

/-! ### Replacing what is not UTF-8 -/

/-- Each byte at which the strict decoder throws becomes `U+FFFD`. -/
def repaired : List UInt8 → List UInt8
  | [] => []
  | c :: cs =>
    match decodeUtf8 (c :: cs) false with
    | .ok (_, n) => (c :: cs).take n ++ repaired (cs.drop (n - 1))
    | .error _ => [0xef, 0xbf, 0xbd] ++ repaired cs
  termination_by s => s.length

/-- What is read of a string that was escaped. -/
def shown (opts : SerializationOpts) (s : List UInt8) : List UInt8 := if opts.skipInvalidUtf8 then repaired s else s

/-- What the lenient decoder does: what the strict one does, or, where that throws, skip one byte. -/
def Lenient (p : Nat) (strict lenient : Except String (UInt32 × Nat)) : Prop :=
  (∃ r, strict = .ok r ∧ lenient = .ok r) ∨ ∃ e, strict = .error e ∧ lenient = .ok (0xfffd, p + 1)

theorem trailLoop_lenient (text : List UInt8) (p n i : Nat) (fst : UInt8) (d : UInt32) :
    Lenient p (trailLoop text false p n i fst d) (trailLoop text true p n i fst d) := by
  induction n generalizing i fst d with
  | zero => exact .inr ⟨_, rfl, rfl⟩
  | succ n ih =>
    rw [trailLoop, trailLoop]
    dsimp only
    split_ifs
    · exact .inr ⟨_, rfl, rfl⟩
    · exact .inr ⟨_, rfl, rfl⟩
    · exact .inr ⟨_, rfl, rfl⟩
    · exact .inl ⟨_, rfl, rfl⟩
    · exact ih _ _ _
    · exact .inr ⟨_, rfl, rfl⟩

theorem utf8ToCodePoint_lenient (text : List UInt8) (p : Nat) :
    Lenient p (utf8ToCodePoint text p false) (utf8ToCodePoint text p true) := by
  unfold utf8ToCodePoint
  dsimp only
  split_ifs
  · exact .inr ⟨_, rfl, rfl⟩
  · exact .inl ⟨_, rfl, rfl⟩
  · exact .inr ⟨_, rfl, rfl⟩
  · exact trailLoop_lenient _ _ _ _ _ _

theorem decodeUtf8_ok {s : List UInt8} {v : UInt32} {n : Nat} (h : decodeUtf8 s false = .ok (v, n)) : Decodes s v n := by
  unfold decodeUtf8 at h
  cases hdecode : utf8ToCodePoint s 0 false with
  | error message =>
    rw [hdecode] at h
    cases h
  | ok r =>
    rw [hdecode] at h
    cases h
    exact utf8ToCodePoint_ok hdecode

theorem decodeUtf8_lenient (s : List UInt8) :
    (∃ r, decodeUtf8 s false = .ok r ∧ decodeUtf8 s true = .ok r) ∨
      ∃ e, decodeUtf8 s false = .error e ∧ decodeUtf8 s true = .ok (0xfffd, 1) := by
  unfold decodeUtf8
  obtain ⟨r, hstrict, hlenient⟩ | ⟨e, hstrict, hlenient⟩ := utf8ToCodePoint_lenient s 0
  · rw [hstrict, hlenient]
    exact .inl ⟨r, rfl, rfl⟩
  · rw [hstrict, hlenient]
    exact .inr ⟨_, rfl, rfl⟩

theorem replacement_eq : codePointToUtf8 0xfffd = [0xef, 0xbf, 0xbd] := rfl

theorem repaired_eq {c : UInt8} {cs : List UInt8} {v : UInt32} {n : Nat} (h : decodeUtf8 (c :: cs) true = .ok (v, n)) :
    repaired (c :: cs) = codePointToUtf8 v ++ repaired ((c :: cs).drop n) ∧ 0 < n ∧ v.toNat < 0x10000 ∧
      ¬(0xd800 ≤ v.toNat ∧ v.toNat ≤ 0xdfff) := by
  rw [repaired]
  obtain ⟨r, hstrict, hlenient⟩ | ⟨e, hstrict, hlenient⟩ := decodeUtf8_lenient (c :: cs)
  · obtain rfl := Except.ok.inj (hlenient.symm.trans h)
    obtain ⟨htake, hpos, -, hlt, hscalar⟩ := decodeUtf8_ok hstrict
    obtain ⟨n, rfl⟩ := Nat.exists_eq_add_of_le' hpos
    rw [hstrict]
    dsimp only
    rw [htake]
    exact ⟨rfl, hpos, hlt, hscalar⟩
  · cases hlenient.symm.trans h
    rw [hstrict]
    exact ⟨rfl, Nat.one_pos, by decide, by decide⟩

theorem repaired_ascii {c : UInt8} (cs : List UInt8) (hc : c &&& 0x80 = 0) : repaired (c :: cs) = c :: repaired cs := by
  have hdecode : decodeUtf8 (c :: cs) false = .ok (c.toUInt32, 1) := by
    unfold decodeUtf8
    rw [show utf8ToCodePoint (c :: cs) 0 false = .ok (c.toUInt32, 1) from utf8ToCodePoint_one [] cs false hc]
    rfl
  rw [repaired, hdecode]
  rfl

/-! ### The loop -/

variable {opts : SerializationOpts}

/-- What is read of the rest of a string, of which the first bytes are known to be valid. -/
def after (opts : SerializationOpts) (ahead : Nat) (s : List UInt8) : List UInt8 := s.take ahead ++ shown opts (s.drop ahead)

theorem after_zero (s : List UInt8) : after opts 0 s = shown opts s := rfl

theorem after_strict (hskip : opts.skipInvalidUtf8 = false) (ahead : Nat) (s : List UInt8) : after opts ahead s = s := by
  rw [after, shown, hskip, if_neg Bool.false_ne_true, List.take_append_drop]

/-- Some text for the first bytes, of which there is one at least, and how far the rest is known to be valid. -/
structure Copies (opts : SerializationOpts) (s value text : List UInt8) (n ahead' : Nat) : Prop where
  literal : ∀ rest, Literal rest (after opts ahead' (s.drop n)) → Literal (text ++ rest) value
  line : text.count 10 = 0
  pos : 0 < n
  reset : opts.encodeNonAscii = true → ahead' = 0

theorem copies_byte {ahead : Nat} {c : UInt8} {cs : List UInt8} (h : after opts ahead (c :: cs) = c :: after opts (ahead - 1) cs)
    (hreset : opts.encodeNonAscii = true → ahead = 0) : Copies opts (c :: cs) (after opts ahead (c :: cs)) (escapeByte c) 1 (ahead - 1) := by
  refine ⟨fun rest hrest => ?_, List.count_eq_zero.2 (escapeByte_line c), Nat.one_pos, fun hencode => ?_⟩
  · rw [h]
    exact (escapeByte_literal c).append hrest
  · rw [hreset hencode]

theorem copies_codePoint {s : List UInt8} {v : UInt32} {n : Nat} (hafter : after opts 0 s = codePointToUtf8 v ++ after opts 0 (s.drop n))
    (hpos : 0 < n) (hlt : v.toNat < 0x10000) (hscalar : ¬(0xd800 ≤ v.toNat ∧ v.toNat ≤ 0xdfff)) :
    Copies opts s (after opts 0 s) (escapeCodePoint v) n 0 := by
  have hescape := escapeCodePoint_literal hlt hscalar
  refine ⟨fun rest hrest => ?_, ?_, hpos, fun _ => rfl⟩
  · rw [hafter]
    exact hescape.literal.append hrest
  · exact (List.count_cons_of_ne (by decide)).trans hescape.count

theorem after_decoded {c : UInt8} {cs : List UInt8} {v : UInt32} {n : Nat}
    (h : decodeUtf8 (c :: cs) opts.skipInvalidUtf8 = .ok (v, n)) :
    after opts 0 (c :: cs) = codePointToUtf8 v ++ after opts 0 ((c :: cs).drop n) ∧ 0 < n ∧ v.toNat < 0x10000 ∧
      ¬(0xd800 ≤ v.toNat ∧ v.toNat ≤ 0xdfff) := by
  cases hskip : opts.skipInvalidUtf8 with
  | false =>
    rw [hskip] at h
    obtain ⟨htake, hpos, -, hlt, hscalar⟩ := decodeUtf8_ok h
    rw [after_strict hskip, after_strict hskip, ← htake, List.take_append_drop]
    exact ⟨rfl, hpos, hlt, hscalar⟩
  | true =>
    rw [hskip] at h
    rw [after_zero, after_zero, shown, shown, hskip, if_pos rfl, if_pos rfl]
    exact repaired_eq h

theorem copyStep_ok {ahead : Nat} {c : UInt8} {cs : List UInt8} {r : List UInt8 × Nat × Nat} (h : copyStep opts ahead c cs = .ok r)
    (hreset : opts.encodeNonAscii = true → ahead = 0)
    (hbyte : ahead = 0 → opts.skipInvalidUtf8 = true → opts.encodeNonAscii = true) :
    Copies opts (c :: cs) (after opts ahead (c :: cs)) r.1 r.2.1 r.2.2 := by
  unfold copyStep at h
  split_ifs at h with hencode
  · rw [Bool.and_eq_true] at hencode
    obtain rfl := hreset hencode.1
    obtain ⟨⟨v, n⟩, hdecode, h⟩ := bind_eq_ok.1 h
    cases h
    obtain ⟨hafter, hpos, hlt, hscalar⟩ := after_decoded hdecode
    exact copies_codePoint hafter hpos hlt hscalar
  · cases h
    refine copies_byte ?_ hreset
    obtain - | ahead := ahead
    · cases hskip : opts.skipInvalidUtf8 with
      | false => rw [after_strict hskip, after_strict hskip]
      | true =>
        have hascii : c &&& 0x80 = 0 := by simpa [hbyte rfl hskip] using hencode
        rw [after_zero, after_zero, shown, shown, hskip, if_pos rfl, if_pos rfl, repaired_ascii cs hascii]
    · rfl

theorem after_valid {c : UInt8} {cs : List UInt8} {v : UInt32} {n : Nat} (h : decodeUtf8 (c :: cs) opts.skipInvalidUtf8 = .ok (v, n))
    (hreplace : ¬(opts.skipInvalidUtf8 = true ∧ v = 0xfffd)) : after opts n (c :: cs) = after opts 0 (c :: cs) := by
  cases hskip : opts.skipInvalidUtf8 with
  | false => rw [after_strict hskip, after_strict hskip]
  | true =>
    rw [(after_decoded h).1]
    rw [hskip] at h
    obtain ⟨r, hstrict, hlenient⟩ | ⟨e, hstrict, hlenient⟩ := decodeUtf8_lenient (c :: cs)
    · obtain rfl := Except.ok.inj (hlenient.symm.trans h)
      rw [← (decodeUtf8_ok hstrict).take]
      rfl
    · cases hlenient.symm.trans h
      exact absurd ⟨hskip, rfl⟩ hreplace

theorem escapeStep_ok {ahead : Nat} {c : UInt8} {cs : List UInt8} {r : List UInt8 × Nat × Nat} (h : escapeStep opts ahead c cs = .ok r)
    (hreset : opts.encodeNonAscii = true → ahead = 0) :
    Copies opts (c :: cs) (after opts ahead (c :: cs)) r.1 r.2.1 r.2.2 := by
  unfold escapeStep at h
  split_ifs at h with hvalidate
  · simp only [Bool.and_eq_true, decide_eq_true_eq, Bool.not_eq_true', Bool.or_eq_true] at hvalidate
    obtain ⟨⟨-, hencode⟩, rfl⟩ := hvalidate
    obtain ⟨⟨v, n⟩, hdecode, h⟩ := bind_eq_ok.1 h
    obtain ⟨hafter, hpos, -⟩ := after_decoded hdecode
    dsimp only at h
    split_ifs at h with hreplace
    · rw [Bool.and_eq_true, decide_eq_true_iff] at hreplace
      obtain ⟨-, rfl⟩ := hreplace
      cases h
      refine ⟨fun rest hrest => ?_, rfl, hpos, fun _ => rfl⟩
      rw [hafter, replacement_eq]
      have hplain : ∀ c ∈ [0xef, 0xbf, 0xbd], isPlain c = true := by simp [isPlain]
      exact (Literal.of_plain hplain).append hrest
    · rw [Bool.and_eq_true, decide_eq_true_iff] at hreplace
      have hcopies := copyStep_ok h (fun htrue => absurd (hencode.symm.trans htrue) Bool.false_ne_true) fun hzero => by omega
      rw [← after_valid hdecode hreplace]
      exact hcopies
  · refine copyStep_ok h hreset fun hzero hskip => ?_
    simpa [hzero, hskip] using hvalidate

theorem escapeLoop_ok {fuel ahead : Nat} {s out : List UInt8} (h : escapeLoop opts fuel ahead s = .ok out)
    (hreset : opts.encodeNonAscii = true → ahead = 0) : Literal out (after opts ahead s) ∧ out.count 10 = 0 := by
  have hnil {ahead : Nat} : Literal [] (after opts ahead []) := by
    have hshown : shown opts [] = [] := by
      rw [shown, repaired]
      exact ite_self _
    rw [after, List.take_nil, List.drop_nil, hshown]
    exact .nil
  induction fuel generalizing ahead s out with
  | zero =>
    obtain - | ⟨c, cs⟩ := s
    · cases h
      exact ⟨hnil, rfl⟩
    · cases h
  | succ fuel ih =>
    obtain - | ⟨c, cs⟩ := s
    · cases h
      exact ⟨hnil, rfl⟩
    · obtain ⟨⟨text, n, ahead'⟩, hstep, h⟩ := bind_eq_ok.1 h
      obtain ⟨out', hrest, h⟩ := bind_eq_ok.1 h
      cases h
      obtain ⟨hliteral, hline, -, hreset'⟩ := escapeStep_ok hstep hreset
      obtain ⟨hliteral', hline'⟩ := ih hrest hreset'
      exact ⟨hliteral _ hliteral', by rw [List.count_append, hline, hline']⟩

theorem escapeString_ok {s out : List UInt8} (h : escapeString opts s = .ok out) :
    ∃ text, out = 34 :: (text ++ [34]) ∧ Literal text (shown opts s) ∧ text.count 10 = 0 := by
  obtain ⟨text, hloop, h⟩ := bind_eq_ok.1 h
  cases h
  exact ⟨text, rfl, escapeLoop_ok hloop fun _ => rfl⟩

theorem escapeStep_total (ahead : Nat) (c : UInt8) (cs : List UInt8)
    (hopts : opts.skipInvalidUtf8 = true ∨ opts.validateUtf8 = false ∧ opts.encodeNonAscii = false) :
    ∃ r, escapeStep opts ahead c cs = .ok r := by
  cases hskip : opts.skipInvalidUtf8 with
  | false =>
    obtain htrue | ⟨hvalidate, hencode⟩ := hopts
    · exact absurd (hskip.symm.trans htrue) Bool.false_ne_true
    · unfold escapeStep copyStep
      rw [hvalidate, hencode, hskip]
      exact ⟨_, rfl⟩
  | true =>
    obtain ⟨⟨v, n⟩, hdecode⟩ : ∃ r, decodeUtf8 (c :: cs) true = .ok r := by
      obtain ⟨r, -, hlenient⟩ | ⟨e, -, hlenient⟩ := decodeUtf8_lenient (c :: cs)
      · exact ⟨r, hlenient⟩
      · exact ⟨_, hlenient⟩
    have hcopy (ahead : Nat) : ∃ r, copyStep opts ahead c cs = .ok r := by
      unfold copyStep
      rw [hskip, hdecode]
      split_ifs
      · exact ⟨_, rfl⟩
      · exact ⟨_, rfl⟩
    unfold escapeStep
    rw [hskip, hdecode]
    split_ifs
    · by_cases hreplace : (true && decide (v = 0xfffd)) = true
      · exact ⟨_, if_pos hreplace⟩
      · obtain ⟨r, hr⟩ := hcopy n
        exact ⟨r, (if_neg hreplace).trans hr⟩
    · exact hcopy ahead

theorem escapeLoop_total {fuel ahead : Nat} {s : List UInt8} (hfuel : s.length ≤ fuel)
    (hopts : opts.skipInvalidUtf8 = true ∨ opts.validateUtf8 = false ∧ opts.encodeNonAscii = false)
    (hreset : opts.encodeNonAscii = true → ahead = 0) : ∃ out, escapeLoop opts fuel ahead s = .ok out := by
  induction fuel generalizing ahead s with
  | zero =>
    obtain rfl := List.eq_nil_of_length_eq_zero (Nat.le_zero.1 hfuel)
    exact ⟨_, rfl⟩
  | succ fuel ih =>
    obtain - | ⟨c, cs⟩ := s
    · exact ⟨_, rfl⟩
    · obtain ⟨⟨text, n, ahead'⟩, hstep⟩ := escapeStep_total ahead c cs hopts
      obtain ⟨-, -, hpos, hreset'⟩ := escapeStep_ok hstep hreset
      have hshort : ((c :: cs).drop n).length ≤ fuel := by
        have hpos : 0 < n := hpos
        rw [List.length_cons] at hfuel
        rw [List.length_drop, List.length_cons]
        omega
      obtain ⟨out, hrest⟩ := ih hshort hreset'
      exact ⟨_, bind_eq_ok.2 ⟨_, hstep, bind_eq_ok.2 ⟨_, hrest, rfl⟩⟩⟩

theorem parseString_literal {text value : List UInt8} (h : Literal text value) (hline : text.count 10 = 0) (rest : List UInt8)
    (l : UInt32) : parseString ⟨34 :: (text ++ [34]) ++ rest, l⟩ = .ok (value, ⟨rest, l⟩) := by
  refine (stringLoop_iff (Nat.lt_succ_self _)).2 ⟨text, value, rest, h, ?_, rfl, ?_⟩
  · simp [Input.next]
  · rw [lines_eq_zero hline, UInt32.add_zero]
    rfl

/-- **An escaped string is read back** as it was, or with `U+FFFD` for the bytes that are not UTF-8, whatever is behind it; and
escaping throws only where it is asked to check for UTF-8 and may not replace. -/
theorem parseString_escapeString (opts : SerializationOpts) (s : List UInt8) :
    (∀ out rest l, escapeString opts s = .ok out → parseString ⟨out ++ rest, l⟩ = .ok (shown opts s, ⟨rest, l⟩)) ∧
    (opts.skipInvalidUtf8 = true ∨ opts.validateUtf8 = false ∧ opts.encodeNonAscii = false → ∃ out, escapeString opts s = .ok out) := by
  refine ⟨fun out rest l h => ?_, fun hopts => ?_⟩
  · obtain ⟨text, rfl, hliteral, hline⟩ := escapeString_ok h
    exact parseString_literal hliteral hline rest l
  · obtain ⟨out, hloop⟩ := escapeLoop_total (Nat.le_refl s.length) hopts fun _ => rfl
    exact ⟨_, bind_eq_ok.2 ⟨out, hloop, rfl⟩⟩

end Raster.Json
