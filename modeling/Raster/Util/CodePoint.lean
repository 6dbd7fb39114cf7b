import Mathlib.Data.UInt
import Raster.Util.Unicode

/-!
# Code points as UTF-8 bytes

`codePointToUtf8`, `utf8ToCodePoint` and `utf8ToCodePointUnsafe` of `raster/util/Unicode.cpp`. A `Char` is a Unicode scalar
value. The checked decoder looks at two trail bytes and no more, so that it refuses what the encoder makes of a code point
beyond `U+FFFF`.
-/

namespace Raster.Utf8

/-! ### The encoder -/

def codePointToUtf8 (cp : UInt32) : List UInt8 :=
  if cp ≤ 0x7f then [cp.toUInt8]
  else if cp ≤ 0x7ff then [(cp >>> 6 ||| 0xc0).toUInt8, (cp &&& 0x3f ||| 0x80).toUInt8]
  else if cp ≤ 0xffff then
    [(cp >>> 12).toUInt8 ||| 0xe0, (cp >>> 6 &&& 0x3f).toUInt8 ||| 0x80, (cp &&& 0x3f ||| 0x80).toUInt8]
  else if cp ≤ 0x10ffff then
    [(cp >>> 18 ||| 0xf0).toUInt8, (cp >>> 12 &&& 0x3f ||| 0x80).toUInt8, (cp >>> 6 &&& 0x3f ||| 0x80).toUInt8,
      (cp &&& 0x3f ||| 0x80).toUInt8]
  else []

/-- The encodings of a list of scalar values, one behind the other. -/
def encode (cs : List Char) : List UInt8 := cs.flatMap fun c => codePointToUtf8 c.val

/-! ### The checked decoder -/

/-- What each error does: `skip` over one byte, or throw. -/
def fail (skipOnError : Bool) (p : Nat) (message : String) : Except String (UInt32 × Nat) :=
  if skipOnError then .ok (0xfffd, p + 1) else .error message

def bitMask : Nat → UInt32
  | 0 => 2 ^ 7 - 1
  | 1 => 2 ^ 11 - 1
  | 2 => 2 ^ 16 - 1
  | _ => 2 ^ 21 - 1

/-- The loop over the trail bytes from `i` on, for at most `n` turns. -/
def trailLoop (text : List UInt8) (skipOnError : Bool) (p : Nat) :
    (n i : Nat) → (fst : UInt8) → (d : UInt32) → Except String (UInt32 × Nat)
  | 0, _, _, _ => fail skipOnError p "rdd::utf8ToCodePoint encoding length maxed out"
  | n + 1, i, fst, d =>
    if p + i < text.length then
      let tmp := text.getD (p + i) 0
      if tmp &&& 0xc0 ≠ 0x80 then fail skipOnError p s!"rdd::utf8ToCodePoint i={i} tmp={tmp}"
      else
        let d := d <<< 6 ||| (tmp &&& 0x3f).toUInt32
        let fst := fst <<< 1
        if fst &&& 0x80 = 0 then
          let d := d &&& bitMask i
          -- overlong, could have been encoded with i bytes
          if d &&& ~~~ bitMask (i - 1) = 0 then fail skipOnError p s!"rdd::utf8ToCodePoint i={i} d={d}"
          -- check for surrogates only needed for 3 bytes
          else if i = 2 ∧ ((0xd800 ≤ d ∧ d ≤ 0xdfff) ∨ 0x10ffff < d) then
            fail skipOnError p s!"rdd::utf8ToCodePoint i={i} d={d}"
          else .ok (d, p + i + 1)
        else trailLoop text skipOnError p n (i + 1) fst d
    else fail skipOnError p "rdd::utf8ToCodePoint encoding length maxed out"

/-- `utf8ToCodePoint` at `p` in a text: the code point and where `p` is left. The loop runs while `i != 3`. -/
def utf8ToCodePoint (text : List UInt8) (p : Nat) (skipOnError : Bool) : Except String (UInt32 × Nat) :=
  if text.length ≤ p then fail skipOnError p "rdd::utf8ToCodePoint empty/invalid string"
  else
    let fst := text.getD p 0
    if fst &&& 0x80 = 0 then .ok (fst.toUInt32, p + 1)
    else
      let d := fst.toUInt32
      if fst &&& 0xc0 ≠ 0xc0 then fail skipOnError p s!"rdd::utf8ToCodePoint i=0 d={d}"
      else trailLoop text skipOnError p 2 1 (fst <<< 1) d

/-! ### The unchecked decoder -/

/-- `utf8ToCodePointUnsafe` at `p`, `none` when it reads behind the text. -/
def utf8ToCodePointUnsafe (text : List UInt8) (p : Nat) : Option UInt32 := do
  let b ← text[p]?
  let cp := b.toUInt32
  if cp ≥ 0x80 then
    if cp < 0xe0 then
      let b1 ← text[p + 1]?
      return (cp &&& 0x1f) <<< 6 ||| (b1 &&& 0x3f).toUInt32
    else if cp < 0xf0 then
      let b1 ← text[p + 1]?
      let b2 ← text[p + 2]?
      -- the cast to `char16_t` cuts off the upper bits of the lead byte
      return (cp <<< 12 ||| (b1 &&& 0x3f).toUInt32 <<< 6 ||| (b2 &&& 0x3f).toUInt32).toUInt16.toUInt32
    else
      let b1 ← text[p + 1]?
      let b2 ← text[p + 2]?
      let b3 ← text[p + 3]?
      return (cp &&& 7) <<< 18 ||| (b1 &&& 0x3f).toUInt32 <<< 12 ||| (b2 &&& 0x3f).toUInt32 <<< 6 ||| (b3 &&& 0x3f).toUInt32
  else return cp

/-! ### Repeated decoding -/

theorem fail_ok {skipOnError : Bool} {p : Nat} {message : String} {r : UInt32 × Nat} (h : fail skipOnError p message = .ok r) :
    r.2 = p + 1 := by
  unfold fail at h
  split_ifs at h
  cases h
  rfl

theorem lt_trailLoop {text : List UInt8} {skipOnError : Bool} {p n i : Nat} {fst : UInt8} {d : UInt32} {r : UInt32 × Nat}
    (h : trailLoop text skipOnError p n i fst d = .ok r) : p < r.2 := by
  induction n generalizing i fst d with
  | zero =>
    have := fail_ok h
    omega
  | succ n ih =>
    rw [trailLoop] at h
    simp only at h
    split_ifs at h
    · have := fail_ok h
      omega
    · have := fail_ok h
      omega
    · have := fail_ok h
      omega
    · cases h
      show p < p + i + 1
      omega
    · exact ih h
    · have := fail_ok h
      omega

theorem lt_utf8ToCodePoint {text : List UInt8} {skipOnError : Bool} {p : Nat} {r : UInt32 × Nat}
    (h : utf8ToCodePoint text p skipOnError = .ok r) : p < r.2 := by
  unfold utf8ToCodePoint at h
  simp only at h
  split_ifs at h
  · have := fail_ok h
    omega
  · cases h
    exact Nat.lt_succ_self p
  · have := fail_ok h
    omega
  · exact lt_trailLoop h

/-- `utf8ToCodePoint` again and again from `p` to the end of the text: the code points, and where it stops. -/
def decodeAll (text : List UInt8) (skipOnError : Bool) (p : Nat) : Except String (List UInt32 × Nat) :=
  if p < text.length then
    match _h : utf8ToCodePoint text p skipOnError with
    | .error message => .error message
    | .ok r => (decodeAll text skipOnError r.2).map fun (cps, e) => (r.1 :: cps, e)
  else .ok ([], p)
  termination_by text.length - p
  decreasing_by
    have := lt_utf8ToCodePoint _h
    omega

/-! ### The encoder in arithmetic -/

/-- A trail byte with its six bits. -/
def trailByte (a : Nat) : UInt8 := UInt8.ofNat (128 + a)

/-- The lead bytes of two, three and four bytes. -/
def lead2 (a : Nat) : UInt8 := UInt8.ofNat (192 + a)

@[inherit_doc lead2]
def lead3 (a : Nat) : UInt8 := UInt8.ofNat (224 + a)

@[inherit_doc lead2]
def lead4 (a : Nat) : UInt8 := UInt8.ofNat (240 + a)

theorem or_header {a i : Nat} (m : Nat) (h : a < 2 ^ i) : a ||| 2 ^ i * m = 2 ^ i * m + a := by
  rw [Nat.or_comm]
  exact (Nat.two_pow_add_eq_or_of_lt h m).symm

theorem toUInt8_or_header {cp header : UInt32} {i m : Nat} (hheader : header.toNat = 2 ^ i * m) (h : cp.toNat < 2 ^ i) :
    (cp ||| header).toUInt8 = UInt8.ofNat (2 ^ i * m + cp.toNat) := by
  apply UInt8.toNat_inj.mp
  rw [UInt32.toNat_toUInt8, UInt32.toNat_or, hheader, or_header m h, UInt8.toNat_ofNat']

theorem toUInt8_or {cp : UInt32} {header : UInt8} : cp.toUInt8 ||| header = (cp ||| header.toUInt32).toUInt8 := by
  rw [UInt32.toUInt8_or, UInt8.toUInt8_toUInt32]

theorem toNat_shiftRight_and (cp : UInt32) (k : Nat) (hk : k < 32) :
    (cp >>> UInt32.ofNat k &&& 0x3f).toNat = cp.toNat / 2 ^ k % 64 := by
  rw [UInt32.toNat_and, UInt32.toNat_shiftRight, UInt32.toNat_ofNat', Nat.mod_eq_of_lt (show k < 2 ^ 32 by omega),
    Nat.mod_eq_of_lt hk, Nat.shiftRight_eq_div_pow]
  exact Nat.and_two_pow_sub_one_eq_mod _ 6

theorem trail_eq (cp : UInt32) (k : Nat) (hk : k < 32) :
    (cp >>> UInt32.ofNat k &&& 0x3f ||| 0x80).toUInt8 = trailByte (cp.toNat / 2 ^ k % 64) := by
  have hbits := toNat_shiftRight_and cp k hk
  rw [toUInt8_or_header (i := 6) (m := 2) rfl (by omega), hbits]
  rfl

theorem last_trail_eq (cp : UInt32) : (cp &&& 0x3f ||| 0x80).toUInt8 = trailByte (cp.toNat % 64) := by
  have h := trail_eq cp 0 (by omega)
  rwa [show cp >>> UInt32.ofNat 0 = cp from UInt32.shiftRight_zero, Nat.pow_zero, Nat.div_one] at h

theorem toNat_shiftRight_ofNat (cp : UInt32) (k : Nat) (hk : k < 32) : (cp >>> UInt32.ofNat k).toNat = cp.toNat / 2 ^ k := by
  rw [UInt32.toNat_shiftRight, UInt32.toNat_ofNat', Nat.mod_eq_of_lt (show k < 2 ^ 32 by omega), Nat.mod_eq_of_lt hk,
    Nat.shiftRight_eq_div_pow]

theorem codePointToUtf8_one {cp : UInt32} (h : cp.toNat < 0x80) : codePointToUtf8 cp = [cp.toUInt8] := by
  have h1 : cp ≤ 0x7f := UInt32.le_iff_toNat_le.2 (Nat.le_of_lt_succ h)
  rw [codePointToUtf8, if_pos h1]

theorem codePointToUtf8_two {cp : UInt32} (hlo : 0x80 ≤ cp.toNat) (h : cp.toNat < 0x800) :
    codePointToUtf8 cp = [lead2 (cp.toNat / 64), trailByte (cp.toNat % 64)] := by
  have h1 : ¬ cp ≤ 0x7f := fun hle => absurd (UInt32.le_iff_toNat_le.1 hle) (Nat.not_le.2 hlo)
  have h2 : cp ≤ 0x7ff := UInt32.le_iff_toNat_le.2 (Nat.le_of_lt_succ h)
  have hlead : (cp >>> 6).toNat = cp.toNat / 64 := toNat_shiftRight_ofNat cp 6 (by omega)
  have hl : (cp >>> 6 ||| 0xc0).toUInt8 = lead2 (cp.toNat / 64) := by
    refine (toUInt8_or_header (i := 6) (m := 3) rfl (by omega)).trans ?_
    rw [hlead]
    rfl
  rw [codePointToUtf8, if_neg h1, if_pos h2, hl, last_trail_eq]

theorem codePointToUtf8_three {cp : UInt32} (hlo : 0x800 ≤ cp.toNat) (h : cp.toNat < 0x10000) :
    codePointToUtf8 cp = [lead3 (cp.toNat / 4096), trailByte (cp.toNat / 64 % 64), trailByte (cp.toNat % 64)] := by
  have h1 : ¬ cp ≤ 0x7f := fun hle => absurd (UInt32.le_iff_toNat_le.1 hle) (Nat.not_le.2 (Nat.le_trans (by decide) hlo))
  have h2 : ¬ cp ≤ 0x7ff := fun hle => absurd (UInt32.le_iff_toNat_le.1 hle) (Nat.not_le.2 hlo)
  have h3 : cp ≤ 0xffff := UInt32.le_iff_toNat_le.2 (Nat.le_of_lt_succ h)
  have hlead : (cp >>> 12).toNat = cp.toNat / 4096 := toNat_shiftRight_ofNat cp 12 (by omega)
  have ht : (cp >>> 6 &&& 0x3f).toUInt8 ||| 0x80 = trailByte (cp.toNat / 64 % 64) := toUInt8_or.trans (trail_eq cp 6 (by omega))
  have hl : (cp >>> 12).toUInt8 ||| 0xe0 = lead3 (cp.toNat / 4096) := by
    refine (toUInt8_or.trans (toUInt8_or_header (i := 5) (m := 7) rfl (by omega))).trans ?_
    rw [hlead]
    rfl
  rw [codePointToUtf8, if_neg h1, if_neg h2, if_pos h3, hl, ht, last_trail_eq]

theorem codePointToUtf8_four {cp : UInt32} (hlo : 0x10000 ≤ cp.toNat) (h : cp.toNat < 0x110000) :
    codePointToUtf8 cp = [lead4 (cp.toNat / 262144), trailByte (cp.toNat / 4096 % 64), trailByte (cp.toNat / 64 % 64),
      trailByte (cp.toNat % 64)] := by
  have h1 : ¬ cp ≤ 0x7f := fun hle => absurd (UInt32.le_iff_toNat_le.1 hle) (Nat.not_le.2 (Nat.le_trans (by decide) hlo))
  have h2 : ¬ cp ≤ 0x7ff := fun hle => absurd (UInt32.le_iff_toNat_le.1 hle) (Nat.not_le.2 (Nat.le_trans (by decide) hlo))
  have h3 : ¬ cp ≤ 0xffff := fun hle => absurd (UInt32.le_iff_toNat_le.1 hle) (Nat.not_le.2 hlo)
  have h4 : cp ≤ 0x10ffff := UInt32.le_iff_toNat_le.2 (Nat.le_of_lt_succ h)
  have hlead : (cp >>> 18).toNat = cp.toNat / 262144 := toNat_shiftRight_ofNat cp 18 (by omega)
  have ht1 : (cp >>> 12 &&& 0x3f ||| 0x80).toUInt8 = trailByte (cp.toNat / 4096 % 64) := trail_eq cp 12 (by omega)
  have ht2 : (cp >>> 6 &&& 0x3f ||| 0x80).toUInt8 = trailByte (cp.toNat / 64 % 64) := trail_eq cp 6 (by omega)
  have hl : (cp >>> 18 ||| 0xf0).toUInt8 = lead4 (cp.toNat / 262144) := by
    refine (toUInt8_or_header (i := 4) (m := 15) rfl (by omega)).trans ?_
    rw [hlead]
    rfl
  rw [codePointToUtf8, if_neg h1, if_neg h2, if_neg h3, if_pos h4, hl, ht1, ht2, last_trail_eq]

/-! ### What the decoders see of a byte -/

theorem trailByte_facts {a : Nat} (ha : a < 64) :
    trailByte a &&& 0xc0 = 0x80 ∧ (trailByte a &&& 0x3f).toUInt32.toNat = a ∧ ¬ trailByte a &&& 0x80 = 0 := by
  have hall : ∀ a : Fin 64, trailByte a &&& 0xc0 = 0x80 ∧ (trailByte a &&& 0x3f).toUInt32.toNat = a ∧
      ¬ trailByte a &&& 0x80 = 0 := by decide +kernel
  exact hall ⟨a, ha⟩

theorem lead2_facts {a : Nat} (ha : a < 32) :
    ¬ lead2 a &&& 0x80 = 0 ∧ lead2 a &&& 0xc0 = 0xc0 ∧ lead2 a <<< 1 <<< 1 &&& 0x80 = 0 ∧ (lead2 a).toUInt32.toNat = 192 + a := by
  have hall : ∀ a : Fin 32, ¬ lead2 a &&& 0x80 = 0 ∧ lead2 a &&& 0xc0 = 0xc0 ∧ lead2 a <<< 1 <<< 1 &&& 0x80 = 0 ∧
      (lead2 a).toUInt32.toNat = 192 + a := by decide +kernel
  exact hall ⟨a, ha⟩

theorem lead3_facts {a : Nat} (ha : a < 16) :
    ¬ lead3 a &&& 0x80 = 0 ∧ lead3 a &&& 0xc0 = 0xc0 ∧ ¬ lead3 a <<< 1 <<< 1 &&& 0x80 = 0 ∧
      lead3 a <<< 1 <<< 1 <<< 1 &&& 0x80 = 0 ∧ (lead3 a).toUInt32.toNat = 224 + a := by
  have hall : ∀ a : Fin 16, ¬ lead3 a &&& 0x80 = 0 ∧ lead3 a &&& 0xc0 = 0xc0 ∧ ¬ lead3 a <<< 1 <<< 1 &&& 0x80 = 0 ∧
      lead3 a <<< 1 <<< 1 <<< 1 &&& 0x80 = 0 ∧ (lead3 a).toUInt32.toNat = 224 + a := by decide +kernel
  exact hall ⟨a, ha⟩

theorem lead4_facts {a : Nat} (ha : a < 8) :
    ¬ lead4 a &&& 0x80 = 0 ∧ lead4 a &&& 0xc0 = 0xc0 ∧ ¬ lead4 a <<< 1 <<< 1 &&& 0x80 = 0 ∧
      ¬ lead4 a <<< 1 <<< 1 <<< 1 &&& 0x80 = 0 ∧ (lead4 a).toUInt32.toNat = 240 + a := by
  have hall : ∀ a : Fin 8, ¬ lead4 a &&& 0x80 = 0 ∧ lead4 a &&& 0xc0 = 0xc0 ∧ ¬ lead4 a <<< 1 <<< 1 &&& 0x80 = 0 ∧
      ¬ lead4 a <<< 1 <<< 1 <<< 1 &&& 0x80 = 0 ∧ (lead4 a).toUInt32.toNat = 240 + a := by decide +kernel
  exact hall ⟨a, ha⟩

theorem toNat_shift_or {d t : UInt32} (hd : d.toNat < 2 ^ 26) (ht : t.toNat < 64) :
    (d <<< 6 ||| t).toNat = d.toNat * 64 + t.toNat := by
  have hshift : (d <<< 6).toNat = d.toNat <<< 6 := by
    rw [UInt32.toNat_shiftLeft]
    refine Nat.mod_eq_of_lt ?_
    rw [show UInt32.toNat 6 % 32 = 6 from rfl, Nat.shiftLeft_eq]
    omega
  rw [UInt32.toNat_or, hshift, ← Nat.shiftLeft_add_eq_or_of_lt (show t.toNat < 2 ^ 6 from ht), Nat.shiftLeft_eq]

theorem lt_of_and_not_mask {d m : UInt32} {k : Nat} (hm : m.toNat = 2 ^ k - 1) (h : d &&& ~~~ m = 0) : d.toNat < 2 ^ k := by
  have hsplit : d = d &&& m := by
    have : d = (d &&& m) ||| (d &&& ~~~ m) := by
      apply UInt32.toBitVec_inj.1
      ext i hi
      simp only [UInt32.toBitVec_or, UInt32.toBitVec_and, UInt32.toBitVec_not, BitVec.getElem_or, BitVec.getElem_and,
        BitVec.getElem_not]
      cases d.toBitVec[i] <;> cases m.toBitVec[i] <;> rfl
    rwa [h, UInt32.or_zero] at this
  have hmod : d.toNat = d.toNat % 2 ^ k := by
    conv => lhs; rw [hsplit, UInt32.toNat_and, hm]
    exact Nat.and_two_pow_sub_one_eq_mod _ k
  rw [hmod]
  exact Nat.mod_lt _ (Nat.two_pow_pos k)

/-! ### One sequence in a text -/

section Sequence

variable (before rest : List UInt8) (skipOnError : Bool)

theorem getElem?_behind (i : Nat) : (before ++ rest)[before.length + i]? = rest[i]? := by
  rw [List.getElem?_append_right (Nat.le_add_right _ _), Nat.add_sub_cancel_left]

theorem getD_behind (i : Nat) : (before ++ rest).getD (before.length + i) 0 = rest.getD i 0 := by
  rw [List.getD_eq_getElem?_getD, List.getD_eq_getElem?_getD, getElem?_behind]

theorem utf8ToCodePoint_lead {b : UInt8} (h80 : ¬ b &&& 0x80 = 0) (hc0 : b &&& 0xc0 = 0xc0) :
    utf8ToCodePoint (before ++ b :: rest) before.length skipOnError =
      trailLoop (before ++ b :: rest) skipOnError before.length 2 1 (b <<< 1) b.toUInt32 := by
  have hb : (before ++ b :: rest).getD before.length 0 = b := getD_behind before (b :: rest) 0
  rw [utf8ToCodePoint, if_neg (by simp)]
  simp only [hb]
  rw [if_neg h80, if_neg (not_not_intro hc0)]

theorem trailLoop_more {n i t : Nat} {fst : UInt8} {d : UInt32} (ht : t < 64) (hlt : i < rest.length)
    (hi : rest.getD i 0 = trailByte t) (hmore : ¬ fst <<< 1 &&& 0x80 = 0) :
    trailLoop (before ++ rest) skipOnError before.length (n + 1) i fst d =
      trailLoop (before ++ rest) skipOnError before.length n (i + 1) (fst <<< 1)
        (d <<< 6 ||| (trailByte t &&& 0x3f).toUInt32) := by
  rw [trailLoop, if_pos (by rw [List.length_append]; omega), getD_behind, hi]
  simp only [(trailByte_facts ht).1, ne_eq, not_true, if_false, hmore]

theorem trailLoop_last {n i t : Nat} {fst : UInt8} {d v : UInt32} (ht : t < 64) (hlt : i < rest.length)
    (hi : rest.getD i 0 = trailByte t) (hlast : fst <<< 1 &&& 0x80 = 0)
    (hv : (d <<< 6 ||| (trailByte t &&& 0x3f).toUInt32) &&& bitMask i = v) (hlong : ¬ v &&& ~~~ bitMask (i - 1) = 0)
    (hvalid : ¬ (i = 2 ∧ ((0xd800 ≤ v ∧ v ≤ 0xdfff) ∨ 0x10ffff < v))) :
    trailLoop (before ++ rest) skipOnError before.length (n + 1) i fst d = .ok (v, before.length + i + 1) := by
  rw [trailLoop, if_pos (by rw [List.length_append]; omega), getD_behind, hi]
  simp only [(trailByte_facts ht).1, ne_eq, not_true, if_false, hlast, if_true, hv]
  rw [if_neg hlong, if_neg hvalid]

theorem utf8ToCodePoint_one {b : UInt8} (hb : b &&& 0x80 = 0) :
    utf8ToCodePoint (before ++ b :: rest) before.length skipOnError = .ok (b.toUInt32, before.length + 1) := by
  have hget : (before ++ b :: rest).getD before.length 0 = b := getD_behind before (b :: rest) 0
  rw [utf8ToCodePoint, if_neg (by simp)]
  simp only [hget, hb, if_true]

theorem utf8ToCodePoint_two {a t : Nat} (ha : a < 32) (ht : t < 64) (hlo : 128 ≤ a * 64 + t) :
    utf8ToCodePoint (before ++ lead2 a :: trailByte t :: rest) before.length skipOnError =
      .ok (UInt32.ofNat (a * 64 + t), before.length + 2) := by
  obtain ⟨h80, hc0, hlast, hlead⟩ := lead2_facts ha
  obtain ⟨-, htrail, -⟩ := trailByte_facts ht
  have hv : ((lead2 a).toUInt32 <<< 6 ||| (trailByte t &&& 0x3f).toUInt32) &&& bitMask 1 = UInt32.ofNat (a * 64 + t) := by
    apply UInt32.toNat_inj.1
    rw [UInt32.toNat_and, toNat_shift_or (by omega) (by omega), hlead, htrail, UInt32.toNat_ofNat',
      show (bitMask 1).toNat = 2 ^ 11 - 1 from rfl, Nat.and_two_pow_sub_one_eq_mod]
    omega
  have hlong : ¬ UInt32.ofNat (a * 64 + t) &&& ~~~ bitMask 0 = 0 := by
    intro h
    have hlt := lt_of_and_not_mask (k := 7) rfl h
    rw [UInt32.toNat_ofNat'] at hlt
    omega
  rw [utf8ToCodePoint_lead before _ skipOnError h80 hc0]
  exact trailLoop_last before (lead2 a :: trailByte t :: rest) skipOnError ht (by simp) rfl hlast hv hlong (by omega)

theorem utf8ToCodePoint_three {a t u : Nat} (ha : a < 16) (ht : t < 64) (hu : u < 64) (hlo : 0x800 ≤ a * 4096 + t * 64 + u)
    (hsurrogate : ¬ (0xd800 ≤ a * 4096 + t * 64 + u ∧ a * 4096 + t * 64 + u ≤ 0xdfff)) :
    utf8ToCodePoint (before ++ lead3 a :: trailByte t :: trailByte u :: rest) before.length skipOnError =
      .ok (UInt32.ofNat (a * 4096 + t * 64 + u), before.length + 3) := by
  obtain ⟨h80, hc0, hmore, hlast, hlead⟩ := lead3_facts ha
  obtain ⟨-, ht', -⟩ := trailByte_facts ht
  obtain ⟨-, hu', -⟩ := trailByte_facts hu
  have hd := toNat_shift_or (d := (lead3 a).toUInt32) (t := (trailByte t &&& 0x3f).toUInt32) (by omega) (by omega)
  have hn : (UInt32.ofNat (a * 4096 + t * 64 + u)).toNat = a * 4096 + t * 64 + u := by
    rw [UInt32.toNat_ofNat']
    omega
  have hv : (((lead3 a).toUInt32 <<< 6 ||| (trailByte t &&& 0x3f).toUInt32) <<< 6 ||| (trailByte u &&& 0x3f).toUInt32) &&&
      bitMask 2 = UInt32.ofNat (a * 4096 + t * 64 + u) := by
    apply UInt32.toNat_inj.1
    rw [UInt32.toNat_and, toNat_shift_or (by omega) (by omega), hd, hlead, ht', hu', hn,
      show (bitMask 2).toNat = 2 ^ 16 - 1 from rfl, Nat.and_two_pow_sub_one_eq_mod]
    omega
  have hlong : ¬ UInt32.ofNat (a * 4096 + t * 64 + u) &&& ~~~ bitMask 1 = 0 := by
    intro h
    have hlt := lt_of_and_not_mask (k := 11) rfl h
    omega
  have hvalid : ¬ (2 = 2 ∧ ((0xd800 ≤ UInt32.ofNat (a * 4096 + t * 64 + u) ∧ UInt32.ofNat (a * 4096 + t * 64 + u) ≤ 0xdfff) ∨
      0x10ffff < UInt32.ofNat (a * 4096 + t * 64 + u))) := by
    rw [UInt32.le_iff_toNat_le, UInt32.le_iff_toNat_le, UInt32.lt_iff_toNat_lt, hn]
    rintro ⟨-, ⟨hge, hle⟩ | hgt⟩
    · exact hsurrogate ⟨hge, hle⟩
    · have hgt : 0x10ffff < a * 4096 + t * 64 + u := hgt
      omega
  rw [utf8ToCodePoint_lead before _ skipOnError h80 hc0,
    trailLoop_more before (lead3 a :: trailByte t :: trailByte u :: rest) skipOnError ht (by simp) rfl hmore]
  exact trailLoop_last before _ skipOnError hu (by simp) rfl hlast hv hlong hvalid

theorem utf8ToCodePoint_four {a t u : Nat} (ha : a < 8) (ht : t < 64) (hu : u < 64) :
    utf8ToCodePoint (before ++ lead4 a :: trailByte t :: trailByte u :: rest) before.length skipOnError =
      fail skipOnError before.length "rdd::utf8ToCodePoint encoding length maxed out" := by
  obtain ⟨h80, hc0, hmore, hmore', -⟩ := lead4_facts ha
  rw [utf8ToCodePoint_lead before _ skipOnError h80 hc0,
    trailLoop_more before (lead4 a :: trailByte t :: trailByte u :: rest) skipOnError ht (by simp) rfl hmore,
    trailLoop_more before (lead4 a :: trailByte t :: trailByte u :: rest) skipOnError hu (by simp) rfl hmore']
  rfl

theorem utf8ToCodePoint_trail {a : Nat} (ha : a < 64) :
    ∃ message, utf8ToCodePoint (before ++ trailByte a :: rest) before.length skipOnError =
      fail skipOnError before.length message := by
  obtain ⟨hc0, -, h80⟩ := trailByte_facts ha
  have hget : (before ++ trailByte a :: rest).getD before.length 0 = trailByte a := getD_behind before (trailByte a :: rest) 0
  rw [utf8ToCodePoint, if_neg (by simp)]
  simp only [hget]
  rw [if_neg h80, if_pos (by rw [hc0]; decide)]
  exact ⟨_, rfl⟩

/-! ### The unchecked decoder on one sequence -/

theorem toNat_or_of_dvd {x y : UInt32} (k : Nat) (hx : 2 ^ k ∣ x.toNat) (hy : y.toNat < 2 ^ k) :
    (x ||| y).toNat = x.toNat + y.toNat := by
  obtain ⟨m, hm⟩ := hx
  rw [UInt32.toNat_or, hm]
  exact (Nat.two_pow_add_eq_or_of_lt hy m).symm

theorem toNat_shiftLeft_ofNat {x : UInt32} (k : Nat) (hk : k < 32) (hx : x.toNat * 2 ^ k < 2 ^ 32) :
    (x <<< UInt32.ofNat k).toNat = x.toNat * 2 ^ k := by
  rw [UInt32.toNat_shiftLeft, UInt32.toNat_ofNat', Nat.mod_eq_of_lt (show k < 2 ^ 32 by omega), Nat.mod_eq_of_lt hk,
    Nat.shiftLeft_eq, Nat.mod_eq_of_lt hx]

theorem lead_bounds {b : UInt8} (lo hi : UInt32) (hlo : lo.toNat ≤ b.toUInt32.toNat) (hhi : b.toUInt32.toNat < hi.toNat) :
    lo ≤ b.toUInt32 ∧ b.toUInt32 < hi :=
  ⟨UInt32.le_iff_toNat_le.2 hlo, UInt32.lt_iff_toNat_lt.2 hhi⟩

theorem utf8ToCodePointUnsafe_one {b : UInt8} (hb : b.toNat < 0x80) :
    utf8ToCodePointUnsafe (before ++ b :: rest) before.length = some b.toUInt32 := by
  have h0 : (before ++ b :: rest)[before.length]? = some b := getElem?_behind before _ 0
  have hlt : ¬ b.toUInt32 ≥ 0x80 := fun h => absurd (UInt32.le_iff_toNat_le.1 h) (Nat.not_le.2 (by rwa [UInt8.toNat_toUInt32]))
  simp only [utf8ToCodePointUnsafe, h0, Option.bind_eq_bind, Option.bind_some, if_neg hlt]
  rfl

theorem utf8ToCodePointUnsafe_two {a t : Nat} (ha : a < 32) (ht : t < 64) :
    utf8ToCodePointUnsafe (before ++ lead2 a :: trailByte t :: rest) before.length = some (UInt32.ofNat (a * 64 + t)) := by
  have h0 : (before ++ lead2 a :: trailByte t :: rest)[before.length]? = some (lead2 a) := getElem?_behind before _ 0
  have h1 : (before ++ lead2 a :: trailByte t :: rest)[before.length + 1]? = some (trailByte t) := getElem?_behind before _ 1
  obtain ⟨-, -, -, hlead⟩ := lead2_facts ha
  obtain ⟨-, htrail, -⟩ := trailByte_facts ht
  obtain ⟨hlo, hhi⟩ := lead_bounds (b := lead2 a) 0x80 0xe0
    (by rw [hlead]; exact Nat.le_trans (by decide) (Nat.le_add_right 192 a)) (by rw [hlead]; exact Nat.add_lt_add_left ha 192)
  have hbits : ((lead2 a).toUInt32 &&& 0x1f).toNat = a := by
    rw [UInt32.toNat_and, hlead, show UInt32.toNat 0x1f = 2 ^ 5 - 1 from rfl, Nat.and_two_pow_sub_one_eq_mod]
    omega
  have hv : ((lead2 a).toUInt32 &&& 0x1f) <<< 6 ||| (trailByte t &&& 0x3f).toUInt32 = UInt32.ofNat (a * 64 + t) := by
    apply UInt32.toNat_inj.1
    rw [toNat_shift_or (by omega) (by omega), hbits, htrail, UInt32.toNat_ofNat']
    omega
  simp only [utf8ToCodePointUnsafe, h0, h1, Option.bind_eq_bind, Option.bind_some, if_pos hlo, if_pos hhi]
  rw [hv]
  rfl

theorem utf8ToCodePointUnsafe_three {a t u : Nat} (ha : a < 16) (ht : t < 64) (hu : u < 64) :
    utf8ToCodePointUnsafe (before ++ lead3 a :: trailByte t :: trailByte u :: rest) before.length =
      some (UInt32.ofNat (a * 4096 + t * 64 + u)) := by
  have h0 : (before ++ lead3 a :: trailByte t :: trailByte u :: rest)[before.length]? = some (lead3 a) :=
    getElem?_behind before _ 0
  have h1 : (before ++ lead3 a :: trailByte t :: trailByte u :: rest)[before.length + 1]? = some (trailByte t) :=
    getElem?_behind before _ 1
  have h2 : (before ++ lead3 a :: trailByte t :: trailByte u :: rest)[before.length + 2]? = some (trailByte u) :=
    getElem?_behind before _ 2
  obtain ⟨-, -, -, -, hlead⟩ := lead3_facts ha
  obtain ⟨-, ht', -⟩ := trailByte_facts ht
  obtain ⟨-, hu', -⟩ := trailByte_facts hu
  obtain ⟨hlo, hhi⟩ := lead_bounds (b := lead3 a) 0xe0 0xf0
    (by rw [hlead]; exact Nat.le_add_right 224 a) (by rw [hlead]; exact Nat.add_lt_add_left ha 224)
  have hge : (lead3 a).toUInt32 ≥ 0x80 := UInt32.le_trans (by decide) hlo
  have hs : ((lead3 a).toUInt32 <<< 12).toNat = (224 + a) * 4096 := by
    have := toNat_shiftLeft_ofNat (x := (lead3 a).toUInt32) 12 (by omega) (by omega)
    rwa [hlead] at this
  have hst : ((trailByte t &&& 0x3f).toUInt32 <<< 6).toNat = t * 64 := by
    have := toNat_shiftLeft_ofNat (x := (trailByte t &&& 0x3f).toUInt32) 6 (by omega) (by omega)
    rwa [ht'] at this
  have hst' : ((lead3 a).toUInt32 <<< 12 ||| (trailByte t &&& 0x3f).toUInt32 <<< 6).toNat = (224 + a) * 4096 + t * 64 := by
    rw [toNat_or_of_dvd 12 (by omega) (by omega), hs, hst]
  have hv : ((lead3 a).toUInt32 <<< 12 ||| (trailByte t &&& 0x3f).toUInt32 <<< 6 ||| (trailByte u &&& 0x3f).toUInt32).toUInt16.toUInt32 =
      UInt32.ofNat (a * 4096 + t * 64 + u) := by
    apply UInt32.toNat_inj.1
    rw [UInt16.toNat_toUInt32, UInt32.toNat_toUInt16, toNat_or_of_dvd 6 (by omega) (by omega), hst', hu', UInt32.toNat_ofNat']
    omega
  simp only [utf8ToCodePointUnsafe, h0, h1, h2, Option.bind_eq_bind, Option.bind_some, if_pos hge,
    if_neg (UInt32.not_lt.2 hlo), if_pos hhi]
  rw [hv]
  rfl

theorem utf8ToCodePointUnsafe_four {a t u v : Nat} (ha : a < 8) (ht : t < 64) (hu : u < 64) (hv : v < 64) :
    utf8ToCodePointUnsafe (before ++ lead4 a :: trailByte t :: trailByte u :: trailByte v :: rest) before.length =
      some (UInt32.ofNat (a * 262144 + t * 4096 + u * 64 + v)) := by
  have h0 : (before ++ lead4 a :: trailByte t :: trailByte u :: trailByte v :: rest)[before.length]? = some (lead4 a) :=
    getElem?_behind before _ 0
  have h1 : (before ++ lead4 a :: trailByte t :: trailByte u :: trailByte v :: rest)[before.length + 1]? = some (trailByte t) :=
    getElem?_behind before _ 1
  have h2 : (before ++ lead4 a :: trailByte t :: trailByte u :: trailByte v :: rest)[before.length + 2]? = some (trailByte u) :=
    getElem?_behind before _ 2
  have h3 : (before ++ lead4 a :: trailByte t :: trailByte u :: trailByte v :: rest)[before.length + 3]? = some (trailByte v) :=
    getElem?_behind before _ 3
  obtain ⟨-, -, -, -, hlead⟩ := lead4_facts ha
  obtain ⟨-, ht', -⟩ := trailByte_facts ht
  obtain ⟨-, hu', -⟩ := trailByte_facts hu
  obtain ⟨-, hv', -⟩ := trailByte_facts hv
  have hlo : (0xf0 : UInt32) ≤ (lead4 a).toUInt32 := UInt32.le_iff_toNat_le.2 (by rw [hlead]; exact Nat.le_add_right 240 a)
  have hge : (lead4 a).toUInt32 ≥ 0x80 := UInt32.le_trans (by decide) hlo
  have hge' : (0xe0 : UInt32) ≤ (lead4 a).toUInt32 := UInt32.le_trans (by decide) hlo
  have hbits : ((lead4 a).toUInt32 &&& 7).toNat = a := by
    rw [UInt32.toNat_and, hlead, show UInt32.toNat 7 = 2 ^ 3 - 1 from rfl, Nat.and_two_pow_sub_one_eq_mod]
    omega
  have hs : (((lead4 a).toUInt32 &&& 7) <<< 18).toNat = a * 262144 := by
    have := toNat_shiftLeft_ofNat (x := (lead4 a).toUInt32 &&& 7) 18 (by omega) (by omega)
    rwa [hbits] at this
  have hst : ((trailByte t &&& 0x3f).toUInt32 <<< 12).toNat = t * 4096 := by
    have := toNat_shiftLeft_ofNat (x := (trailByte t &&& 0x3f).toUInt32) 12 (by omega) (by omega)
    rwa [ht'] at this
  have hsu : ((trailByte u &&& 0x3f).toUInt32 <<< 6).toNat = u * 64 := by
    have := toNat_shiftLeft_ofNat (x := (trailByte u &&& 0x3f).toUInt32) 6 (by omega) (by omega)
    rwa [hu'] at this
  have hst' : (((lead4 a).toUInt32 &&& 7) <<< 18 ||| (trailByte t &&& 0x3f).toUInt32 <<< 12).toNat = a * 262144 + t * 4096 := by
    rw [toNat_or_of_dvd 18 (by omega) (by omega), hs, hst]
  have hsu' : (((lead4 a).toUInt32 &&& 7) <<< 18 ||| (trailByte t &&& 0x3f).toUInt32 <<< 12 |||
      (trailByte u &&& 0x3f).toUInt32 <<< 6).toNat = a * 262144 + t * 4096 + u * 64 := by
    rw [toNat_or_of_dvd 12 (by omega) (by omega), hst', hsu]
  have hvalue : ((lead4 a).toUInt32 &&& 7) <<< 18 ||| (trailByte t &&& 0x3f).toUInt32 <<< 12 |||
      (trailByte u &&& 0x3f).toUInt32 <<< 6 ||| (trailByte v &&& 0x3f).toUInt32 =
        UInt32.ofNat (a * 262144 + t * 4096 + u * 64 + v) := by
    apply UInt32.toNat_inj.1
    rw [toNat_or_of_dvd 6 (by omega) (by omega), hsu', hv', UInt32.toNat_ofNat']
    omega
  simp only [utf8ToCodePointUnsafe, h0, h1, h2, h3, Option.bind_eq_bind, Option.bind_some, if_pos hge,
    if_neg (UInt32.not_lt.2 hge'), if_neg (UInt32.not_lt.2 hlo)]
  rw [hvalue]
  rfl

/-! ### One scalar value in a text -/

/-- The code points that the checked decoder reads. -/
def isBasic (c : Char) : Bool := c.val.toNat < 0x10000

theorem toNat_val_cases (c : Char) : c.val.toNat < 0xd800 ∨ 0xdfff < c.val.toNat ∧ c.val.toNat < 0x110000 := c.valid

theorem utf8ToCodePoint_encoded {c : Char} (hc : isBasic c = true) :
    utf8ToCodePoint (before ++ (codePointToUtf8 c.val ++ rest)) before.length skipOnError =
      .ok (c.val, before.length + (codePointToUtf8 c.val).length) := by
  have hbasic : c.val.toNat < 0x10000 := by simpa [isBasic] using hc
  have hvalid := toNat_val_cases c
  by_cases h1 : c.val.toNat < 0x80
  · have hsmall : c.val.toUInt8 &&& 0x80 = 0 := by
      have hall : ∀ n : Fin 128, UInt8.ofNat n &&& 0x80 = 0 := by decide +kernel
      exact hall ⟨c.val.toNat, h1⟩
    have hback : c.val.toUInt8.toUInt32 = c.val := by
      apply UInt32.toNat_inj.1
      rw [UInt8.toNat_toUInt32, UInt32.toNat_toUInt8]
      omega
    rw [codePointToUtf8_one h1, List.cons_append, List.nil_append, utf8ToCodePoint_one before rest skipOnError hsmall, hback]
    rfl
  · by_cases h2 : c.val.toNat < 0x800
    · rw [codePointToUtf8_two (by omega) h2]
      refine (utf8ToCodePoint_two before rest skipOnError (by omega) (by omega) (by omega)).trans ?_
      rw [show c.val.toNat / 64 * 64 + c.val.toNat % 64 = c.val.toNat by omega, UInt32.ofNat_toNat]
      rfl
    · rw [codePointToUtf8_three (by omega) hbasic]
      have hn : c.val.toNat / 4096 * 4096 + c.val.toNat / 64 % 64 * 64 + c.val.toNat % 64 = c.val.toNat := by omega
      refine (utf8ToCodePoint_three before rest skipOnError (by omega) (by omega) (by omega) (by omega) (by omega)).trans ?_
      rw [hn, UInt32.ofNat_toNat]
      rfl

theorem utf8ToCodePoint_beyond {c : Char} (hc : isBasic c = false) :
    utf8ToCodePoint (before ++ (codePointToUtf8 c.val ++ rest)) before.length skipOnError =
      fail skipOnError before.length "rdd::utf8ToCodePoint encoding length maxed out" := by
  have hbeyond : 0x10000 ≤ c.val.toNat := by simpa [isBasic] using hc
  have hvalid := toNat_val_cases c
  rw [codePointToUtf8_four hbeyond (by omega)]
  exact utf8ToCodePoint_four before _ skipOnError (by omega) (by omega) (by omega)

theorem utf8ToCodePointUnsafe_encoded (c : Char) :
    utf8ToCodePointUnsafe (before ++ (codePointToUtf8 c.val ++ rest)) before.length = some c.val := by
  have hvalid := toNat_val_cases c
  by_cases h1 : c.val.toNat < 0x80
  · have hback : c.val.toUInt8.toUInt32 = c.val := by
      apply UInt32.toNat_inj.1
      rw [UInt8.toNat_toUInt32, UInt32.toNat_toUInt8]
      omega
    rw [codePointToUtf8_one h1, List.cons_append, List.nil_append, utf8ToCodePointUnsafe_one, hback]
    rw [UInt32.toNat_toUInt8]
    omega
  by_cases h2 : c.val.toNat < 0x800
  · rw [codePointToUtf8_two (by omega) h2]
    refine (utf8ToCodePointUnsafe_two before rest (by omega) (by omega)).trans ?_
    rw [show c.val.toNat / 64 * 64 + c.val.toNat % 64 = c.val.toNat by omega, UInt32.ofNat_toNat]
  by_cases h3 : c.val.toNat < 0x10000
  · rw [codePointToUtf8_three (by omega) h3]
    refine (utf8ToCodePointUnsafe_three before rest (by omega) (by omega) (by omega)).trans ?_
    rw [show c.val.toNat / 4096 * 4096 + c.val.toNat / 64 % 64 * 64 + c.val.toNat % 64 = c.val.toNat by omega, UInt32.ofNat_toNat]
  · rw [codePointToUtf8_four (by omega) (by omega)]
    refine (utf8ToCodePointUnsafe_four before rest (by omega) (by omega) (by omega) (by omega)).trans ?_
    rw [show c.val.toNat / 262144 * 262144 + c.val.toNat / 4096 % 64 * 4096 + c.val.toNat / 64 % 64 * 64 + c.val.toNat % 64 =
      c.val.toNat by omega, UInt32.ofNat_toNat]

theorem codePointToUtf8_length_pos (c : Char) : 0 < (codePointToUtf8 c.val).length := by
  have hvalid := toNat_val_cases c
  by_cases h1 : c.val.toNat < 0x80
  · simp [codePointToUtf8_one h1]
  by_cases h2 : c.val.toNat < 0x800
  · simp [codePointToUtf8_two (Nat.not_lt.1 h1) h2]
  by_cases h3 : c.val.toNat < 0x10000
  · simp [codePointToUtf8_three (Nat.not_lt.1 h2) h3]
  · rw [codePointToUtf8_four (Nat.not_lt.1 h3) (by omega)]
    exact Nat.succ_pos _

/-! ### A whole text -/

theorem decodeAll_ok {text : List UInt8} {p : Nat} (hp : p < text.length) {r : UInt32 × Nat}
    (h : utf8ToCodePoint text p skipOnError = .ok r) :
    decodeAll text skipOnError p = (decodeAll text skipOnError r.2).map fun (cps, e) => (r.1 :: cps, e) := by
  rw [decodeAll, if_pos hp]
  split
  · next message hm => rw [h] at hm; cases hm
  · next r' hr =>
    rw [h] at hr
    cases hr
    rfl

theorem decodeAll_error {text : List UInt8} {p : Nat} (hp : p < text.length) {message : String}
    (h : utf8ToCodePoint text p skipOnError = .error message) : decodeAll text skipOnError p = .error message := by
  rw [decodeAll, if_pos hp]
  split
  · next m hm =>
    rw [h] at hm
    cases hm
    rfl
  · next r hr => rw [h] at hr; cases hr

theorem encode_cons (c : Char) (cs : List Char) : encode (c :: cs) = codePointToUtf8 c.val ++ encode cs := List.flatMap_cons

theorem decodeAll_basic {c : Char} (hc : isBasic c = true) :
    decodeAll (before ++ (codePointToUtf8 c.val ++ rest)) skipOnError before.length =
      (decodeAll (before ++ codePointToUtf8 c.val ++ rest) skipOnError (before ++ codePointToUtf8 c.val).length).map
        fun (cps, e) => (c.val :: cps, e) := by
  have hpos := codePointToUtf8_length_pos c
  rw [decodeAll_ok skipOnError (by simp only [List.length_append]; omega) (utf8ToCodePoint_encoded before rest skipOnError hc),
    List.length_append, List.append_assoc]

end Sequence

theorem decodeAll_skip (before rest : List UInt8) (b : UInt8) {message : String}
    (h : utf8ToCodePoint (before ++ b :: rest) before.length true = fail true before.length message) :
    decodeAll (before ++ b :: rest) true before.length =
      (decodeAll (before ++ [b] ++ rest) true (before ++ [b]).length).map fun (cps, e) => (0xfffd :: cps, e) := by
  rw [decodeAll_ok true (by simp) h, List.length_append, List.append_assoc]
  rfl

theorem decodeAll_beyond (before rest : List UInt8) {c : Char} (hc : isBasic c = false) :
    decodeAll (before ++ (codePointToUtf8 c.val ++ rest)) true before.length =
      (decodeAll (before ++ codePointToUtf8 c.val ++ rest) true (before ++ codePointToUtf8 c.val).length).map
        fun (cps, e) => (0xfffd :: 0xfffd :: 0xfffd :: 0xfffd :: cps, e) := by
  have hlead := utf8ToCodePoint_beyond before rest true hc
  have hbeyond : 0x10000 ≤ c.val.toNat := by simpa [isBasic] using hc
  have hvalid := toNat_val_cases c
  rw [codePointToUtf8_four hbeyond (by omega)] at hlead ⊢
  have hskip (before rest : List UInt8) (a : Nat) (ha : a < 64) :
      decodeAll (before ++ trailByte a :: rest) true before.length =
        (decodeAll (before ++ [trailByte a] ++ rest) true (before ++ [trailByte a]).length).map
          fun (cps, e) => (0xfffd :: cps, e) := by
    obtain ⟨message, hmessage⟩ := utf8ToCodePoint_trail before rest true ha
    exact decodeAll_skip before rest (trailByte a) hmessage
  simp only [List.cons_append, List.nil_append] at hlead ⊢
  rw [decodeAll_skip _ _ _ hlead, hskip _ _ _ (by omega), hskip _ _ _ (by omega), hskip _ _ _ (by omega)]
  simp only [List.append_assoc, List.cons_append, List.nil_append]
  cases decodeAll (before ++ _) true _ <;> rfl

theorem decodeAll_encode (skipOnError : Bool) (before : List UInt8) (cs : List Char) (h : ∀ c ∈ cs, isBasic c = true) :
    decodeAll (before ++ encode cs) skipOnError before.length = .ok (cs.map (·.val), (before ++ encode cs).length) := by
  induction cs generalizing before with
  | nil =>
    rw [decodeAll, if_neg (by simp [encode])]
    simp [encode]
  | cons c cs ih =>
    obtain ⟨hc, hcs⟩ := List.forall_mem_cons.1 h
    rw [encode_cons, decodeAll_basic before (encode cs) skipOnError hc, ih _ hcs, List.append_assoc]
    rfl

theorem length_decodeAll_skip (before : List UInt8) (cs : List Char) :
    ∃ cps e, decodeAll (before ++ encode cs) true before.length = .ok (cps, e) ∧
      cps.length = cs.length + 3 * cs.countP fun c => !isBasic c := by
  induction cs generalizing before with
  | nil =>
    refine ⟨[], before.length, ?_, rfl⟩
    rw [decodeAll, if_neg (by simp [encode])]
  | cons c cs ih =>
    obtain ⟨cps, e, hdecode, hlen⟩ := ih (before ++ codePointToUtf8 c.val)
    rw [encode_cons]
    cases hc : isBasic c with
    | true =>
      refine ⟨c.val :: cps, e, ?_, ?_⟩
      · rw [decodeAll_basic before (encode cs) true hc, hdecode]
        rfl
      · rw [List.countP_cons_of_neg (by simp [hc]), List.length_cons, List.length_cons, hlen]
        omega
    | false =>
      refine ⟨0xfffd :: 0xfffd :: 0xfffd :: 0xfffd :: cps, e, ?_, ?_⟩
      · rw [decodeAll_beyond before (encode cs) hc, hdecode]
        rfl
      · rw [List.countP_cons_of_pos (by simp [hc])]
        simp only [List.length_cons, hlen]
        omega

theorem decodeAll_encode_throws (before : List UInt8) (cs : List Char) (h : ∃ c ∈ cs, isBasic c = false) :
    ∃ message, decodeAll (before ++ encode cs) false before.length = .error message := by
  induction cs generalizing before with
  | nil =>
    obtain ⟨c, hmem, -⟩ := h
    cases hmem
  | cons c cs ih =>
    rw [encode_cons]
    cases hc : isBasic c with
    | true =>
      have hcs : ∃ c ∈ cs, isBasic c = false := by
        obtain ⟨c', hmem, hc'⟩ := h
        obtain rfl | hmem := List.mem_cons.1 hmem
        · rw [hc] at hc'
          cases hc'
        · exact ⟨c', hmem, hc'⟩
      obtain ⟨message, hmessage⟩ := ih (before ++ codePointToUtf8 c.val) hcs
      rw [decodeAll_basic before (encode cs) false hc, hmessage]
      exact ⟨message, rfl⟩
    | false =>
      have hpos := codePointToUtf8_length_pos c
      exact ⟨_, decodeAll_error false (by simp only [List.length_append]; omega)
        (utf8ToCodePoint_beyond before (encode cs) false hc)⟩

/-! ### The round trip -/

/-- Where the `k`-th code point of a text starts. -/
def boundary (cs : List Char) (k : Nat) : Nat := (encode (cs.take k)).length

theorem encode_append (cs ds : List Char) : encode (cs ++ ds) = encode cs ++ encode ds := List.flatMap_append

theorem encode_eq_at {cs : List Char} {k : Nat} (hk : k < cs.length) :
    encode cs = encode (cs.take k) ++ (codePointToUtf8 cs[k].val ++ encode (cs.drop (k + 1))) := by
  rw [← encode_cons, ← encode_append, ← List.drop_eq_getElem_cons, List.take_append_drop]

/-- The text of `cs` is read back: repeated decoding gives the list and stops at the end, and the unchecked
decoder agrees with the checked one at each code point. -/
structure RoundTrip (skipOnError : Bool) (cs : List Char) : Prop where
  decoded : decodeAll (encode cs) skipOnError 0 = .ok (cs.map (·.val), (encode cs).length)
  agree : ∀ k < cs.length, ∃ cp p', utf8ToCodePoint (encode cs) (boundary cs k) skipOnError = .ok (cp, p') ∧
    utf8ToCodePointUnsafe (encode cs) (boundary cs k) = some cp

/-- **A text is read back if and only if its code points are of the basic plane.** The loop of `utf8ToCodePoint` ends before
the third trail byte, so that no sequence of four bytes is read. -/
theorem roundTrip_iff (skipOnError : Bool) (cs : List Char) : RoundTrip skipOnError cs ↔ ∀ c ∈ cs, c.val.toNat < 0x10000 := by
  have hbasic : (∀ c ∈ cs, c.val.toNat < 0x10000) ↔ ∀ c ∈ cs, isBasic c = true := by
    simp [isBasic]
  rw [hbasic]
  refine ⟨fun h => ?_, fun h => ⟨?_, fun k hk => ?_⟩⟩
  · by_contra hbeyond
    have hbeyond : ∃ c ∈ cs, isBasic c = false := by simpa using hbeyond
    cases skipOnError with
    | false =>
      obtain ⟨message, hmessage⟩ := decodeAll_encode_throws [] cs hbeyond
      have := h.decoded.symm.trans hmessage
      cases this
    | true =>
      obtain ⟨cps, e, hdecode, hlen⟩ := length_decodeAll_skip [] cs
      have heq := h.decoded.symm.trans hdecode
      cases heq
      have hcount : 0 < cs.countP fun c => !isBasic c := by
        obtain ⟨c, hmem, hc⟩ := hbeyond
        exact List.countP_pos_iff.2 ⟨c, hmem, by simp [hc]⟩
      rw [List.length_map] at hlen
      omega
  · simpa using decodeAll_encode skipOnError [] cs h
  · refine ⟨cs[k].val, boundary cs k + (codePointToUtf8 cs[k].val).length, ?_, ?_⟩
    · rw [boundary, encode_eq_at hk]
      exact utf8ToCodePoint_encoded _ _ skipOnError (h _ (List.getElem_mem hk))
    · rw [boundary, encode_eq_at hk]
      exact utf8ToCodePointUnsafe_encoded _ _ _

/-- `U+10000` is not read back. -/
theorem first_beyond_not_roundTrip : ¬ RoundTrip true [Char.ofNat 0x10000] := by
  intro h
  obtain ⟨cps, e, hdecode, hlen⟩ := length_decodeAll_skip [] [Char.ofNat 0x10000]
  cases h.decoded.symm.trans hdecode
  revert hlen
  decide

end Raster.Utf8
