import Mathlib.Algebra.Group.Nat.Defs
import Mathlib.Data.List.TakeWhile
import Mathlib.Tactic.SplitIfs

/-!
# Base64

`raster/util/Base64-inl.h`. Both directions shift their input into an `unsigned int`, which keeps the bits of what came
before, and take groups of bits out of it. The output is a string that is resized first and then filled from its start.
-/

namespace Raster

inductive Base64EncodeMode
  | common
  | uri
  deriving DecidableEq, Repr

namespace Base64

/-! ### The output string -/

/-- A string that is being filled: the bytes before the index `j`, and those from `j` on. -/
structure Output where
  written : List UInt8
  ahead : List UInt8
  deriving DecidableEq, Repr

namespace Output

/-- `output.resize(n)`, and `j` is `0`. -/
def resize (output : List UInt8) (n : Nat) : Output := ⟨[], output.take n ++ List.replicate (n - output.length) 0⟩

/-- `output[j++] = c`, or `none` if `j` is not inside of the string. -/
def put (o : Output) (c : UInt8) : Option Output :=
  match o.ahead with
  | [] => none
  | _ :: ahead => some ⟨o.written ++ [c], ahead⟩

/-- Bytes one after the other. -/
def putAll : List UInt8 → Output → Option Output
  | [], o => some o
  | c :: cs, o => (o.put c).bind (putAll cs)

theorem length_ahead_resize (output : List UInt8) (n : Nat) : (resize output n).ahead.length = n := by
  simp only [resize, List.length_append, List.length_take, List.length_replicate]
  omega

theorem putAll_eq_some (cs : List UInt8) (o : Output) (h : cs.length ≤ o.ahead.length) :
    putAll cs o = some ⟨o.written ++ cs, o.ahead.drop cs.length⟩ := by
  induction cs generalizing o with
  | nil => simp [putAll]
  | cons c cs ih =>
    obtain ⟨written, ahead⟩ := o
    cases ahead with
    | nil => simp at h
    | cons b ahead =>
      have hroom : cs.length ≤ ahead.length := by simpa using h
      rw [putAll]
      refine (ih ⟨written ++ [c], ahead⟩ hroom).trans ?_
      simp

end Output

/-! ### The encoder -/

def kBase64EncTable : List Char :=
  ['A', 'B', 'C', 'D', 'E', 'F', 'G', 'H', 'I', 'J', 'K', 'L', 'M', 'N', 'O', 'P', 'Q', 'R', 'S', 'T', 'U', 'V', 'W', 'X', 'Y', 'Z',
   'a', 'b', 'c', 'd', 'e', 'f', 'g', 'h', 'i', 'j', 'k', 'l', 'm', 'n', 'o', 'p', 'q', 'r', 's', 't', 'u', 'v', 'w', 'x', 'y', 'z',
   '0', '1', '2', '3', '4', '5', '6', '7', '8', '9']

def kPad : UInt8 := 0x3d

/-- The byte of a character. -/
def byte (c : Char) : UInt8 := UInt8.ofNat c.toNat

/-- The lambda `encode`. The table ends with a `NUL`. -/
def encode (mode : Base64EncodeMode) (i : UInt32) : UInt8 :=
  if i = 0x3e then byte (if mode = .uri then '-' else '+')
  else if i = 0x3f then byte (if mode = .uri then '_' else '/')
  else ((kBase64EncTable.map byte).getD i.toNat 0)

/-- The inner loop: the groups of six bits that are ready. -/
def encodeGroups (mode : Base64EncodeMode) (leftchar : UInt32) : Nat → Output → Option (Nat × Output)
  | leftbits + 6, o =>
    (o.put (encode mode ((leftchar >>> UInt32.ofNat leftbits) &&& 0x3f))).bind (encodeGroups mode leftchar leftbits)
  | leftbits, o => some (leftbits, o)

/-- The outer loop, and what is left behind it. -/
def encodeLoop (mode : Base64EncodeMode) : List UInt8 → UInt32 → Nat → Output → Option Output
  | [], leftchar, leftbits, o =>
    if leftbits = 2 then o.putAll [encode mode ((leftchar &&& 0x3) <<< 4), kPad, kPad]
    else if leftbits = 4 then o.putAll [encode mode ((leftchar &&& 0xf) <<< 2), kPad]
    else some o
  | c :: input, leftchar, leftbits, o =>
    let leftchar := (leftchar <<< 8) ||| c.toUInt32
    (encodeGroups mode leftchar (leftbits + 8) o).bind fun (leftbits, o) => encodeLoop mode input leftchar leftbits o

def base64Encode (input output : List UInt8) (mode : Base64EncodeMode) : Option (Bool × Output) :=
  (encodeLoop mode input 0 0 (.resize output ((input.length + 2) / 3 * 4))).map fun o => (true, o)

/-! ### The decoder -/

/-- One table for both alphabets. -/
def kBase64DecTable : List Int8 :=
  [-1,-1,-1,-1, -1,-1,-1,-1, -1,-1,-1,-1, -1,-1,-1,-1,
   -1,-1,-1,-1, -1,-1,-1,-1, -1,-1,-1,-1, -1,-1,-1,-1,
   -1,-1,-1,-1, -1,-1,-1,-1, -1,-1,-1,62, -1,62,-1,63,
   52,53,54,55, 56,57,58,59, 60,61,-1,-1, -1, 0,-1,-1,
   -1, 0, 1, 2,  3, 4, 5, 6,  7, 8, 9,10, 11,12,13,14,
   15,16,17,18, 19,20,21,22, 23,24,25,-1, -1,-1,-1,63,
   -1,26,27,28, 29,30,31,32, 33,34,35,36, 37,38,39,40,
   41,42,43,44, 45,46,47,48, 49,50,51,-1, -1,-1,-1,-1]

/-- The lambda `decode`, for bytes below `0x80`. -/
def decode (c : UInt8) : UInt8 := (kBase64DecTable.getD c.toNat 0).toUInt8

/-- The inner loop: the bytes that are ready. -/
def decodeBytes (value : UInt32) : Nat → Output → Option (Nat × Output)
  | bits + 8, o => (o.put ((value >>> UInt32.ofNat bits) &&& 0xff).toUInt8).bind (decodeBytes value bits)
  | bits, o => some (bits, o)

/-- The outer loop. -/
def decodeLoop : List UInt8 → UInt32 → Nat → Output → Option (Nat × Output)
  | [], _, bits, o => some (bits, o)
  | c :: input, value, bits, o =>
    if 0x7f < c then decodeLoop input value bits o
    else if c = kPad then some (0, o)
    else if decode c = 0xff then decodeLoop input value bits o
    else
      let value := (value <<< 6) ||| (decode c).toUInt32
      (decodeBytes value (bits + 6) o).bind fun (bits, o) => decodeLoop input value bits o

/-- The value that is returned and the string, which is resized to the bytes that were written. The mode is not used. -/
def base64Decode (input output : List UInt8) (_mode : Base64EncodeMode) : Option (Bool × List UInt8) :=
  (decodeLoop input 0 0 (.resize output ((input.length + 3) / 4 * 3))).map fun (bits, o) => (bits == 0, o.written)

/-! ### Groups of six bits -/

/-- The groups of six bits of a byte string; the last one is filled up with zeros. -/
def sextets : List UInt8 → List Nat
  | a :: b :: c :: x =>
    [a.toNat / 4, a.toNat % 4 * 16 + b.toNat / 16, b.toNat % 16 * 4 + c.toNat / 64, c.toNat % 64] ++ sextets x
  | [a, b] => [a.toNat / 4, a.toNat % 4 * 16 + b.toNat / 16, b.toNat % 16 * 4]
  | [a] => [a.toNat / 4, a.toNat % 4 * 16]
  | [] => []

/-- The character of a group. -/
def letter (mode : Base64EncodeMode) (v : Nat) : UInt8 := encode mode (UInt32.ofNat v)

def letters (mode : Base64EncodeMode) (x : List UInt8) : List UInt8 := (sextets x).map (letter mode)

def padding (x : List UInt8) : List UInt8 := List.replicate ((3 - x.length % 3) % 3) kPad

theorem toNat_shiftIn (k : Nat) (hk : k < 32) {v d : UInt32} (hd : d.toNat < 2 ^ k) :
    ((v <<< UInt32.ofNat k) ||| d).toNat = (v.toNat * 2 ^ k + d.toNat) % 2 ^ 32 := by
  have hshift : (UInt32.ofNat k).toNat % 32 = k := by
    rw [UInt32.toNat_ofNat', Nat.mod_eq_of_lt (show k < 2 ^ 32 by omega), Nat.mod_eq_of_lt hk]
  have hpow : 2 ^ 32 = 2 ^ (32 - k) * 2 ^ k := by
    rw [← Nat.pow_add]
    congr 1
    omega
  have hlow : v.toNat % 2 ^ (32 - k) < 2 ^ (32 - k) := Nat.mod_lt _ (Nat.two_pow_pos _)
  have hsum : v.toNat % 2 ^ (32 - k) * 2 ^ k + d.toNat < 2 ^ 32 := by
    rw [hpow]
    calc v.toNat % 2 ^ (32 - k) * 2 ^ k + d.toNat < v.toNat % 2 ^ (32 - k) * 2 ^ k + 2 ^ k := Nat.add_lt_add_left hd _
      _ = (v.toNat % 2 ^ (32 - k) + 1) * 2 ^ k := (Nat.succ_mul _ _).symm
      _ ≤ 2 ^ (32 - k) * 2 ^ k := Nat.mul_le_mul_right _ hlow
  have hmul : v.toNat * 2 ^ k % 2 ^ 32 = v.toNat % 2 ^ (32 - k) * 2 ^ k := by
    rw [hpow, Nat.mul_mod_mul_right]
  rw [UInt32.toNat_or, UInt32.toNat_shiftLeft, hshift, Nat.shiftLeft_eq, hmul, ← Nat.shiftLeft_eq,
    ← Nat.shiftLeft_add_eq_or_of_lt hd, Nat.shiftLeft_eq, Nat.add_mod, hmul,
    Nat.mod_eq_of_lt (Nat.lt_of_le_of_lt (Nat.le_add_left _ _) hsum),
    Nat.mod_eq_of_lt hsum]

theorem toNat_takeOut (k : Nat) (hk : k < 32) (v : UInt32) {m : UInt32} {w : Nat} (hm : m.toNat = 2 ^ w - 1) :
    ((v >>> UInt32.ofNat k) &&& m).toNat = v.toNat / 2 ^ k % 2 ^ w := by
  have hshift : (UInt32.ofNat k).toNat % 32 = k := by
    rw [UInt32.toNat_ofNat', Nat.mod_eq_of_lt (show k < 2 ^ 32 by omega), Nat.mod_eq_of_lt hk]
  rw [UInt32.toNat_and, UInt32.toNat_shiftRight, hshift, hm, Nat.shiftRight_eq_div_pow, Nat.and_two_pow_sub_one_eq_mod]

/-! ### The encoder writes the groups -/

section encoder

variable {mode : Base64EncodeMode}

/-- A byte is shifted in behind the bits that are left. -/
def pushByte (leftchar : UInt32) (c : UInt8) : UInt32 := (leftchar <<< 8) ||| c.toUInt32

theorem toNat_pushByte (leftchar : UInt32) (c : UInt8) :
    (pushByte leftchar c).toNat = (leftchar.toNat * 256 + c.toNat) % 2 ^ 32 :=
  toNat_shiftIn 8 (by decide) (c.toNat_lt)

theorem group_eq (leftchar : UInt32) (k : Nat) (hk : k < 32) {v : Nat} (hv : leftchar.toNat / 2 ^ k % 64 = v) :
    (leftchar >>> UInt32.ofNat k) &&& 0x3f = UInt32.ofNat v := by
  rw [← UInt32.toNat_inj, toNat_takeOut k hk leftchar (show (0x3f : UInt32).toNat = 2 ^ 6 - 1 from rfl), UInt32.toNat_ofNat']
  omega

theorem encodeLoop_none (input : List UInt8) (leftchar : UInt32) (c : UInt8) :
    encodeLoop mode (c :: input) leftchar 0 = fun o =>
      (o.put (letter mode (c.toNat / 4))).bind (encodeLoop mode input (pushByte leftchar c) 2) := by
  have hgroup : (pushByte leftchar c >>> UInt32.ofNat 2) &&& 0x3f = UInt32.ofNat (c.toNat / 4) := by
    have hc := c.toNat_lt
    refine group_eq _ 2 (by decide) ?_
    rw [toNat_pushByte]
    omega
  funext o
  rw [letter, ← hgroup]
  show ((o.put _).bind fun o => some (2, o)).bind _ = _
  rw [Option.bind_assoc]
  rfl

theorem encodeLoop_two (input : List UInt8) (leftchar : UInt32) (c : UInt8) :
    encodeLoop mode (c :: input) leftchar 2 = fun o =>
      (o.put (letter mode (leftchar.toNat % 4 * 16 + c.toNat / 16))).bind (encodeLoop mode input (pushByte leftchar c) 4) := by
  have hgroup : (pushByte leftchar c >>> UInt32.ofNat 4) &&& 0x3f = UInt32.ofNat (leftchar.toNat % 4 * 16 + c.toNat / 16) := by
    have hc := c.toNat_lt
    refine group_eq _ 4 (by decide) ?_
    rw [toNat_pushByte]
    omega
  funext o
  rw [letter, ← hgroup]
  show ((o.put _).bind fun o => some (4, o)).bind _ = _
  rw [Option.bind_assoc]
  rfl

theorem encodeLoop_four (input : List UInt8) (leftchar : UInt32) (c : UInt8) :
    encodeLoop mode (c :: input) leftchar 4 = fun o =>
      (o.put (letter mode (leftchar.toNat % 16 * 4 + c.toNat / 64))).bind fun o =>
        (o.put (letter mode (c.toNat % 64))).bind (encodeLoop mode input (pushByte leftchar c) 0) := by
  have hgroup : (pushByte leftchar c >>> UInt32.ofNat 6) &&& 0x3f = UInt32.ofNat (leftchar.toNat % 16 * 4 + c.toNat / 64) := by
    have hc := c.toNat_lt
    refine group_eq _ 6 (by decide) ?_
    rw [toNat_pushByte]
    omega
  have hlast : (pushByte leftchar c >>> UInt32.ofNat 0) &&& 0x3f = UInt32.ofNat (c.toNat % 64) := by
    have hc := c.toNat_lt
    refine group_eq _ 0 (by decide) ?_
    rw [toNat_pushByte]
    omega
  funext o
  rw [letter, letter, ← hgroup, ← hlast]
  show ((o.put _).bind fun o => (o.put _).bind fun o => some (0, o)).bind _ = _
  rw [Option.bind_assoc]
  refine congrArg _ (funext fun o => ?_)
  rw [Option.bind_assoc]
  rfl

theorem encodeLoop_nil_two (leftchar : UInt32) :
    encodeLoop mode [] leftchar 2 = Output.putAll [letter mode (leftchar.toNat % 4 * 16), kPad, kPad] := by
  have hand : (leftchar &&& 0x3).toNat = leftchar.toNat % 4 := by
    rw [UInt32.toNat_and]
    exact Nat.and_two_pow_sub_one_eq_mod leftchar.toNat 2
  have hrest : (leftchar &&& 0x3) <<< 4 = UInt32.ofNat (leftchar.toNat % 4 * 16) := by
    rw [← UInt32.toNat_inj, UInt32.toNat_shiftLeft, hand, UInt32.toNat_ofNat', Nat.shiftLeft_eq]
    rfl
  rw [letter, ← hrest]
  rfl

theorem encodeLoop_nil_four (leftchar : UInt32) :
    encodeLoop mode [] leftchar 4 = Output.putAll [letter mode (leftchar.toNat % 16 * 4), kPad] := by
  have hand : (leftchar &&& 0xf).toNat = leftchar.toNat % 16 := by
    rw [UInt32.toNat_and]
    exact Nat.and_two_pow_sub_one_eq_mod leftchar.toNat 4
  have hrest : (leftchar &&& 0xf) <<< 2 = UInt32.ofNat (leftchar.toNat % 16 * 4) := by
    rw [← UInt32.toNat_inj, UInt32.toNat_shiftLeft, hand, UInt32.toNat_ofNat', Nat.shiftLeft_eq]
    rfl
  rw [letter, ← hrest]
  rfl

theorem pushByte_mod_four (leftchar : UInt32) (c : UInt8) : (pushByte leftchar c).toNat % 4 = c.toNat % 4 := by
  rw [toNat_pushByte]
  omega

theorem pushByte_mod_sixteen (leftchar : UInt32) (c : UInt8) : (pushByte leftchar c).toNat % 16 = c.toNat % 16 := by
  rw [toNat_pushByte]
  omega

theorem encodeLoop_eq (x : List UInt8) (leftchar : UInt32) :
    encodeLoop mode x leftchar 0 = Output.putAll (letters mode x ++ padding x) := by
  induction x using sextets.induct generalizing leftchar with
  | case1 a b c x ih =>
    have hpad : padding (a :: b :: c :: x) = padding x := by
      simp only [padding, List.length_cons]
      congr 2
      omega
    simp only [encodeLoop_none, encodeLoop_two, encodeLoop_four, ih, pushByte_mod_four, pushByte_mod_sixteen, hpad]
    rfl
  | case2 a b =>
    simp only [encodeLoop_none, encodeLoop_two, encodeLoop_nil_four, pushByte_mod_four, pushByte_mod_sixteen]
    rfl
  | case3 a =>
    simp only [encodeLoop_none, encodeLoop_nil_two, pushByte_mod_four]
    rfl
  | case4 => rfl

end encoder

/-! ### The decoder on letters -/

/-- A group is shifted in behind the bits that are left. -/
def pushGroup (value : UInt32) (c : UInt8) : UInt32 := (value <<< 6) ||| c.toUInt32

theorem toNat_pushGroup (value : UInt32) {c : UInt8} (hc : c.toNat < 64) :
    (pushGroup value c).toNat = (value.toNat * 64 + c.toNat) % 2 ^ 32 :=
  toNat_shiftIn 6 (by decide) hc

/-- What the decoder writes, and the bits that are left. -/
def decoded : List UInt8 → UInt32 → Nat → List UInt8 × Nat
  | [], _, bits => ([], bits)
  | c :: input, value, bits =>
    if 0x7f < c then decoded input value bits
    else if c = kPad then ([], 0)
    else if decode c = 0xff then decoded input value bits
    else if bits + 6 < 8 then decoded input (pushGroup value (decode c)) (bits + 6)
    else
      let rest := decoded input (pushGroup value (decode c)) (bits - 2)
      (((pushGroup value (decode c) >>> UInt32.ofNat (bits - 2)) &&& 0xff).toUInt8 :: rest.1, rest.2)

theorem decodeBytes_of_lt (value : UInt32) {bits : Nat} (h : bits < 8) : decodeBytes value bits = fun o => some (bits, o) := by
  funext o
  rw [decodeBytes]
  intro n hn
  omega

theorem decodeBytes_of_ge (value : UInt32) {bits : Nat} (hlt : bits < 8) (h : ¬ bits + 6 < 8) (o : Output) :
    decodeBytes value (bits + 6) o =
      (o.put ((value >>> UInt32.ofNat (bits - 2)) &&& 0xff).toUInt8).map fun o => (bits - 2, o) := by
  obtain ⟨n, rfl⟩ : ∃ n, bits = n + 2 := ⟨bits - 2, by omega⟩
  rw [show n + 2 + 6 = n + 8 from rfl, decodeBytes, decodeBytes_of_lt value (show n < 8 by omega), Nat.add_sub_cancel]
  cases o.put _ <;> rfl

theorem decodeLoop_eq (input : List UInt8) (value : UInt32) {bits : Nat} (hbits : bits < 8) (o : Output) :
    decodeLoop input value bits o =
      (o.putAll (decoded input value bits).1).map fun o => ((decoded input value bits).2, o) := by
  induction input generalizing value bits o with
  | nil => rfl
  | cons c input ih =>
    rw [decodeLoop, decoded]
    split_ifs with hhigh hpad hskip hmore
    · exact ih value hbits o
    · rfl
    · exact ih value hbits o
    · dsimp only
      rw [decodeBytes_of_lt _ hmore]
      exact ih _ hmore o
    · have hpush : (value <<< 6) ||| (decode c).toUInt32 = pushGroup value (decode c) := rfl
      dsimp only
      rw [hpush, decodeBytes_of_ge _ hbits hmore, Output.putAll]
      cases hput : o.put _ with
      | none => rfl
      | some o' => exact ih _ (show bits - 2 < 8 by omega) o'

theorem length_decoded (input : List UInt8) (value : UInt32) {bits : Nat} (hbits : bits < 8) :
    8 * (decoded input value bits).1.length ≤ bits + 6 * input.length := by
  induction input generalizing value bits with
  | nil => simp [decoded]
  | cons c input ih =>
    rw [decoded, List.length_cons]
    split_ifs with hhigh hpad hskip hmore
    · have := ih value hbits
      omega
    · simp
    · have := ih value hbits
      omega
    · have := ih (pushGroup value (decode c)) hmore
      omega
    · have := ih (pushGroup value (decode c)) (show bits - 2 < 8 by omega)
      rw [List.length_cons]
      omega

/-- The bytes of both alphabets. -/
def inAlphabet (c : UInt8) : Bool := ((kBase64EncTable ++ ['+', '/', '-', '_']).map byte).contains c

theorem skipped_of_not_inAlphabet (c : UInt8) (h : inAlphabet c = false) (hpad : c ≠ kPad) : 0x7f < c ∨ decode c = 0xff := by
  have hall : ∀ n : Fin 256, inAlphabet (UInt8.ofNat n) = false → UInt8.ofNat n ≠ kPad →
      0x7f < UInt8.ofNat n ∨ decode (UInt8.ofNat n) = 0xff := by decide +kernel
  have hc := hall ⟨c.toNat, c.toNat_lt⟩
  rw [UInt8.ofNat_toNat] at hc
  exact hc h hpad

theorem letter_spec (mode : Base64EncodeMode) {v : Nat} (hv : v < 64) :
    ¬ 0x7f < letter mode v ∧ letter mode v ≠ kPad ∧ decode (letter mode v) = UInt8.ofNat v ∧ UInt8.ofNat v ≠ 0xff ∧
      inAlphabet (letter mode v) = true := by
  have hall : ∀ n : Fin 64, ∀ mode : Bool, ¬ 0x7f < letter (if mode then .uri else .common) n ∧
      letter (if mode then .uri else .common) n ≠ kPad ∧
      decode (letter (if mode then .uri else .common) n) = UInt8.ofNat n ∧ UInt8.ofNat n ≠ 0xff ∧
      inAlphabet (letter (if mode then .uri else .common) n) = true := by decide +kernel
  cases mode with
  | common => exact hall ⟨v, hv⟩ false
  | uri => exact hall ⟨v, hv⟩ true

theorem sextets_lt (x : List UInt8) : ∀ v ∈ sextets x, v < 64 := by
  induction x using sextets.induct with
  | case1 a b c x ih =>
    have ha := a.toNat_lt
    have hb := b.toNat_lt
    have hc := c.toNat_lt
    intro v hv
    rw [sextets, List.mem_append] at hv
    rcases hv with hv | hv
    · simp only [List.mem_cons, List.not_mem_nil, or_false] at hv
      omega
    · exact ih v hv
  | case2 a b =>
    have ha := a.toNat_lt
    have hb := b.toNat_lt
    intro v hv
    simp only [sextets, List.mem_cons, List.not_mem_nil, or_false] at hv
    omega
  | case3 a =>
    have ha := a.toNat_lt
    intro v hv
    simp only [sextets, List.mem_cons, List.not_mem_nil, or_false] at hv
    omega
  | case4 => exact fun v hv => absurd hv List.not_mem_nil

section letters

variable {mode : Base64EncodeMode} {v : Nat} {input : List UInt8} {value : UInt32}

theorem decoded_none (hv : v < 64) :
    decoded (letter mode v :: input) value 0 = decoded input (pushGroup value (UInt8.ofNat v)) 6 := by
  obtain ⟨hlow, hpad, hdecode, hdata, -⟩ := letter_spec mode hv
  rw [decoded, if_neg hlow, if_neg hpad, hdecode, if_neg hdata, if_pos (by decide)]

theorem decoded_ready {bits : Nat} {b : UInt8} (hv : v < 64) (hbits : bits + 2 < 8)
    (hb : (value.toNat * 64 + v) % 2 ^ 32 / 2 ^ bits % 256 = b.toNat) :
    decoded (letter mode v :: input) value (bits + 2) =
      (b :: (decoded input (pushGroup value (UInt8.ofNat v)) bits).1,
        (decoded input (pushGroup value (UInt8.ofNat v)) bits).2) := by
  obtain ⟨hlow, hpad, hdecode, hdata, -⟩ := letter_spec mode hv
  have hnat : (UInt8.ofNat v).toNat = v := by
    rw [UInt8.toNat_ofNat', Nat.mod_eq_of_lt (by omega)]
  have hbyte : ((pushGroup value (UInt8.ofNat v) >>> UInt32.ofNat bits) &&& 0xff).toUInt8 = b := by
    have hout := toNat_takeOut bits (by omega) (pushGroup value (UInt8.ofNat v)) (show (0xff : UInt32).toNat = 2 ^ 8 - 1 from rfl)
    rw [toNat_pushGroup value (by omega), hnat] at hout
    rw [← UInt8.toNat_inj, UInt32.toNat_toUInt8, hout]
    omega
  rw [decoded, if_neg hlow, if_neg hpad, hdecode, if_neg hdata, if_neg (by omega), Nat.add_sub_cancel, hbyte]

theorem toNat_pushGroup_ofNat (value : UInt32) (hv : v < 64) :
    (pushGroup value (UInt8.ofNat v)).toNat = (value.toNat * 64 + v) % 2 ^ 32 := by
  have hnat : (UInt8.ofNat v).toNat = v := by
    rw [UInt8.toNat_ofNat', Nat.mod_eq_of_lt (by omega)]
  rw [toNat_pushGroup value (by omega), hnat]

theorem decoded_pad (input : List UInt8) (value : UInt32) (bits : Nat) : decoded (kPad :: input) value bits = ([], 0) := by
  rw [decoded, if_neg (by decide), if_pos rfl]

theorem decoded_letters (x : List UInt8) (value : UInt32) : decoded (letters mode x ++ padding x) value 0 = (x, 0) := by
  induction x using sextets.induct generalizing value with
  | case1 a b c x ih =>
    have ha := a.toNat_lt
    have hb := b.toNat_lt
    have hc := c.toNat_lt
    have hpad : padding (a :: b :: c :: x) = padding x := by
      simp only [padding, List.length_cons]
      congr 2
      omega
    rw [hpad]
    show decoded (letter mode _ :: letter mode _ :: letter mode _ :: letter mode _ :: (letters mode x ++ padding x)) value 0 = _
    rw [decoded_none (by omega), @decoded_ready mode _ _ _ 4 a (by omega) (by decide) ?_,
      @decoded_ready mode _ _ _ 2 b (by omega) (by decide) ?_, @decoded_ready mode _ _ _ 0 c (by omega) (by decide) ?_, ih]
    all_goals
      simp only [toNat_pushGroup_ofNat _ (show a.toNat / 4 < 64 by omega),
        toNat_pushGroup_ofNat _ (show a.toNat % 4 * 16 + b.toNat / 16 < 64 by omega),
        toNat_pushGroup_ofNat _ (show b.toNat % 16 * 4 + c.toNat / 64 < 64 by omega)]
      omega
  | case2 a b =>
    have ha := a.toNat_lt
    have hb := b.toNat_lt
    show decoded (letter mode _ :: letter mode _ :: letter mode _ :: [kPad]) value 0 = _
    rw [decoded_none (by omega), @decoded_ready mode _ _ _ 4 a (by omega) (by decide) ?_,
      @decoded_ready mode _ _ _ 2 b (by omega) (by decide) ?_, decoded_pad]
    all_goals
      simp only [toNat_pushGroup_ofNat _ (show a.toNat / 4 < 64 by omega),
        toNat_pushGroup_ofNat _ (show a.toNat % 4 * 16 + b.toNat / 16 < 64 by omega)]
      omega
  | case3 a =>
    have ha := a.toNat_lt
    show decoded (letter mode _ :: letter mode _ :: [kPad, kPad]) value 0 = _
    rw [decoded_none (by omega), @decoded_ready mode _ _ _ 4 a (by omega) (by decide) ?_, decoded_pad]
    rw [toNat_pushGroup_ofNat _ (show a.toNat / 4 < 64 by omega)]
    omega
  | case4 => rfl

theorem decoded_filter (body input : List UInt8) (hbody : kPad ∉ body) (value : UInt32) (bits : Nat) :
    decoded (body ++ input) value bits = decoded (body.filter inAlphabet ++ input) value bits := by
  induction body generalizing value bits with
  | nil => rfl
  | cons c body ih =>
    have ih := fun value bits => ih (fun hmem => hbody (List.mem_cons_of_mem _ hmem)) value bits
    have hpad : c ≠ kPad := fun h => hbody (h ▸ List.mem_cons_self)
    cases hc : inAlphabet c with
    | true =>
      rw [List.filter_cons_of_pos hc, List.cons_append, List.cons_append, decoded, decoded]
      simp only [ih]
    | false =>
      rw [List.filter_cons_of_neg (by rw [hc]; decide), List.cons_append, decoded]
      rcases skipped_of_not_inAlphabet c hc hpad with hskip | hskip
      · rw [if_pos hskip, ih]
      · rw [if_neg hpad, if_pos hskip, ih, ite_self]

end letters

/-! ### The round trip -/

theorem length_sextets (x : List UInt8) : (sextets x).length + (3 - x.length % 3) % 3 = (x.length + 2) / 3 * 4 := by
  induction x using sextets.induct with
  | case1 a b c x ih =>
    simp only [sextets, List.length_append, List.length_cons, List.length_nil]
    omega
  | case2 a b => simp [sextets]
  | case3 a => simp [sextets]
  | case4 => rfl

theorem mem_letters {mode : Base64EncodeMode} {x : List UInt8} {c : UInt8} (hc : c ∈ letters mode x) :
    c ≠ kPad ∧ inAlphabet c = true := by
  obtain ⟨v, hv, rfl⟩ := List.mem_map.mp hc
  obtain ⟨-, hpad, -, -, halphabet⟩ := letter_spec mode (sextets_lt x v hv)
  exact ⟨hpad, halphabet⟩

theorem base64Encode_eq (x output : List UInt8) (mode : Base64EncodeMode) :
    base64Encode x output mode = some (true, ⟨letters mode x ++ padding x, []⟩) := by
  have hlen : (letters mode x ++ padding x).length = (x.length + 2) / 3 * 4 := by
    rw [List.length_append, letters, List.length_map, padding, List.length_replicate, length_sextets]
  have hahead := Output.length_ahead_resize output ((x.length + 2) / 3 * 4)
  rw [base64Encode, encodeLoop_eq, Output.putAll_eq_some _ _ (by omega), List.drop_eq_nil_of_le (by omega)]
  rfl

theorem base64Decode_eq (input output : List UInt8) (mode : Base64EncodeMode) :
    base64Decode input output mode = some ((decoded input 0 0).2 == 0, (decoded input 0 0).1) := by
  have hlen := @length_decoded input 0 0 (by decide)
  have hahead := Output.length_ahead_resize output ((input.length + 3) / 4 * 3)
  rw [base64Decode, decodeLoop_eq input 0 (by decide), Output.putAll_eq_some _ _ (by omega)]
  rfl

/-- **Base64 round trip.** The encoder fills its string to the end, the decoder gives the bytes back, also with bytes
outside of both alphabets before the padding, and it never writes outside of its string. -/
theorem base64_roundTrip (x output output' : List UInt8) (mode mode' : Base64EncodeMode) :
    (∃ text, base64Encode x output mode = some (true, ⟨text, []⟩) ∧ text.length = (x.length + 2) / 3 * 4 ∧
      base64Decode text output' mode' = some (true, x) ∧
      ∀ body, kPad ∉ body → body.filter inAlphabet = text.takeWhile (· != kPad) →
        base64Decode (body ++ text.dropWhile (· != kPad)) output' mode' = some (true, x)) ∧
    ∀ input, (base64Decode input output' mode').isSome = true := by
  refine ⟨⟨_, base64Encode_eq x output mode, ?_, ?_, ?_⟩, fun input => ?_⟩
  · rw [List.length_append, letters, List.length_map, padding, List.length_replicate, length_sextets]
  · rw [base64Decode_eq, decoded_letters]
    rfl
  · intro body hbody hletters
    have hne : ∀ c ∈ letters mode x, (c != kPad) = true := fun c hc => bne_iff_ne.mpr (mem_letters hc).1
    have hpad : (padding x).takeWhile (· != kPad) = [] := by
      rw [padding, List.takeWhile_replicate]
      simp
    have hdrop : (padding x).dropWhile (· != kPad) = padding x := by
      rw [padding, List.dropWhile_replicate]
      simp
    rw [List.takeWhile_append_of_pos hne, hpad, List.append_nil] at hletters
    rw [List.dropWhile_append_of_pos hne, hdrop, base64Decode_eq, decoded_filter body _ hbody, hletters, decoded_letters]
    rfl
  · rw [base64Decode_eq]
    rfl

/-- One byte, with a line break between its letters. -/
theorem base64_roundTrip_lineBreak :
    base64Encode [0x4d] [] .common = some (true, ⟨[0x54, 0x51, 0x3d, 0x3d], []⟩) ∧
      base64Decode [0x54, 0x0a, 0x51, 0x3d, 0x3d] [] .uri = some (true, [0x4d]) := by
  obtain ⟨⟨text, htext, -, -, hjunk⟩, -⟩ := base64_roundTrip [0x4d] [] [] .common .uri
  have hfill : base64Encode [0x4d] [] .common = some (true, ⟨[0x54, 0x51, 0x3d, 0x3d], []⟩) := by decide
  rw [hfill] at htext
  obtain rfl : [0x54, 0x51, 0x3d, 0x3d] = text := by simpa using htext
  exact ⟨hfill, hjunk [0x54, 0x0a, 0x51] (by decide) (by decide)⟩

end Base64

end Raster
