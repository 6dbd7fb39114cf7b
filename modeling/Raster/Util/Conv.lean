import Mathlib.Data.Int.Bitwise
import Mathlib.Data.List.TakeWhile
import Mathlib.Tactic.Ring
import Raster.Lib.Numeral

/-!
# Integers and text

`raster/util/Conv.h`: integers are printed from the last digit on into a buffer of 20 characters, whose use is computed before, and
are parsed in groups of four digits after a check that they will not overflow. What is printed is the decimal numeral, and what is
accepted is a numeral of the range of the type, with white space around it and a sign where the type has one.
-/

namespace Raster.Conv

open Lib

/-! ### Printing -/

/-- A digit as a character. -/
def digit (d : Nat) : UInt8 := UInt8.ofNat (48 + d)

def powersOf10 : List Nat := (List.range 20).map fun i => 10 ^ i

/-- `digits10` on x86-64, from the number of leading zeroes. -/
def digits10 (v : Nat) : Nat :=
  if v = 0 then 1
  else
    let bits := Nat.log2 v
    let minLength := 1 + (bits * 77) / 2 ^ 8
    minLength + if powersOf10.getD minLength 0 ≤ v then 1 else 0

/-- `digits10` on other machines; `fuel` bounds the turns of the loop. -/
def digits10Loop : (fuel : Nat) → (result v : Nat) → Option Nat
  | 0, _, _ => none
  | fuel + 1, result, v =>
    if v < 10 then some result
    else if v < 100 then some (result + 1)
    else if v < 1000 then some (result + 2)
    else if v < 10000 then some (result + 3)
    else digits10Loop fuel (result + 4) (v / 10000)

/-- The loop of `uint64ToBufferUnsafe`, `none` when it writes outside of the buffer. -/
def writeDigits : (pos : Nat) → (v : Nat) → List UInt8 → Option (List UInt8)
  | 0, v, buffer => if 0 < buffer.length ∧ v < 10 then some (buffer.set 0 (digit v)) else none
  | pos + 1, v, buffer =>
    if buffer.length ≤ pos + 1 then none
    else if 10 ≤ v then writeDigits pos (v / 10) (buffer.set (pos + 1) (digit (v % 10)))
    else some (buffer.set (pos + 1) (digit v))

def uint64ToBufferUnsafe (v : Nat) (buffer : List UInt8) : Option (Nat × List UInt8) :=
  (writeDigits (digits10 v - 1) v buffer).map fun buffer => (digits10 v, buffer)

/-- `toAppend` of an `int64_t`, an `int32_t` or, when it is not negative, a `uint64_t`; `buffer` is what is on
the stack. -/
def toAppend (buffer : List UInt8) (value : Int) (result : List UInt8) : Option (List UInt8) :=
  if value < 0 then
    (uint64ToBufferUnsafe ((-value) % 2 ^ 64).toNat buffer).map fun r => result ++ [45] ++ r.2.take r.1
  else (uint64ToBufferUnsafe (value % 2 ^ 64).toNat buffer).map fun r => result ++ r.2.take r.1

/-! ### Parsing -/

def isdigit (c : UInt8) : Bool := 48 ≤ c && c ≤ 57

def isspace (c : UInt8) : Bool := c == 32 || (9 ≤ c && c ≤ 13)

/-- An integral type. -/
inductive Width
  | w8
  | w16
  | w32
  | w64
  deriving DecidableEq, Repr

namespace Width

def bits : Width → Nat
  | w8 => 8
  | w16 => 16
  | w32 => 32
  | w64 => 64

/-- `std::numeric_limits<Tgt>::digits10`. -/
def digits10 : Width → Nat
  | w8 => 2
  | w16 => 4
  | w32 => 9
  | w64 => 19

/-- The digits of `MaxString<Tgt>::value`. -/
def maxString : Width → List Nat
  | w8 => [2, 5, 5]
  | w16 => [6, 5, 5, 3, 5]
  | w32 => [4, 2, 9, 4, 9, 6, 7, 2, 9, 5]
  | w64 => [1, 8, 4, 4, 6, 7, 4, 4, 0, 7, 3, 7, 0, 9, 5, 5, 1, 6, 1, 5]

end Width

/-- What is thrown: the message, and the text it quotes. -/
structure RangeError where
  message : String
  src : List UInt8
  deriving DecidableEq, Repr

/-- `shift1000` and the other tables; they hold `OOR` where there is no digit. -/
def shift (power : Nat) (c : UInt8) : Nat := if isdigit c then (c.toNat - 48) * power else 10000

/-- The end of `digits_to`, in groups of four digits and then the rest. -/
def groups (w : Width) : (result : Nat) → List UInt8 → Nat
  | result, c₀ :: c₁ :: c₂ :: c₃ :: cs =>
    groups w ((result * 10000 % 2 ^ w.bits + (shift 1000 c₀ + shift 100 c₁ + shift 10 c₂ + shift 1 c₃)) % 2 ^ w.bits) cs
  | result, [c₀, c₁, c₂] => (result * 1000 + (shift 100 c₀ + shift 10 c₁ + shift 1 c₂)) % 2 ^ w.bits
  | result, [c₀, c₁] => (result * 100 + (shift 10 c₀ + shift 1 c₁)) % 2 ^ w.bits
  | result, [c₀] => (result * 10 + shift 1 c₀) % 2 ^ w.bits
  | result, [] => result

/-- `strncmp(s, t, n) <= 0` for texts of `n` characters. -/
def strncmpLe (s t : List UInt8) : Bool := lexLe (s.map UInt8.toNat) (t.map UInt8.toNat)

/-- `digits_to` without leading zeros. -/
def digitsToTail (w : Width) (s : List UInt8) : Except RangeError Nat :=
  if w.digits10 + 1 ≤ s.length ∧ ¬(s.length = w.digits10 + 1 ∧ strncmpLe s (w.maxString.map digit)) then
    .error { message := "Numeric overflow upon conversion", src := s }
  else if s = [] then .error { message := "Found no digits to convert in input", src := s }
  else .ok (groups w 0 s)

/-- `digits_to`: a long text loses its leading zeros first. -/
def digits_to (w : Width) (s : List UInt8) : Except RangeError Nat :=
  if w.digits10 + 1 ≤ s.length ∧ s.head? = some 48 then
    match s.dropWhile (· == 48) with
    | [] => .ok 0
    | c :: cs => digitsToTail w (c :: cs)
  else digitsToTail w s

/-- The sign, if the type has one: whether it is a minus, and what is behind it. -/
def leadingSign (signed : Bool) (src : List UInt8) : List UInt8 → Except RangeError (Bool × List UInt8)
  | [] => .error { message := "No digits found in input string", src }
  | c :: cs =>
    if signed = true ∧ isdigit c = false then
      if c = 45 then .ok (true, cs)
      else if c = 43 then .ok (false, cs)
      else .error { message := "Invalid leading character in conversion to integral", src }
    else .ok (false, c :: cs)

/-- The number for some digits behind a sign. -/
def signedResult (signed : Bool) (w : Width) (src : List UInt8) (negative : Bool) (t : Nat) : Except RangeError Int :=
  if signed = false then .ok t
  else if negative then
    let result := (-(t : Int)).bmod (2 ^ w.bits)
    if result ≤ 0 then .ok result else .error { message := "Negative overflow", src }
  else
    let result := (t : Int).bmod (2 ^ w.bits)
    if 0 ≤ result then .ok result else .error { message := "Overflow", src }

/-- The digits behind the sign, and what is left. -/
def afterSign (signed : Bool) (w : Width) (src : List UInt8) (negative : Bool) : List UInt8 → Except RangeError (Int × List UInt8)
  | [] => .error { message := "No digits found in input string", src }
  | c :: cs =>
    if isdigit c = false then .error { message := "Non-digit character found", src }
    else do
      let t ← digits_to w (c :: cs.takeWhile isdigit)
      let result ← signedResult signed w src negative t
      .ok (result, cs.dropWhile isdigit)

/-- `to<Tgt>(StringPiece*)`: the number and what is left. -/
def toIntegralPrefix (signed : Bool) (w : Width) (src : List UInt8) : Except RangeError (Int × List UInt8) := do
  let (negative, m) ← leadingSign signed src (src.dropWhile isspace)
  afterSign signed w src negative m

def enforceWhitespace : List UInt8 → Except RangeError Unit
  | [] => .ok ()
  | c :: cs =>
    if isspace c then enforceWhitespace cs
    else .error { message := "Non-whitespace: " ++ (Char.ofNat c.toNat).toString, src := c :: cs }

/-- `to<Tgt>(StringPiece)`. -/
def toIntegral (signed : Bool) (w : Width) (src : List UInt8) : Except RangeError Int := do
  let (result, rest) ← toIntegralPrefix signed w src
  enforceWhitespace rest
  .ok result

/-! ### What is printed -/

/-- The decimal text of a number. -/
def text (value : Int) : List UInt8 :=
  (if value < 0 then [45] else []) ++ (numeral 10 value.natAbs).map digit

theorem estimate : ∀ bits < 64, 1 + (bits * 77) / 2 ^ 8 < 20 ∧ 10 ^ ((bits * 77) / 2 ^ 8) ≤ 2 ^ bits ∧
    2 ^ (bits + 1) ≤ 10 ^ (1 + (bits * 77) / 2 ^ 8 + 1) := by decide

theorem digits10_eq {v : Nat} (hv : v < 2 ^ 64) : digits10 v = (numeral 10 v).length := by
  unfold digits10
  split_ifs with hzero
  · rw [hzero]
    rfl
  · have hbits : Nat.log2 v < 64 := (Nat.log2_lt hzero).2 hv
    have hle : 2 ^ Nat.log2 v ≤ v := Nat.log2_self_le hzero
    have hlt : v < 2 ^ (Nat.log2 v + 1) := Nat.lt_log2_self
    obtain ⟨hindex, hlow, hhigh⟩ := estimate _ hbits
    have hpower : powersOf10.getD (1 + (Nat.log2 v * 77) / 2 ^ 8) 0 = 10 ^ (1 + (Nat.log2 v * 77) / 2 ^ 8) := by
      rw [powersOf10, List.getD_eq_getElem?_getD, List.getElem?_map, List.getElem?_range hindex]
      rfl
    show 1 + _ + (if powersOf10.getD (1 + (Nat.log2 v * 77) / 2 ^ 8) 0 ≤ v then 1 else 0) = _
    rw [hpower]
    split_ifs with hmore
    · exact (length_numeral_eq (by decide) hmore (Nat.lt_of_lt_of_le hlt hhigh)).symm
    · rw [length_numeral_eq (by decide) (Nat.le_trans hlow hle) (by rw [Nat.add_comm _ 1]; omega)]
      omega

theorem length_numeral_succ {v : Nat} (hv : 10 ≤ v) : (numeral 10 v).length = (numeral 10 (v / 10)).length + 1 := by
  rw [numeral_of_le (by decide) hv, List.length_append, List.length_singleton]

theorem digits10Loop_eq (fuel result v : Nat) (hv : v < 10000 ^ fuel) (hpos : 0 < fuel) :
    digits10Loop fuel (result + 1) v = some (result + (numeral 10 v).length) := by
  induction fuel generalizing result v with
  | zero => exact absurd hpos (Nat.lt_irrefl 0)
  | succ fuel ih =>
    unfold digits10Loop
    have hone {u : Nat} (hu : u < 10) : (numeral 10 u).length = 1 := by rw [numeral_of_lt hu, List.length_singleton]
    split_ifs with h₁ h₂ h₃ h₄
    · rw [hone h₁]
    · rw [length_numeral_succ (by omega), hone (by omega)]
    · rw [length_numeral_succ (by omega), length_numeral_succ (by omega), hone (by omega)]
    · rw [length_numeral_succ (by omega), length_numeral_succ (by omega), length_numeral_succ (by omega), hone (by omega)]
    · have hfuel : 0 < fuel := by
        by_contra hle
        rw [Nat.eq_zero_of_not_pos hle, Nat.zero_add, Nat.pow_one] at hv
        omega
      rw [Nat.pow_succ] at hv
      have hdiv : v / 10000 < 10000 ^ fuel := Nat.div_lt_of_lt_mul (by omega)
      have hfour : (numeral 10 v).length = (numeral 10 (v / 10000)).length + 4 := by
        rw [length_numeral_succ (by omega), length_numeral_succ (by omega), length_numeral_succ (by omega),
          length_numeral_succ (by omega), Nat.div_div_eq_div_mul, Nat.div_div_eq_div_mul, Nat.div_div_eq_div_mul]
      rw [show result + 1 + 4 = (result + 4) + 1 by omega, ih (result + 4) _ hdiv hfuel, hfour]
      congr 1
      omega

/-- **The two ways to count the digits agree** for every `uint64_t`, and count those of its decimal text. -/
theorem digits10_agree {v : Nat} (hv : v < 2 ^ 64) :
    digits10Loop 5 1 v = some (digits10 v) ∧ digits10 v = (numeral 10 v).length := by
  have hloop := digits10Loop_eq 5 0 v (Nat.lt_trans hv (by decide)) (by decide)
  rw [digits10_eq hv]
  exact ⟨by rw [hloop, Nat.zero_add], rfl⟩

theorem digits10_agree_max : digits10Loop 5 1 (2 ^ 64 - 1) = some (digits10 (2 ^ 64 - 1)) ∧
    digits10 (2 ^ 64 - 1) = (numeral 10 (2 ^ 64 - 1)).length :=
  digits10_agree (by decide)

theorem writeDigits_eq (pos v : Nat) (buffer : List UInt8) (hpos : (numeral 10 v).length = pos + 1) (hroom : pos < buffer.length) :
    writeDigits pos v buffer = some ((numeral 10 v).map digit ++ buffer.drop (pos + 1)) := by
  induction pos generalizing v buffer with
  | zero =>
    have hv : v < 10 := by
      by_contra hge
      rw [length_numeral_succ (by omega)] at hpos
      have := length_numeral_pos 10 (v / 10)
      omega
    obtain - | ⟨c, cs⟩ := buffer
    · exact absurd hroom (Nat.lt_irrefl 0)
    · rw [writeDigits, if_pos ⟨hroom, hv⟩, numeral_of_lt hv]
      rfl
  | succ pos ih =>
    have hv : 10 ≤ v := by
      by_contra hlt
      rw [numeral_of_lt (by omega), List.length_singleton] at hpos
      omega
    rw [length_numeral_succ hv] at hpos
    rw [writeDigits, if_neg (by omega), if_pos hv, ih _ _ (by omega) (by rw [List.length_set]; omega),
      numeral_of_le (by decide) hv, List.map_append, List.append_assoc, List.set_eq_take_append_cons_drop, if_pos hroom,
      List.drop_left' (by rw [List.length_take]; omega)]
    rfl

theorem uint64ToBufferUnsafe_eq {v : Nat} (hv : v < 2 ^ 64) {buffer : List UInt8} (hbuffer : 20 ≤ buffer.length) :
    ∃ rest, uint64ToBufferUnsafe v buffer = some ((numeral 10 v).length, (numeral 10 v).map digit ++ rest) := by
  have hle : (numeral 10 v).length ≤ 20 := length_numeral_le (by decide) (Nat.lt_trans hv (by decide))
  have hpos := length_numeral_pos 10 v
  refine ⟨buffer.drop ((numeral 10 v).length - 1 + 1), ?_⟩
  rw [uint64ToBufferUnsafe, digits10_eq hv, writeDigits_eq _ v buffer (by omega) (by omega)]
  rfl

/-- **What is appended is the decimal text**, and the buffer is large enough for it. -/
theorem toAppend_eq {buffer : List UInt8} (hbuffer : 20 ≤ buffer.length) {value : Int} (hmin : -2 ^ 63 ≤ value)
    (hmax : value < 2 ^ 64) (result : List UInt8) : toAppend buffer value result = some (result ++ text value) := by
  unfold toAppend text
  split_ifs with hneg
  · have hmod : ((-value) % 2 ^ 64).toNat = value.natAbs := by omega
    obtain ⟨rest, hrest⟩ := uint64ToBufferUnsafe_eq (v := value.natAbs) (by omega) hbuffer
    rw [hmod, hrest, Option.map_some, List.take_left' (by rw [List.length_map]), List.append_assoc]
  · have hmod : (value % 2 ^ 64).toNat = value.natAbs := by omega
    obtain ⟨rest, hrest⟩ := uint64ToBufferUnsafe_eq (v := value.natAbs) (by omega) hbuffer
    rw [hmod, hrest, Option.map_some, List.take_left' (by rw [List.length_map]), List.nil_append]

/-! ### What is parsed -/

theorem bind_eq_ok {ε α β : Type} {x : Except ε α} {f : α → Except ε β} {b : β} :
    (x >>= f) = .ok b ↔ ∃ a, x = .ok a ∧ f a = .ok b := by
  cases x <;> simp [bind, Except.bind]

section Digits

variable {w : Width} {ds : List Nat}

theorem toNat_digit {d : Nat} (hd : d < 10) : (digit d).toNat = 48 + d := by
  rw [digit, UInt8.toNat_ofNat', Nat.mod_eq_of_lt (by omega)]

theorem isdigit_iff (c : UInt8) : isdigit c = true ↔ 48 ≤ c.toNat ∧ c.toNat ≤ 57 := by
  rw [isdigit, Bool.and_eq_true, decide_eq_true_iff, decide_eq_true_iff, UInt8.le_iff_toNat_le, UInt8.le_iff_toNat_le]
  rfl

theorem isdigit_digit {d : Nat} (hd : d < 10) : isdigit (digit d) = true := by
  rw [isdigit_iff, toNat_digit hd]
  omega

theorem exists_digits {s : List UInt8} (hs : ∀ c ∈ s, isdigit c = true) : ∃ ds : List Nat, s = ds.map digit ∧ ∀ d ∈ ds, d < 10 := by
  refine ⟨s.map fun c => c.toNat - 48, ?_, ?_⟩
  · rw [List.map_map]
    refine (List.map_id s).symm.trans (List.map_congr_left fun c hc => UInt8.toNat_inj.1 ?_)
    have hc' := (isdigit_iff c).1 (hs c hc)
    show c.toNat = (digit (c.toNat - 48)).toNat
    rw [toNat_digit (by omega)]
    omega
  · intro d hd
    obtain ⟨c, hc, rfl⟩ := List.mem_map.1 hd
    have hc' := (isdigit_iff c).1 (hs c hc)
    omega

theorem shift_digit {d : Nat} (hd : d < 10) (power : Nat) : shift power (digit d) = d * power := by
  rw [shift, if_pos (isdigit_digit hd), toNat_digit hd, Nat.add_sub_cancel_left]

theorem groups_eq (result : Nat) (ds : List Nat) (hds : ∀ d ∈ ds, d < 10) (hfits : result * 10 ^ ds.length + ofNumeral 10 ds < 2 ^ w.bits) :
    groups w result (ds.map digit) = result * 10 ^ ds.length + ofNumeral 10 ds := by
  match ds with
  | [] => simp [groups]
  | [d₀] =>
    obtain ⟨h₀, -⟩ := List.forall_mem_cons.1 hds
    simp only [List.map_cons, List.map_nil, groups, shift_digit h₀]
    simp only [ofNumeral_cons, ofNumeral_nil, List.length_cons, List.length_nil] at hfits ⊢
    rw [Nat.mod_eq_of_lt (by omega)]
    omega
  | [d₀, d₁] =>
    obtain ⟨h₀, hds⟩ := List.forall_mem_cons.1 hds
    obtain ⟨h₁, -⟩ := List.forall_mem_cons.1 hds
    simp only [List.map_cons, List.map_nil, groups, shift_digit h₀, shift_digit h₁]
    simp only [ofNumeral_cons, ofNumeral_nil, List.length_cons, List.length_nil] at hfits ⊢
    rw [Nat.mod_eq_of_lt (by omega)]
    omega
  | [d₀, d₁, d₂] =>
    obtain ⟨h₀, hds⟩ := List.forall_mem_cons.1 hds
    obtain ⟨h₁, hds⟩ := List.forall_mem_cons.1 hds
    obtain ⟨h₂, -⟩ := List.forall_mem_cons.1 hds
    simp only [List.map_cons, List.map_nil, groups, shift_digit h₀, shift_digit h₁, shift_digit h₂]
    simp only [ofNumeral_cons, ofNumeral_nil, List.length_cons, List.length_nil] at hfits ⊢
    rw [Nat.mod_eq_of_lt (by omega)]
    omega
  | d₀ :: d₁ :: d₂ :: d₃ :: ds =>
    obtain ⟨h₀, hds⟩ := List.forall_mem_cons.1 hds
    obtain ⟨h₁, hds⟩ := List.forall_mem_cons.1 hds
    obtain ⟨h₂, hds⟩ := List.forall_mem_cons.1 hds
    obtain ⟨h₃, hds⟩ := List.forall_mem_cons.1 hds
    have hsplit : result * 10 ^ (d₀ :: d₁ :: d₂ :: d₃ :: ds).length + ofNumeral 10 (d₀ :: d₁ :: d₂ :: d₃ :: ds) =
        (result * 10000 + (d₀ * 1000 + d₁ * 100 + d₂ * 10 + d₃)) * 10 ^ ds.length + ofNumeral 10 ds := by
      simp only [ofNumeral_cons, List.length_cons, Nat.pow_succ]
      ring
    rw [hsplit] at hfits ⊢
    have hle : result * 10000 + (d₀ * 1000 + d₁ * 100 + d₂ * 10 + d₃) ≤
        (result * 10000 + (d₀ * 1000 + d₁ * 100 + d₂ * 10 + d₃)) * 10 ^ ds.length :=
      Nat.le_mul_of_pos_right _ (Nat.pow_pos (by decide))
    simp only [List.map_cons, groups, shift_digit h₀, shift_digit h₁, shift_digit h₂, shift_digit h₃, Nat.mul_one]
    rw [Nat.mod_eq_of_lt (by omega : result * 10000 < 2 ^ w.bits), Nat.mod_eq_of_lt (by omega)]
    exact groups_eq _ ds hds hfits

theorem maxString_eq (w : Width) : ofNumeral 10 w.maxString = 2 ^ w.bits - 1 ∧ w.maxString.length = w.digits10 + 1 ∧
    (∀ d ∈ w.maxString, d < 10) ∧ 10 ^ w.digits10 ≤ 2 ^ w.bits ∧ 2 ^ w.bits ≤ 10 ^ (w.digits10 + 1) := by
  cases w <;> decide

theorem strncmpLe_digits {es : List Nat} (hlen : ds.length = es.length) (hds : ∀ d ∈ ds, d < 10) (hes : ∀ d ∈ es, d < 10) :
    strncmpLe (ds.map digit) (es.map digit) = true ↔ ofNumeral 10 ds ≤ ofNumeral 10 es := by
  have hshift {es : List Nat} (hes : ∀ d ∈ es, d < 10) : (es.map digit).map UInt8.toNat = es.map (48 + ·) := by
    rw [List.map_map]
    exact List.map_congr_left fun d hd => toNat_digit (hes d hd)
  rw [strncmpLe, hshift hds, hshift hes, lexLe_map_add, lexLe_iff (by decide) hlen hds hes]

theorem strncmpLe_iff (hlen : ds.length = w.digits10 + 1) (hds : ∀ d ∈ ds, d < 10) :
    strncmpLe (ds.map digit) (w.maxString.map digit) = true ↔ ofNumeral 10 ds < 2 ^ w.bits := by
  obtain ⟨hmax, hlength, hdigits, -⟩ := maxString_eq w
  have hpos : 0 < 2 ^ w.bits := Nat.two_pow_pos _
  rw [strncmpLe_digits (hlen.trans hlength.symm) hds hdigits, hmax]
  omega

theorem digitsToTail_eq (hne : ds ≠ []) (hds : ∀ d ∈ ds, d < 10) (hhead : ds.length ≤ w.digits10 ∨ ds.head? ≠ some 0) :
    digitsToTail w (ds.map digit) = if ofNumeral 10 ds < 2 ^ w.bits then .ok (ofNumeral 10 ds)
      else .error { message := "Numeric overflow upon conversion", src := ds.map digit } := by
  obtain ⟨-, -, -, hlow, hhigh⟩ := maxString_eq w
  have hless := ofNumeral_lt (by decide : 1 < 10) hds
  have hgroups (hfits : ofNumeral 10 ds < 2 ^ w.bits) : groups w 0 (ds.map digit) = ofNumeral 10 ds := by
    rw [groups_eq 0 ds hds (by omega), Nat.zero_mul, Nat.zero_add]
  unfold digitsToTail
  rw [if_neg (show ¬ds.map digit = [] by simpa using hne), List.length_map]
  obtain hshort | hlong := Nat.lt_or_ge ds.length (w.digits10 + 1)
  · have hfits : ofNumeral 10 ds < 2 ^ w.bits :=
      Nat.lt_of_lt_of_le hless (Nat.le_trans (Nat.pow_le_pow_right (by decide) (by omega)) hlow)
    rw [if_neg fun h => Nat.not_le.2 hshort h.1, if_pos hfits, hgroups hfits]
  · by_cases hexact : ds.length = w.digits10 + 1
    · by_cases hfits : ofNumeral 10 ds < 2 ^ w.bits
      · rw [if_neg fun h => h.2 ⟨hexact, (strncmpLe_iff hexact hds).2 hfits⟩, if_pos hfits, hgroups hfits]
      · rw [if_pos ⟨hlong, fun h => hfits ((strncmpLe_iff hexact hds).1 h.2)⟩, if_neg hfits]
    · have hover : ¬ofNumeral 10 ds < 2 ^ w.bits := by
        obtain - | ⟨d, rest⟩ := ds
        · exact absurd rfl hne
        · have hd : 0 < d := by
            obtain hfew | hzero := hhead
            · omega
            · exact Nat.pos_of_ne_zero fun h => hzero (by rw [h]; rfl)
          have hge := le_ofNumeral (b := 10) rest hd
          rw [List.length_cons] at hlong hexact
          have hpow : 10 ^ (w.digits10 + 1) ≤ 10 ^ rest.length := Nat.pow_le_pow_right (by decide) (by omega)
          omega
      rw [if_pos ⟨hlong, fun h => hexact h.1⟩, if_neg hover]

theorem dropWhile_digits (hds : ∀ d ∈ ds, d < 10) : (ds.map digit).dropWhile (· == 48) = (ds.dropWhile (· == 0)).map digit := by
  induction ds with
  | nil => rfl
  | cons d ds ih =>
    obtain ⟨hd, hds⟩ := List.forall_mem_cons.1 hds
    have hzero : (digit d == 48) = (d == 0) := by
      rw [Bool.eq_iff_iff, beq_iff_eq, beq_iff_eq, ← UInt8.toNat_inj, toNat_digit hd]
      exact Nat.add_eq_left
    rw [List.map_cons, List.dropWhile_cons, List.dropWhile_cons, hzero, ih hds]
    split_ifs <;> rfl

theorem digits_to_eq (hne : ds ≠ []) (hds : ∀ d ∈ ds, d < 10) :
    (ofNumeral 10 ds < 2 ^ w.bits → digits_to w (ds.map digit) = .ok (ofNumeral 10 ds)) ∧
    (2 ^ w.bits ≤ ofNumeral 10 ds → ∃ src, digits_to w (ds.map digit) =
      .error { message := "Numeric overflow upon conversion", src }) := by
  have htail {es : List Nat} (hes : es ≠ []) (hdigits : ∀ d ∈ es, d < 10)
      (hhead : es.length ≤ w.digits10 ∨ es.head? ≠ some 0) (hsame : ofNumeral 10 es = ofNumeral 10 ds) :
      (ofNumeral 10 ds < 2 ^ w.bits → digitsToTail w (es.map digit) = .ok (ofNumeral 10 ds)) ∧
      (2 ^ w.bits ≤ ofNumeral 10 ds → ∃ src, digitsToTail w (es.map digit) =
        .error { message := "Numeric overflow upon conversion", src }) := by
    have htail := digitsToTail_eq hes hdigits hhead
    rw [hsame] at htail
    exact ⟨fun hfits => by rw [htail, if_pos hfits], fun hover => ⟨_, by rw [htail, if_neg (by omega)]⟩⟩
  unfold digits_to
  split_ifs with hzeros
  · have hdrop : (ds.map digit).dropWhile (· == 48) = (ds.dropWhile (· == 0)).map digit := dropWhile_digits hds
    have hvalue : ofNumeral 10 (ds.dropWhile (· == 0)) = ofNumeral 10 ds := ofNumeral_dropWhile ds
    have hdigits : ∀ d ∈ ds.dropWhile (· == 0), d < 10 := fun d hd => hds d ((List.dropWhile_sublist _).subset hd)
    have hhead : (ds.dropWhile (· == 0)).head? ≠ some 0 := by
      intro hzero
      have hnot := List.head?_dropWhile_not (· == 0) ds
      rw [hzero] at hnot
      simp at hnot
    rw [hdrop]
    generalize ds.dropWhile (· == 0) = es at hvalue hdigits hhead
    obtain - | ⟨d, es⟩ := es
    · rw [← hvalue]
      exact ⟨fun _ => rfl, fun hover => absurd hover (Nat.not_le.2 (Nat.two_pow_pos _))⟩
    · exact htail (List.cons_ne_nil d es) hdigits (.inr hhead) hvalue
  · refine htail hne hds ?_ rfl
    rw [List.length_map] at hzeros
    by_contra hboth
    rw [not_or, not_not] at hboth
    refine hzeros ⟨by omega, ?_⟩
    rw [List.head?_map, hboth.2]
    rfl

end Digits

/-- The numbers of a type. -/
def InRange (signed : Bool) (w : Width) (v : Int) : Prop :=
  if signed then -2 ^ (w.bits - 1) ≤ v ∧ v < 2 ^ (w.bits - 1) else 0 ≤ v ∧ v < 2 ^ w.bits

instance (signed : Bool) (w : Width) (v : Int) : Decidable (InRange signed w v) :=
  inferInstanceAs (Decidable (if signed then -2 ^ (w.bits - 1) ≤ v ∧ v < 2 ^ (w.bits - 1) else 0 ≤ v ∧ v < 2 ^ w.bits))

/-- A sign, and what it makes of a number. -/
inductive Signed (signed : Bool) (n : Nat) : List UInt8 → Int → Prop
  | none : Signed signed n [] n
  | plus (h : signed = true) : Signed signed n [43] n
  | minus (h : signed = true) : Signed signed n [45] (-n)

/-- White space, a sign if the type has one, digits as far as there are any, and the rest. -/
def Reads (signed : Bool) (src : List UInt8) (v : Int) (rest : List UInt8) : Prop :=
  ∃ ws sign ds, src = ws ++ (sign ++ (ds.map digit ++ rest)) ∧ (∀ c ∈ ws, isspace c = true) ∧ ds ≠ [] ∧ (∀ d ∈ ds, d < 10) ∧
    (∀ c ∈ rest.head?, isdigit c = false) ∧ Signed signed (ofNumeral 10 ds) sign v

section Parse

variable {signed : Bool} {w : Width} {src rest : List UInt8} {v : Int}

theorem signedResult_eq {negative : Bool} {t : Nat} (ht : t < 2 ^ w.bits) (hsigned : negative = true → signed = true) :
    signedResult signed w src negative t = .ok v ↔ v = (if negative then -(t : Int) else t) ∧ InRange signed w v := by
  have hunfold : signedResult signed w src negative t = .ok v ↔
      if signed = false then v = t else if negative then v = (-(t : Int)).bmod (2 ^ w.bits) ∧ v ≤ 0
        else v = (t : Int).bmod (2 ^ w.bits) ∧ 0 ≤ v := by
    unfold signedResult
    dsimp only
    split_ifs with h₁ h₂ h₃ h₃
    · rw [Except.ok.injEq, eq_comm]
    · rw [Except.ok.injEq, eq_comm]
      exact ⟨fun h => ⟨h, h ▸ h₃⟩, fun h => h.1⟩
    · exact iff_of_false (by simp) fun h => h₃ (h.1 ▸ h.2)
    · rw [Except.ok.injEq, eq_comm]
      exact ⟨fun h => ⟨h, h ▸ h₃⟩, fun h => h.1⟩
    · exact iff_of_false (by simp) fun h => h₃ (h.1 ▸ h.2)
  rw [hunfold]
  cases signed with
  | false =>
    have hpos : negative = false := by
      rw [← Bool.not_eq_true]
      exact fun h => Bool.false_ne_true (hsigned h)
    rw [hpos, if_pos rfl, if_neg Bool.false_ne_true, InRange, if_neg Bool.false_ne_true]
    constructor
    · rintro rfl
      exact ⟨rfl, Int.natCast_nonneg t, by exact_mod_cast ht⟩
    · exact fun h => h.1
  | true =>
    rw [if_neg (by simp), InRange, if_pos rfl]
    cases w <;> cases negative <;> simp only [Width.bits, Int.bmod, if_true, Bool.false_eq_true, if_false] at ht ⊢ <;>
      constructor <;> intro h <;> split_ifs at h ⊢ <;> omega

theorem isspace_false {c : UInt8} (hc : isdigit c = true ∨ c = 43 ∨ c = 45) : isspace c = false := by
  obtain hdigit | rfl | rfl := hc
  · rw [isdigit_iff] at hdigit
    rw [← Bool.not_eq_true, isspace, Bool.or_eq_true, beq_iff_eq, Bool.and_eq_true, decide_eq_true_iff, decide_eq_true_iff,
      UInt8.le_iff_toNat_le, UInt8.le_iff_toNat_le, ← UInt8.toNat_inj]
    rintro (hspace | ⟨-, hle⟩)
    · exact absurd (hspace ▸ hdigit.1) (by decide)
    · exact absurd (Nat.le_trans hdigit.1 hle) (by decide)
  · rfl
  · rfl

theorem dropWhile_append_of {p : UInt8 → Bool} {xs ys : List UInt8} (hxs : ∀ c ∈ xs, p c = true) (hys : ∀ c ∈ ys.head?, p c = false) :
    (xs ++ ys).dropWhile p = ys ∧ (xs ++ ys).takeWhile p = xs := by
  induction xs with
  | nil =>
    obtain - | ⟨y, ys⟩ := ys
    · exact ⟨rfl, rfl⟩
    · have hy := hys y rfl
      exact ⟨List.dropWhile_cons_of_neg (by simp [hy]), List.takeWhile_cons_of_neg (by simp [hy])⟩
  | cons x xs ih =>
    obtain ⟨hx, hxs⟩ := List.forall_mem_cons.1 hxs
    obtain ⟨hdrop, htake⟩ := ih hxs
    exact ⟨(List.dropWhile_cons_of_pos hx).trans hdrop, (List.takeWhile_cons_of_pos hx).trans (congrArg (x :: ·) htake)⟩

theorem leadingSign_iff {s m : List UInt8} {negative : Bool} :
    leadingSign signed src s = .ok (negative, m) ↔ s ≠ [] ∧
      (negative = false ∧ m = s ∧ (signed = true → ∀ c ∈ s.head?, isdigit c = true) ∨
        (signed = true ∧ ∀ c ∈ s.head?, isdigit c = false) ∧ (negative = false ∧ s = 43 :: m ∨ negative = true ∧ s = 45 :: m)) := by
  obtain - | ⟨c, cs⟩ := s
  · simp [leadingSign]
  · unfold leadingSign
    dsimp only
    split_ifs with hsign hminus hplus
    · subst hminus
      simp only [Except.ok.injEq, Prod.mk.injEq, List.cons.injEq, true_and]
      constructor
      · rintro ⟨rfl, rfl⟩
        exact ⟨List.cons_ne_nil _ _, .inr ⟨⟨hsign.1, by rintro c ⟨⟩; rfl⟩, .inr ⟨rfl, rfl⟩⟩⟩
      · rintro ⟨-, ⟨-, -, h⟩ | ⟨-, ⟨-, h, -⟩ | ⟨rfl, rfl⟩⟩⟩
        · exact absurd (h hsign.1 45 rfl) (by decide)
        · exact absurd h (by decide)
        · exact ⟨rfl, rfl⟩
    · subst hplus
      simp only [Except.ok.injEq, Prod.mk.injEq, List.cons.injEq, true_and]
      constructor
      · rintro ⟨rfl, rfl⟩
        exact ⟨List.cons_ne_nil _ _, .inr ⟨⟨hsign.1, by rintro c ⟨⟩; rfl⟩, .inl ⟨rfl, rfl⟩⟩⟩
      · rintro ⟨-, ⟨-, -, h⟩ | ⟨-, ⟨rfl, rfl⟩ | ⟨-, h, -⟩⟩⟩
        · exact absurd (h hsign.1 43 rfl) (by decide)
        · exact ⟨rfl, rfl⟩
        · exact absurd h (by decide)
    · simp [hsign, hminus, hplus]
    · have hdigit : signed = true → isdigit c = true := by simpa using hsign
      simp only [Except.ok.injEq, Prod.mk.injEq, List.head?_cons, Option.mem_some_iff, forall_eq', ne_eq, reduceCtorEq,
        not_false_eq_true, true_and, List.cons.injEq]
      constructor
      · rintro ⟨rfl, rfl⟩
        exact .inl ⟨rfl, rfl, hdigit⟩
      · rintro (⟨rfl, rfl, -⟩ | ⟨⟨hs, hc⟩, -⟩)
        · exact ⟨rfl, rfl⟩
        · rw [hdigit hs] at hc
          cases hc

theorem lt_of_inRange {n : Nat} {negative : Bool} (hv : v = if negative then -(n : Int) else n) (hrange : InRange signed w v) :
    n < 2 ^ w.bits := by
  cases w <;> cases signed <;> cases negative <;>
    simp only [InRange, Width.bits, if_true, Bool.false_eq_true, if_false] at hv hrange ⊢ <;> omega

theorem afterSign_iff {m : List UInt8} {negative : Bool} (hsigned : negative = true → signed = true) :
    afterSign signed w src negative m = .ok (v, rest) ↔
      ∃ ds, m = ds.map digit ++ rest ∧ ds ≠ [] ∧ (∀ d ∈ ds, d < 10) ∧ (∀ c ∈ rest.head?, isdigit c = false) ∧
        v = (if negative then -(ofNumeral 10 ds : Int) else ofNumeral 10 ds) ∧ InRange signed w v := by
  obtain - | ⟨c, cs⟩ := m
  · refine iff_of_false (by simp [afterSign]) ?_
    rintro ⟨ds, hm, hne, -⟩
    exact hne (List.map_eq_nil_iff.1 (List.append_eq_nil_iff.1 hm.symm).1)
  · rw [afterSign]
    by_cases hc : isdigit c = true
    · rw [if_neg (by simp [hc]), bind_eq_ok]
      constructor
      · rintro ⟨t, ht, hresult⟩
        obtain ⟨v', hv', hrest⟩ := bind_eq_ok.1 hresult
        rw [Except.ok.injEq, Prod.mk.injEq] at hrest
        obtain ⟨rfl, rfl⟩ := hrest
        have hdigits : ∀ c' ∈ c :: cs.takeWhile isdigit, isdigit c' = true :=
          List.forall_mem_cons.2 ⟨hc, fun c' hc' => List.mem_takeWhile_imp hc'⟩
        obtain ⟨ds, hds, hlt⟩ := exists_digits hdigits
        have hne : ds ≠ [] := fun h => by simp [h] at hds
        obtain ⟨hfits, hover⟩ := digits_to_eq (w := w) hne hlt
        rw [hds] at ht
        obtain hless | hmore := Nat.lt_or_ge (ofNumeral 10 ds) (2 ^ w.bits)
        · obtain rfl : ofNumeral 10 ds = t := Except.ok.inj ((hfits hless).symm.trans ht)
          refine ⟨ds, ?_, hne, hlt, fun c' hc' => ?_, (signedResult_eq hless hsigned).1 hv'⟩
          · rw [← hds, List.cons_append, List.takeWhile_append_dropWhile]
          · have hnot := List.head?_dropWhile_not isdigit cs
            rw [Option.mem_def.1 hc'] at hnot
            exact hnot
        · obtain ⟨src', herror⟩ := hover hmore
          rw [herror] at ht
          cases ht
      · rintro ⟨ds, hm, hne, hlt, hrest, hv, hrange⟩
        obtain - | ⟨d, ds⟩ := ds
        · exact absurd rfl hne
        · rw [List.map_cons, List.cons_append, List.cons.injEq] at hm
          obtain ⟨rfl, rfl⟩ := hm
          have hdigits : ∀ c' ∈ ds.map digit, isdigit c' = true := by
            intro c' hc'
            obtain ⟨d', hd', rfl⟩ := List.mem_map.1 hc'
            exact isdigit_digit (hlt d' (List.mem_cons_of_mem d hd'))
          obtain ⟨hdrop, htake⟩ := dropWhile_append_of hdigits hrest
          have hless : ofNumeral 10 (d :: ds) < 2 ^ w.bits := lt_of_inRange hv hrange
          refine ⟨ofNumeral 10 (d :: ds), ?_, ?_⟩
          · rw [htake]
            exact (digits_to_eq hne hlt).1 hless
          · rw [hdrop, (signedResult_eq hless hsigned).2 ⟨hv, hrange⟩]
            rfl
    · refine iff_of_false ?_ ?_
      · rw [if_pos (by simpa using hc)]
        simp
      · rintro ⟨ds, hm, hne, hlt, -⟩
        obtain - | ⟨d, ds⟩ := ds
        · exact hne rfl
        · rw [List.map_cons, List.cons_append, List.cons.injEq] at hm
          exact hc (hm.1 ▸ isdigit_digit (hlt d List.mem_cons_self))

/-- **What is accepted**: white space, a sign if the type has one, and digits, if the number is one of the type. -/
theorem toIntegralPrefix_iff : toIntegralPrefix signed w src = .ok (v, rest) ↔ Reads signed src v rest ∧ InRange signed w v := by
  unfold toIntegralPrefix
  rw [bind_eq_ok]
  constructor
  · rintro ⟨⟨negative, m⟩, hsign, hdigits⟩
    rw [leadingSign_iff] at hsign
    obtain ⟨-, hcases⟩ := hsign
    have hsigned : negative = true → signed = true := by
      rintro rfl
      obtain ⟨h, -⟩ | ⟨h, -⟩ := hcases
      · cases h
      · exact h.1
    obtain ⟨ds, rfl, hne, hlt, hrest, hv, hrange⟩ := (afterSign_iff hsigned).1 hdigits
    have hsrc : src = src.takeWhile isspace ++ src.dropWhile isspace := (List.takeWhile_append_dropWhile ..).symm
    have hspace : ∀ c ∈ src.takeWhile isspace, isspace c = true := fun c hc => List.mem_takeWhile_imp hc
    refine ⟨⟨src.takeWhile isspace, ?_⟩, hrange⟩
    obtain ⟨rfl, hm, -⟩ | ⟨⟨hs, -⟩, ⟨rfl, hm⟩ | ⟨rfl, hm⟩⟩ := hcases
    · refine ⟨[], ds, ?_, hspace, hne, hlt, hrest, hv ▸ .none⟩
      rw [List.nil_append, hm]
      exact hsrc
    · refine ⟨[43], ds, ?_, hspace, hne, hlt, hrest, hv ▸ .plus hs⟩
      rw [List.singleton_append, ← hm]
      exact hsrc
    · refine ⟨[45], ds, ?_, hspace, hne, hlt, hrest, hv ▸ .minus hs⟩
      rw [List.singleton_append, ← hm]
      exact hsrc
  · rintro ⟨⟨ws, sign, ds, rfl, hws, hne, hlt, hrest, hsign⟩, hrange⟩
    have hdigit : ∀ c ∈ (ds.map digit ++ rest).head?, isdigit c = true := by
      obtain - | ⟨d, ds⟩ := ds
      · exact absurd rfl hne
      · rintro c ⟨⟩
        exact isdigit_digit (hlt d List.mem_cons_self)
    have hsome : ds.map digit ++ rest ≠ [] := by simp [hne]
    cases hsign with
    | none =>
      have hdrop := (dropWhile_append_of hws fun c hc => isspace_false (.inl (hdigit c hc))).1
      refine ⟨(false, ds.map digit ++ rest), leadingSign_iff.2 ⟨?_, .inl ⟨rfl, ?_, fun _ => ?_⟩⟩, ?_⟩
      · rwa [List.nil_append, hdrop]
      · rw [List.nil_append, hdrop]
      · rwa [List.nil_append, hdrop]
      · exact (afterSign_iff (by simp)).2 ⟨ds, rfl, hne, hlt, hrest, rfl, hrange⟩
    | plus hs =>
      have hplus : ∀ c ∈ ([43] ++ (ds.map digit ++ rest)).head?, isspace c = false := by
        rintro c ⟨⟩
        rfl
      have hdrop := (dropWhile_append_of hws hplus).1
      rw [hdrop]
      refine ⟨(false, ds.map digit ++ rest), leadingSign_iff.2 ⟨by simp, .inr ⟨⟨hs, by rintro c ⟨⟩; rfl⟩, .inl ⟨rfl, rfl⟩⟩⟩, ?_⟩
      exact (afterSign_iff (by simp)).2 ⟨ds, rfl, hne, hlt, hrest, rfl, hrange⟩
    | minus hs =>
      have hminus : ∀ c ∈ ([45] ++ (ds.map digit ++ rest)).head?, isspace c = false := by
        rintro c ⟨⟩
        rfl
      have hdrop := (dropWhile_append_of hws hminus).1
      rw [hdrop]
      refine ⟨(true, ds.map digit ++ rest), leadingSign_iff.2 ⟨by simp, .inr ⟨⟨hs, by rintro c ⟨⟩; rfl⟩, .inr ⟨rfl, rfl⟩⟩⟩, ?_⟩
      exact (afterSign_iff fun _ => hs).2 ⟨ds, rfl, hne, hlt, hrest, rfl, hrange⟩

theorem enforceWhitespace_iff {s : List UInt8} : enforceWhitespace s = .ok () ↔ ∀ c ∈ s, isspace c = true := by
  induction s with
  | nil => simp [enforceWhitespace]
  | cons c cs ih =>
    rw [enforceWhitespace, List.forall_mem_cons]
    split_ifs with hc
    · rw [ih, and_iff_right hc]
    · exact iff_of_false (by simp) fun h => hc h.1

theorem toIntegral_of_reads {after : List UInt8} (hspace : ∀ c ∈ after, isspace c = true) (hreads : Reads signed src v after)
    (hrange : InRange signed w v) : toIntegral signed w src = .ok v :=
  bind_eq_ok.2 ⟨(v, after), toIntegralPrefix_iff.2 ⟨hreads, hrange⟩, bind_eq_ok.2 ⟨(), enforceWhitespace_iff.2 hspace, rfl⟩⟩

/-- **A text is converted to an integer** exactly when it is a numeral of the type's range, a sign in front of it only if the type has
one, with nothing but white space around it. -/
theorem toIntegral_iff : toIntegral signed w src = .ok v ↔
    ∃ after, (∀ c ∈ after, isspace c = true) ∧ Reads signed src v after ∧ InRange signed w v := by
  constructor
  · intro h
    obtain ⟨⟨v', after⟩, hprefix, hrest⟩ := bind_eq_ok.1 h
    obtain ⟨⟨⟩, hspace, hv⟩ := bind_eq_ok.1 hrest
    obtain rfl : v' = v := Except.ok.inj hv
    exact ⟨after, enforceWhitespace_iff.1 hspace, toIntegralPrefix_iff.1 hprefix⟩
  · rintro ⟨after, hspace, hreads, hrange⟩
    exact toIntegral_of_reads hspace hreads hrange

theorem reads_text (hrange : InRange signed w v) {before after : List UInt8} (hbefore : ∀ c ∈ before, isspace c = true)
    (hafter : ∀ c ∈ after.head?, isdigit c = false) : Reads signed (before ++ (text v ++ after)) v after := by
  have hlt : ∀ d ∈ numeral 10 v.natAbs, d < 10 := numeral_lt (by decide)
  have hne : numeral 10 v.natAbs ≠ [] := List.length_pos_iff.1 (length_numeral_pos 10 _)
  have hvalue : ofNumeral 10 (numeral 10 v.natAbs) = v.natAbs := ofNumeral_numeral 10 _
  unfold text
  split_ifs with hneg
  · have hsigned : signed = true := by
      by_contra h
      rw [InRange, if_neg h] at hrange
      omega
    refine ⟨before, [45], numeral 10 v.natAbs, by rw [List.append_assoc], hbefore, hne, hlt, hafter, ?_⟩
    rw [hvalue]
    have hminus := Signed.minus (n := v.natAbs) hsigned
    rwa [show -(v.natAbs : Int) = v by omega] at hminus
  · refine ⟨before, [], numeral 10 v.natAbs, by rw [List.append_assoc], hbefore, hne, hlt, hafter, ?_⟩
    rw [hvalue]
    have hnone : Signed signed v.natAbs [] v.natAbs := .none
    rwa [show (v.natAbs : Int) = v by omega] at hnone

/-- **What was printed is read back**, with any white space around it. -/
theorem toIntegral_toAppend {stack : List UInt8} (hstack : 20 ≤ stack.length) (hrange : InRange signed w v) {before after : List UInt8}
    (hbefore : ∀ c ∈ before, isspace c = true) (hafter : ∀ c ∈ after, isspace c = true) :
    ∃ out, toAppend stack v before = some out ∧ toIntegral signed w (out ++ after) = .ok v := by
  have hbounds : -2 ^ 63 ≤ v ∧ v < 2 ^ 64 := by
    cases w <;> cases signed <;> simp only [InRange, Width.bits, if_true, Bool.false_eq_true, if_false] at hrange <;> omega
  have hdigit : ∀ c ∈ after.head?, isdigit c = false := by
    intro c hc
    by_contra h
    rw [Bool.not_eq_false] at h
    exact absurd (hafter c (List.mem_of_mem_head? hc)) (by rw [isspace_false (.inl h)]; exact Bool.false_ne_true)
  refine ⟨before ++ text v, toAppend_eq hstack hbounds.1 hbounds.2 before, ?_⟩
  rw [List.append_assoc]
  exact toIntegral_of_reads hafter (reads_text hrange hbefore hdigit) hrange

end Parse

theorem toIntegral_toAppend_min : ∃ out, toAppend (List.replicate 20 0) (-2 ^ 63) [9, 32] = some out ∧
    toIntegral true .w64 (out ++ [10]) = .ok (-2 ^ 63) :=
  toIntegral_toAppend (by decide) (by decide) (by simp [isspace]) (by simp [isspace])

end Raster.Conv
