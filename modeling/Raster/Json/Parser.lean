import Raster.Json.Printer

/-!
# Parsing JSON

`raster/util/json.cpp`, `parseJson` and what it calls. The recursion of `parseValue` is on what is left of the recursion limit, and
each loop has the length of its input as fuel, which it does not use up.
-/

namespace Raster.Json

open Utf8 Conv

/-! ### The input -/

structure Input where
  range : List UInt8
  lineNum : UInt32 := 0

def isOddspace (c : UInt8) : Bool := c == 10 || c == 9 || c == 13

/-- What `++lineNum_` for each newline of a text adds up to. -/
def lines (text : List UInt8) : UInt32 := UInt32.ofNat (text.count 10)

@[simp] theorem lines_nil : lines [] = 0 := rfl

theorem lines_append (text text' : List UInt8) : lines (text ++ text') = lines text + lines text' := by
  rw [lines, List.count_append, UInt32.ofNat_add]
  rfl

theorem lines_eq_zero {text : List UInt8} (h : text.count 10 = 0) : lines text = 0 := by
  rw [lines, h]
  rfl

namespace Input

/-- `*in` where it is not `EOF`. -/
def current (s : Input) : Option UInt8 := s.range.head?

/-- `++in` -/
def next (s : Input) : Input := { s with range := s.range.tail }

def context (s : Input) : List UInt8 := s.range.take 16

def error {α : Type} (s : Input) (what : String) : Except Error α := .error (.parse s.lineNum.toInt32 s.context what)

/-- `skipWhile`: what was skipped, and the input behind it. -/
def skipWhile (p : UInt8 → Bool) (s : Input) : List UInt8 × Input :=
  (s.range.takeWhile p, { range := s.range.dropWhile p, lineNum := s.lineNum + lines (s.range.takeWhile p) })

def skipDigits (s : Input) : List UInt8 × Input := s.skipWhile isdigit

def skipMinusAndDigits (s : Input) : List UInt8 × Input :=
  match s.range with
  | 45 :: cs =>
    let (digits, rest) := skipDigits { s with range := cs }
    (45 :: digits, rest)
  | _ => s.skipDigits

/-- `ltrimWhitespace`; lines are not counted here. -/
def skipWhitespace (s : Input) : Input := { s with range := s.range.dropWhile fun c => c == 32 || isOddspace c }

def expect (c : UInt8) (s : Input) : Except Error Input :=
  if s.current = some c then .ok s.next else s.error ("expected '" ++ (Char.ofNat c.toNat).toString ++ "'")

/-- `consume`: the input behind a text, if it begins with it. -/
def consume (text : List UInt8) (s : Input) : Option Input :=
  if text.isPrefixOf s.range then some { s with range := s.range.drop text.length } else none

end Input

/-! ### Strings -/

def hexDigitValue (c : UInt8) : Option Nat :=
  if isdigit c then some (c.toNat - 48)
  else if 97 ≤ c ∧ c ≤ 102 then some (c.toNat - 97 + 10)
  else if 65 ≤ c ∧ c ≤ 70 then some (c.toNat - 65 + 10)
  else none

def hexVal (s : Input) : Except Error Nat :=
  match s.current.bind hexDigitValue with
  | some h => .ok h
  | none => s.error "invalid hex digit"

def readHex (s : Input) : Except Error (Nat × Input) := do
  if s.range.length < 4 then s.error "expected 4 hex digits"
  else
    let h₀ ← hexVal s
    let h₁ ← hexVal s.next
    let h₂ ← hexVal s.next.next
    let h₃ ← hexVal s.next.next.next
    return (h₀ * 4096 + h₁ * 256 + h₂ * 16 + h₃, s.next.next.next.next)

def decodeUnicodeEscape (s : Input) : Except Error (List UInt8 × Input) := do
  let (codePoint, s) ← readHex s
  if 0xd800 ≤ codePoint ∧ codePoint ≤ 0xdbff then
    match s.consume [92, 117] with
    | none => s.error "expected another unicode escape for second half of surrogate pair"
    | some s =>
      let (second, s) ← readHex s
      if 0xdc00 ≤ second ∧ second ≤ 0xdfff then
        return (codePointToUtf8 (UInt32.ofNat (0x10000 + (codePoint % 0x400) * 0x400 + second % 0x400)), s)
      else s.error "second character in surrogate pair is invalid"
  else if 0xdc00 ≤ codePoint ∧ codePoint ≤ 0xdfff then s.error "invalid unicode code point (in range [0xdc00,0xdfff])"
  else return (codePointToUtf8 (UInt32.ofNat codePoint), s)

/-- The number that `*in` prints as. -/
def currentInt (s : Input) : Int :=
  match s.current with
  | some c => if c < 128 then c.toNat else c.toNat - 256
  | none => -1

/-- The escapes of one character. -/
def unescape (c : UInt8) : Option UInt8 :=
  if c = 34 ∨ c = 92 ∨ c = 47 then some c
  else if c = 98 then some 8 else if c = 102 then some 12 else if c = 110 then some 10 else if c = 114 then some 13
  else if c = 116 then some 9 else none

/-- What is behind a backslash. -/
def parseEscape (s : Input) : Except Error (List UInt8 × Input) :=
  match s.current with
  | some 117 => decodeUnicodeEscape s.next
  | some c =>
    match unescape c with
    | some c => .ok ([c], s.next)
    | none => s.error ("unknown escape " ++ toString (currentInt s) ++ " in string")
  | none => s.error ("unknown escape " ++ toString (currentInt s) ++ " in string")

def stringLoop : (fuel : Nat) → (ret : List UInt8) → Input → Except Error (List UInt8 × Input)
  | 0, _, _ => .error .stuck
  | fuel + 1, ret, s =>
    let (range, s) := s.skipWhile fun c => c != 34 && c != 92
    let ret := ret ++ range
    match s.current with
    | some 34 => .ok (ret, s.next)
    | some 92 => do
      let (out, s) ← parseEscape s.next
      stringLoop fuel (ret ++ out) s
    | none => s.error "unterminated string"
    -- a byte that is `EOF` as an `int`
    | some 255 => s.error "unterminated string"
    | some 0 => s.error "null byte in string"
    | some c => stringLoop fuel (ret ++ [c]) s.next

/-- `parseString`, at the quote. -/
def parseString (s : Input) : Except Error (List UInt8 × Input) := stringLoop s.range.length [] s.next

/-! ### Numbers -/

section Values

variable {D : Type} (d : Doubles D) (opts : SerializationOpts)

def infinityText : List UInt8 := [73, 110, 102, 105, 110, 105, 116, 121]

/-- The digits of the largest and, behind its sign, of the smallest `int64_t`. -/
def maxInt : List UInt8 := [57, 50, 50, 51, 51, 55, 50, 48, 51, 54, 56, 53, 52, 55, 55, 53, 56, 48, 55]

@[inherit_doc maxInt]
def minInt : List UInt8 := [45, 57, 50, 50, 51, 51, 55, 50, 48, 51, 54, 56, 53, 52, 55, 55, 53, 56, 48, 56]

def ofRange {α : Type} (x : Except RangeError α) : Except Error α := x.mapError .range

/-- Whether digits are read as an integer. -/
def readsInt (negative : Bool) (integral : List UInt8) : Bool :=
  (!opts.doubleFallback || integral.length < maxInt.length) ||
    (!negative && integral.length == maxInt.length && strncmpLe integral maxInt) ||
    (negative && integral.length == minInt.length && strncmpLe integral minInt)

/-- `*in == 'e' || *in == 'E'` -/
def atExponent (s : Input) : Prop := s.current = some 101 ∨ s.current = some 69

instance (s : Input) : Decidable (atExponent s) := inferInstanceAs (Decidable (s.current = some 101 ∨ s.current = some 69))

def skipSign (s : Input) : List UInt8 × Input :=
  if s.current = some 43 ∨ s.current = some 45 then (s.range.take 1, s.next) else ([], s)

def skipExponent (s : Input) : List UInt8 × Input :=
  if atExponent s then
    let (sign, s') := skipSign s.next
    let (expPart, s') := s'.skipDigits
    (s.range.take 1 ++ sign ++ expPart, s')
  else ([], s)

/-- The rest of a number behind its integral part, where it has a fraction or an exponent. -/
def skipFraction (s : Input) : List UInt8 × Input :=
  if atExponent s then skipExponent s
  else
    let (digits, s') := s.next.skipDigits
    let (exponent, s') := skipExponent s'
    (s.range.take 1 ++ digits ++ exponent, s')

def parseNumber (s : Input) : Except Error (Dynamic D × Input) :=
  let negative := s.current == some 45
  match if negative then s.consume (45 :: infinityText) else none with
  | some s => .ok (if opts.parseNumbersAsStrings then .string (45 :: infinityText) else .double d.negInfinity, s)
  | none =>
    let (integral, s) := s.skipMinusAndDigits
    if negative ∧ integral.length < 2 then s.error "expected digits after \x60-'"
    else if s.current ≠ some 46 ∧ ¬atExponent s then
      if opts.parseNumbersAsStrings then .ok (.string integral, s)
      else if readsInt opts negative integral then do
        let val ← ofRange (toIntegral true .w64 integral)
        return (.int64 (Int64.ofInt val), s.skipWhitespace)
      else do
        let val ← ofRange (d.parse integral)
        return (.double val, s.skipWhitespace)
    else
      let (fraction, s) := skipFraction s
      if opts.parseNumbersAsStrings then .ok (.string (integral ++ fraction), s)
      else do
        let val ← ofRange (d.parse (integral ++ fraction))
        return (.double val, s)

/-! ### Values -/

/-- How a hash table orders its items. -/
structure HashOrder (D : Type) where
  order : List (List UInt8 × Dynamic D) → List (List UInt8 × Dynamic D)
  perm : ∀ items, (order items).Perm items

variable (hash : HashOrder D)

/-- The value of a key that is there is overwritten. -/
def assign (key : List UInt8) (value : Dynamic D) (items : List (List UInt8 × Dynamic D)) : List (List UInt8 × Dynamic D) :=
  items.map fun p => if p.1 = key then (key, value) else p

/-- `dynamic::insert` -/
def insert (key : List UInt8) (value : Dynamic D) (items : List (List UInt8 × Dynamic D)) : List (List UInt8 × Dynamic D) :=
  if (Dynamic.find key items).isSome then assign key value items else hash.order (items ++ [(key, value)])

/-- The loop of `parseArray`. -/
def arrayLoop (value : Input → Except Error (Dynamic D × Input)) :
    (fuel : Nat) → (ret : List (Dynamic D)) → Input → Except Error (Dynamic D × Input)
  | 0, _, _ => .error .stuck
  | fuel + 1, ret, s =>
    if opts.allowTrailingComma ∧ s.current = some 93 then do
      let s ← s.expect 93
      return (.array ret, s)
    else do
      let (v, s) ← value s
      let s := s.skipWhitespace
      if s.current = some 44 then arrayLoop value fuel (ret ++ [v]) s.next.skipWhitespace
      else
        let s ← s.expect 93
        return (.array (ret ++ [v]), s)

def parseArray (value : Input → Except Error (Dynamic D × Input)) (s : Input) : Except Error (Dynamic D × Input) :=
  let s := s.next.skipWhitespace
  if s.current = some 93 then .ok (.array [], s.next) else arrayLoop opts value (s.range.length + 1) [] s

/-- The loop of `parseObject`. -/
def objectLoop (value : Input → Except Error (Dynamic D × Input)) :
    (fuel : Nat) → (ret : List (List UInt8 × Dynamic D)) → Input → Except Error (Dynamic D × Input)
  | 0, _, _ => .error .stuck
  | fuel + 1, ret, s =>
    if opts.allowTrailingComma ∧ s.current = some 125 then do
      let s ← s.expect 125
      return (.object ret, s)
    else if s.current = some 34 then do
      let (key, s) ← parseString s
      let s ← s.skipWhitespace.expect 58
      let (v, s) ← value s.skipWhitespace
      let s := s.skipWhitespace
      if s.current = some 44 then objectLoop value fuel (insert hash key v ret) s.next.skipWhitespace
      else
        let s ← s.expect 125
        return (.object (insert hash key v ret), s)
    -- the branch behind it is for `allow_non_string_keys`
    else s.error "expected string for object key name"

def parseObject (value : Input → Except Error (Dynamic D × Input)) (s : Input) : Except Error (Dynamic D × Input) :=
  let s := s.next.skipWhitespace
  if s.current = some 125 then .ok (.object [], s.next) else objectLoop opts hash value (s.range.length + 1) [] s

/-- The values that are written as words. -/
def parseWord (s : Input) : Except Error (Dynamic D × Input) :=
  match s.consume [116, 114, 117, 101] with
  | some s => .ok (.bool true, s)
  | none =>
  match s.consume [102, 97, 108, 115, 101] with
  | some s => .ok (.bool false, s)
  | none =>
  match s.consume [110, 117, 108, 108] with
  | some s => .ok (.nullt, s)
  | none =>
  match s.consume infinityText with
  | some s => .ok (if opts.parseNumbersAsStrings then .string infinityText else .double d.infinity, s)
  | none =>
  match s.consume [78, 97, 78] with
  | some s => .ok (if opts.parseNumbersAsStrings then .string [78, 97, 78] else .double d.quietNaN, s)
  | none => s.error "expected json value"

/-- `parseValue`, when it may still be entered so often. -/
def parseValue : (levels : Nat) → Input → Except Error (Dynamic D × Input)
  | 0, s => s.error "recursion limit exceeded"
  | levels + 1, s =>
    let s := s.skipWhitespace
    match s.current with
    | some 91 => parseArray opts (parseValue levels) s
    | some 123 => parseObject opts hash (parseValue levels) s
    | some 34 => do
      let (ret, s) ← parseString s
      return (.string ret, s)
    | c => if c = some 45 ∨ c.any isdigit then parseNumber d opts s else parseWord d opts s

def parseJson (range : List UInt8) : Except Error (Dynamic D) := do
  let (ret, s) ← parseValue d opts hash (opts.recursionLimit + 1) { range }
  let s := s.skipWhitespace
  if s.range ≠ [] ∧ s.current ≠ some 0 then s.error "parsing didn't consume all input" else return ret

end Values

end Raster.Json
