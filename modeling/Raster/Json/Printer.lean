import Raster.Util.CodePoint
import Raster.Util.Conv

/-!
# Printing JSON

`raster/util/json.cpp`, `serialize` and `escapeString`, for the values of `raster/util/dynamic.h` whose keys are strings. The items of
an object stand in the order in which its hash table is iterated. The conversions of `double` are those of a library.
-/

namespace Raster.Json

open Utf8 Conv

/-! ### Values -/

/-- A `dynamic`; the keys of an object are strings. -/
inductive Dynamic (D : Type)
  | nullt
  | bool (b : Bool)
  | int64 (i : Int64)
  | double (d : D)
  | string (s : List UInt8)
  | array (vs : List (Dynamic D))
  | object (items : List (List UInt8 × Dynamic D))

/-- What the code does with a `double`. -/
structure Doubles (D : Type) where
  toAppend : D → List UInt8
  parse : List UInt8 → Except RangeError D
  isnan : D → Bool
  isinf : D → Bool
  infinity : D
  negInfinity : D
  quietNaN : D
  ofInt : Int64 → D
  toInt : D → Int64
  beq : D → D → Bool

/-- The options; `allow_non_string_keys` is off. -/
structure SerializationOpts where
  javascriptSafe : Bool := false
  prettyFormatting : Bool := false
  encodeNonAscii : Bool := false
  validateUtf8 : Bool := false
  allowTrailingComma : Bool := false
  sortKeys : Bool := false
  skipInvalidUtf8 : Bool := false
  allowNanInf : Bool := false
  doubleFallback : Bool := false
  parseNumbersAsStrings : Bool := false
  recursionLimit : Nat := 100

/-- What is thrown; `stuck` is for a loop that has run out of its fuel, or a buffer that is too small. -/
inductive Error
  | parse (line : Int32) (context : List UInt8) (expected : String)
  | runtime (message : String)
  | range (e : RangeError)
  | stuck
  deriving DecidableEq, Repr

namespace Dynamic

variable {D : Type}

/-- `find` in the table of an object. -/
def find (key : List UInt8) : List (List UInt8 × Dynamic D) → Option (Dynamic D)
  | [] => none
  | (k, v) :: items => if k = key then some v else find key items

mutual

/-- `dynamic::operator==`. -/
def eq (d : Doubles D) : Dynamic D → Dynamic D → Bool
  | .nullt, .nullt => true
  | .bool b, .bool b' => b == b'
  | .int64 i, .int64 i' => i == i'
  | .double x, .double x' => d.beq x x'
  | .int64 i, .double x => d.beq (d.ofInt i) x
  | .double x, .int64 i => d.beq (d.ofInt i) x
  | .string s, .string s' => s == s'
  | .array vs, .array vs' => eqArrays d vs vs'
  | .object items, .object items' => items.length == items'.length && eqItems d items items'
  | _, _ => false

def eqArrays (d : Doubles D) : List (Dynamic D) → List (Dynamic D) → Bool
  | [], [] => true
  | v :: vs, v' :: vs' => eq d v v' && eqArrays d vs vs'
  | _, _ => false

def eqItems (d : Doubles D) : List (List UInt8 × Dynamic D) → List (List UInt8 × Dynamic D) → Bool
  | [], _ => true
  | (k, v) :: items, items' =>
    (match find k items' with
      | some v' => eq d v v'
      | none => false) && eqItems d items items'

end

end Dynamic

/-! ### Strings -/

/-- `decodeUtf8` at the start of a text, a copy of `utf8ToCodePoint` with its own messages: the code point and
its length. -/
def decodeUtf8 (s : List UInt8) (skipOnError : Bool) : Except Error (UInt32 × Nat) :=
  (utf8ToCodePoint s 0 skipOnError).mapError fun message => .runtime (message.replace "utf8ToCodePoint" "decodeUtf8")

def hexDigit (c : Nat) : UInt8 := UInt8.ofNat (if c < 10 then c + 48 else c - 10 + 97)

/-- The character for a byte that has an escape of its own. -/
def shortEscape (c : UInt8) : Option UInt8 :=
  if c = 8 then some 98 else if c = 12 then some 102 else if c = 10 then some 110 else if c = 13 then some 114
  else if c = 9 then some 116 else none

/-- One byte that is not part of an encoded code point. -/
def escapeByte (c : UInt8) : List UInt8 :=
  if c = 92 ∨ c = 34 then [92, c]
  else if c ≤ 0x1f then
    match shortEscape c with
    | some e => [92, e]
    | none => [92, 117, 48, 48, hexDigit ((c &&& 0xf0) >>> 4).toNat, hexDigit (c &&& 0xf).toNat]
  else [c]

def escapeCodePoint (v : UInt32) : List UInt8 :=
  [92, 117, hexDigit (v >>> 12).toNat, hexDigit (v >>> 8 &&& 0x0f).toNat, hexDigit (v >>> 4 &&& 0x0f).toNat,
    hexDigit (v &&& 0x0f).toNat]

/-- The bytes at `p` are copied, escaped where they have to be: the text for them, how many they are, and what
is left of `ahead`. -/
def copyStep (opts : SerializationOpts) (ahead : Nat) (c : UInt8) (cs : List UInt8) : Except Error (List UInt8 × Nat × Nat) :=
  if opts.encodeNonAscii && c &&& 0x80 ≠ 0 then do
    let (v, n) ← decodeUtf8 (c :: cs) opts.skipInvalidUtf8
    return (escapeCodePoint v, n, 0)
  else .ok (escapeByte c, 1, ahead - 1)

/-- A turn of the loop of `escapeString` at `p`; `ahead` is `q - p`, how far the text is known to be valid. -/
def escapeStep (opts : SerializationOpts) (ahead : Nat) (c : UInt8) (cs : List UInt8) : Except Error (List UInt8 × Nat × Nat) :=
  if (opts.validateUtf8 || opts.skipInvalidUtf8) && !opts.encodeNonAscii && ahead = 0 then do
    let (v, n) ← decodeUtf8 (c :: cs) opts.skipInvalidUtf8
    if opts.skipInvalidUtf8 && v = 0xfffd then return ([0xef, 0xbf, 0xbd], n, 0) else copyStep opts n c cs
  else copyStep opts ahead c cs

def escapeLoop (opts : SerializationOpts) : (fuel ahead : Nat) → List UInt8 → Except Error (List UInt8)
  | _, _, [] => .ok []
  | 0, _, _ :: _ => .error .stuck
  | fuel + 1, ahead, c :: cs => do
    let (text, n, ahead') ← escapeStep opts ahead c cs
    return text ++ (← escapeLoop opts fuel ahead' ((c :: cs).drop n))

def escapeString (opts : SerializationOpts) (input : List UInt8) : Except Error (List UInt8) := do
  return [34] ++ (← escapeLoop opts input.length 0 input) ++ [34]

/-! ### Values as text -/

section Printer

variable {D : Type} (d : Doubles D) (opts : SerializationOpts)

/-- `newline`; the level is `none` where nothing is indented. -/
def newline : Option Nat → List UInt8
  | none => []
  | some level => 10 :: List.replicate (level * 2) 32

def mapColon (level : Option Nat) : List UInt8 := if level.isSome then [32, 58, 32] else [58]

/-- `to<double>` of an integer. -/
def toDouble (i : Int64) : Except Error D :=
  if i ≠ d.toInt (d.ofInt i) then
    .error (.range { message := s!"to<>: loss of precision when converting {i.toInt} to other type", src := [] })
  else .ok (d.ofInt i)

/-- What is printed of an integer. -/
def intValue (i : Int64) : Except Error Int64 := if opts.javascriptSafe then (toDouble d i).map d.toInt else .ok i

def printInt (i : Int64) : Except Error (List UInt8) := do
  let intval ← intValue d opts i
  match Conv.toAppend (List.replicate 20 0) intval.toInt [] with
  | some out => .ok out
  | none => .error .stuck

/-- The texts one behind the other, with a comma and a new line between them. -/
def joined (level : Option Nat) : List (Except Error (List UInt8)) → Except Error (List UInt8)
  | [] => .ok []
  | text :: texts => do
    let out ← text
    return [44] ++ newline level ++ out ++ (← joined level texts)

/-- The part between the brackets, at the next level. -/
def enclosed (level : Option Nat) (first last : UInt8) : List (Except Error (List UInt8)) → Except Error (List UInt8)
  | [] => .ok [first, last]
  | text :: texts => do
    let inner := level.map (· + 1)
    let out ← text
    return [first] ++ newline inner ++ out ++ (← joined inner texts) ++ newline level ++ [last]

/-- `printKV`, which throws at a key that is no string: a `Dynamic` has none. -/
def printKV (level : Option Nat) (key : List UInt8) (value : Except Error (List UInt8)) : Except Error (List UInt8) := do
  return (← escapeString opts key) ++ mapColon level ++ (← value)

/-- `printObject`, from the items with their printed values. -/
def printObject (level : Option Nat) (items : List (List UInt8 × Except Error (List UInt8))) : Except Error (List UInt8) :=
  let items := if opts.sortKeys then
      items.mergeSort fun p q => Lib.lexLe (p.1.map UInt8.toNat) (q.1.map UInt8.toNat)
    else items
  enclosed level 123 125 (items.map fun p => printKV opts level p.1 p.2)

mutual

def print (level : Option Nat) : Dynamic D → Except Error (List UInt8)
  | .double x =>
    if !opts.allowNanInf && (d.isnan x || d.isinf x) then .error (.runtime "rdd::toJson: JSON object value was a NaN or INF")
    else .ok (d.toAppend x)
  | .int64 i => printInt d opts i
  | .bool b => .ok (if b then [116, 114, 117, 101] else [102, 97, 108, 115, 101])
  | .nullt => .ok [110, 117, 108, 108]
  | .string s => escapeString opts s
  | .object items => printObject opts level (printItems (level.map (· + 1)) items)
  | .array vs => enclosed level 91 93 (printValues (level.map (· + 1)) vs)

def printValues (level : Option Nat) : List (Dynamic D) → List (Except Error (List UInt8))
  | [] => []
  | v :: vs => print level v :: printValues level vs

def printItems (level : Option Nat) : List (List UInt8 × Dynamic D) → List (List UInt8 × Except Error (List UInt8))
  | [] => []
  | (k, v) :: items => (k, print level v) :: printItems level items

end

def serialize (v : Dynamic D) : Except Error (List UInt8) := print d opts (if opts.prettyFormatting then some 0 else none) v

end Printer

end Raster.Json
