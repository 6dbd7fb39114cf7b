import Mathlib.Algebra.Group.Nat.Defs
import Mathlib.Algebra.GroupWithZero.Nat
import Mathlib.Data.List.TakeDrop
import Mathlib.Logic.Function.Basic
import Mathlib.Tactic.SplitIfs

/-!
# GBK text

The macros and tables of `raster/enc/uconv.h` and `raster/enc/uconv.cpp`, and how a text is read as GBK: a legal
first byte with a legal second byte is one character, an ASCII byte and the euro byte are one each, every other
byte is invalid, and a first byte at the end of the text is half a character.

The tables of the two directions are arguments of everything that uses them.
-/

namespace Raster.Uconv

/-- `UCS2_NO_MAPPING`. -/
def noMapping : UInt16 := 0xfffd

/-- `GBK_EURO`. -/
def gbkEuro : UInt8 := 0x80

/-- `UCS2_EURO`. -/
def ucs2Euro : UInt16 := 0x20ac

/-- `IS_ASCII` of a `char`. -/
def isAscii (c : UInt8) : Bool := c < 0x80

/-- `IS_ASCII` of a code unit. -/
def isAsciiUnit (u : UInt16) : Bool := 0xff80 &&& u == 0

/-- `LEGAL_GBK_FIRST_BYTE`. -/
def legalGbkFirstByte (c : UInt8) : Bool := 0x81 ≤ c && c ≤ 0xfe

/-- `LEGAL_GBK_SECOND_BYTE`. -/
def legalGbkSecondByte (c : UInt8) : Bool := (0x40 ≤ c && c ≤ 0x7e) || (0x80 ≤ c && c ≤ 0xfe)

/-- The type of `gGBKToUnicodeTable`. -/
abbrev GbkTable := Fin 24066 → UInt16

/-- The type of `gUnicodeToGBKTable`, where `0` stands for no mapping. -/
abbrev UnicodeTable := UInt16 → UInt16

def gbkCharToUnicode (table : GbkTable) (a b : UInt8) : UInt16 :=
  let idx := (a.toUInt16 - 0x81) * 0xbf + b.toUInt16 - 0x40
  if h : idx.toNat < 24066 then table ⟨idx.toNat, h⟩ else noMapping

/-- The flags `UCONV_INVCHAR_*`. -/
abbrev Flags := Int32

namespace Flags

def ignore : Flags := 0
def replace : Flags := 1
def error : Flags := 2
def entites : Flags := 4

/-- `flags & flag`. -/
def has (flags flag : Flags) : Bool := flags &&& flag != 0

end Flags

/-- The conversion of a length to the `int` that is returned. -/
def toInt (n : Nat) : Int := Int.bmod n (2 ^ 32)

theorem toInt_of_lt {n : Nat} (h : n < 2 ^ 31) : toInt n = n := by
  unfold toInt
  rw [Int.bmod_eq_of_le] <;> omega

theorem toInt_neg {n : Nat} (hle : 2 ^ 31 ≤ n) (hlt : n < 2 ^ 32) : toInt n < 0 := by
  have h : toInt n = n - 2 ^ 32 := by
    unfold toInt
    rw [Int.bmod_eq_iff (by decide)]
    omega
  omega

theorem toInt_ne_neg_one {n : Nat} (h : n < 2 ^ 32 - 1) : toInt n ≠ -1 := by
  rcases Nat.lt_or_ge n (2 ^ 31) with hlt | hge
  · rw [toInt_of_lt hlt]
    omega
  · unfold toInt
    intro heq
    have := (Int.bmod_eq_iff (by decide)).mp heq
    omega

theorem toInt_le {n : Nat} (h : n < 2 ^ 32) : toInt n ≤ n := by
  rcases Nat.lt_or_ge n (2 ^ 31) with hlt | hge
  · exact Int.le_of_eq (toInt_of_lt hlt)
  · have hneg := toInt_neg hge h
    omega

theorem legalGbkFirstByte_not_isAscii {c : UInt8} (h : legalGbkFirstByte c) : isAscii c = false := by
  simp only [legalGbkFirstByte, isAscii, Bool.and_eq_true, decide_eq_true_eq, decide_eq_false_iff_not,
    UInt8.le_iff_toNat_le, UInt8.lt_iff_toNat_lt, UInt8.toNat_ofNat] at h ⊢
  omega

/-! ### Characters -/

/-- What a text is made of when it is read as GBK. -/
inductive GbkToken where
  | pair (a b : UInt8)
  | ascii (c : UInt8)
  | euro
  | invalid (c : UInt8)
  deriving DecidableEq

namespace GbkToken

/-- A byte that is not the first one of a character of two bytes. -/
def single (c : UInt8) : GbkToken :=
  if isAscii c then ascii c else if c = gbkEuro then euro else invalid c

def isInvalid : GbkToken → Bool
  | invalid _ => true
  | _ => false

/-- The code unit of a character. -/
def codeUnit (table : GbkTable) : GbkToken → Option UInt16
  | pair a b => some (gbkCharToUnicode table a b)
  | ascii c => some c.toUInt16
  | euro => some ucs2Euro
  | invalid _ => none

def bytes : GbkToken → List UInt8
  | pair a b => [a, b]
  | ascii c => [c]
  | euro => [gbkEuro]
  | invalid c => [c]

theorem codeUnit_eq_none {table : GbkTable} {t : GbkToken} : t.codeUnit table = none ↔ t.isInvalid = true := by
  cases t <;> simp [codeUnit, isInvalid]

end GbkToken

/-- The characters and invalid bytes of a text, less half a character at its end. -/
def gbkTokens : List UInt8 → List GbkToken
  | [] => []
  | a :: src =>
    if legalGbkFirstByte a then
      match src with
      | [] => []
      | b :: rest => if legalGbkSecondByte b then .pair a b :: gbkTokens rest else .invalid a :: gbkTokens (b :: rest)
    else .single a :: gbkTokens src

section tokens

variable {a b : UInt8} {src : List UInt8}

@[simp] theorem gbkTokens_nil : gbkTokens [] = [] := rfl

theorem gbkTokens_half (ha : legalGbkFirstByte a = true) : gbkTokens [a] = [] := by
  rw [gbkTokens, if_pos ha]

theorem gbkTokens_pair (ha : legalGbkFirstByte a = true) (hb : legalGbkSecondByte b = true) :
    gbkTokens (a :: b :: src) = .pair a b :: gbkTokens src := by
  rw [gbkTokens, if_pos ha]
  exact if_pos hb

theorem gbkTokens_broken (ha : legalGbkFirstByte a = true) (hb : ¬ legalGbkSecondByte b = true) :
    gbkTokens (a :: b :: src) = .invalid a :: gbkTokens (b :: src) := by
  rw [gbkTokens, if_pos ha]
  exact if_neg hb

theorem gbkTokens_single (ha : ¬ legalGbkFirstByte a = true) :
    gbkTokens (a :: src) = .single a :: gbkTokens src := by
  rw [gbkTokens.eq_def]
  exact if_neg ha

end tokens

end Raster.Uconv
