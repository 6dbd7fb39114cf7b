import Raster.Enc.PropertyFile
import Mathlib.Data.List.Nodup
import Mathlib.Logic.Function.Basic

/-!
# The compiler of character properties

`CharProperty::compile` of `raster/enc/CharProperty.cpp`. A configuration has lines that define categories and lines
that give a range of code points some categories. The compiler writes a file with a word for each code point, in
which `encode` has set the bits of its categories.
-/

namespace Raster

/-- `StringPiece`: the memory from its first byte on, and its size. -/
structure StringPiece where
  start : List UInt8
  size : Nat

namespace StringPiece

def bytes (p : StringPiece) : List UInt8 := p.start.take p.size

def find (p : StringPiece) (c : UInt8) : Option Nat := p.bytes.findIdx? (· == c)

/-- `subpiece` from the first byte on, with `none` for `npos`. -/
def subpiece (p : StringPiece) (length : Option Nat) : StringPiece := ⟨p.start, min (length.getD p.size) p.size⟩

/-- A piece goes to the output of `split` unless it is empty and empty ones are ignored. -/
def emit (ignoreEmpty : Bool) (token : StringPiece) (out : List StringPiece) : List StringPiece :=
  if ignoreEmpty && token.size == 0 then out else token :: out

/-- The loop of `internalSplit` with `n` bytes left from `cur` on, the first `skip` of which are of a delimiter. -/
def splitLoop (delim : List UInt8) (ignoreEmpty : Bool) :
    (n : Nat) → (skip : Nat) → (cur : List UInt8) → (token : StringPiece) → List StringPiece
  | 0, _, _, token => emit ignoreEmpty token []
  | n + 1, skip + 1, cur, token => splitLoop delim ignoreEmpty n skip cur.tail token
  | n + 1, 0, cur, token =>
    if delim.length ≤ n + 1 ∧ delim <+: cur then
      emit ignoreEmpty token (splitLoop delim ignoreEmpty n (delim.length - 1) cur.tail ⟨cur.drop delim.length, 0⟩)
    else splitLoop delim ignoreEmpty n 0 cur.tail ⟨token.start, token.size + 1⟩

def split (delim : List UInt8) (p : StringPiece) (ignoreEmpty : Bool) : List StringPiece :=
  splitLoop delim ignoreEmpty p.size 0 p.start ⟨p.start, 0⟩

end StringPiece

/-- The bytes that `trimWhitespace` drops. -/
def isWhitespace (c : UInt8) : Bool := c == 0x20 || c == 0x0a || c == 0x09 || c == 0x0d

def trimWhitespace (text : List UInt8) : List UInt8 :=
  (text.reverse.dropWhile isWhitespace).reverse.dropWhile isWhitespace

namespace CharProperty

def unhex (c : UInt8) : Int :=
  if 0x30 ≤ c ∧ c ≤ 0x39 then c.toNat - 0x30
  else if 0x61 ≤ c ∧ c ≤ 0x66 then c.toNat - 0x61 + 10
  else if 0x41 ≤ c ∧ c ≤ 0x46 then c.toNat - 0x41 + 10
  else -1

/-- `readHex`, which reads four digits at their places, also behind the end of the piece. -/
def readHex (s : StringPiece) : UInt16 :=
  UInt16.ofInt (unhex (s.start.getD 2 0) * 4096 + unhex (s.start.getD 3 0) * 256 + unhex (s.start.getD 4 0) * 16 +
    unhex (s.start.getD 5 0))

structure CharRange where
  l : UInt16
  h : UInt16
  c : List (List UInt8)

def CharRange.Contains (range : CharRange) (c : UInt16) : Prop := range.l ≤ c ∧ c ≤ range.h

instance (range : CharRange) (c : UInt16) : Decidable (range.Contains c) := inferInstanceAs (Decidable (_ ∧ _))

/-- A line of a range. It starts with `0x`, so there is a first column, and the column has a first part. -/
def parseCharRangeFromLine (line : StringPiece) : CharRange :=
  match line.split [0x20] true with
  | [] => ⟨0, 0, []⟩
  | col :: cols =>
    let v := col.split [0x2e, 0x2e] false
    let l := readHex (v.getD 0 col)
    let h := if 1 < v.length then readHex (v.getD 1 col) else l
    if 0xffff ≤ l ∨ 0xffff ≤ h ∨ h < l then ⟨l, h, []⟩ else ⟨l, h, cols.map StringPiece.bytes⟩

/-- What the lines of a configuration give: the categories in order and the ranges. -/
structure Conf where
  carray : List (List UInt8)
  ranges : List CharRange
  nodup : carray.Nodup
  short : ∀ c ∈ carray, c.length < maxCategoryStrlen

/-- `cmap`, which maps the category of number `i` to `CharInfo(i)`. -/
def Conf.cmap (conf : Conf) (c : List UInt8) : Option CharInfo := (conf.carray.idxOf? c).map .ofPos

theorem nodup_concat {carray : List (List UInt8)} (h : carray.Nodup) {c : List UInt8} (hc : ¬ (carray.idxOf? c).isSome) :
    (carray ++ [c]).Nodup := by
  have hnot : c ∉ carray := by simpa using hc
  rw [List.nodup_append]
  refine ⟨h, List.nodup_singleton c, fun a ha b hb => ?_⟩
  rintro rfl
  exact hnot (List.mem_singleton.mp hb ▸ ha)

theorem short_concat {carray : List (List UInt8)} (h : ∀ c ∈ carray, c.length < maxCategoryStrlen) {c : List UInt8}
    (hc : ¬ maxCategoryStrlen ≤ c.length) : ∀ x ∈ carray ++ [c], x.length < maxCategoryStrlen := by
  intro x hx
  rcases List.mem_append.mp hx with hx | hx
  · exact h x hx
  · rw [List.mem_singleton.mp hx]
    exact Nat.lt_of_not_le hc

/-- One line. -/
def parseLine (conf : Conf) (text : StringPiece) : Option Conf :=
  let line := text.subpiece (text.find 0x23)
  if line.size = 0 then some conf
  else if (line.subpiece (some 2)).bytes ≠ [0x30, 0x78] then
    let c := trimWhitespace line.bytes
    if hlen : maxCategoryStrlen ≤ c.length then none
    else if hdup : (conf.carray.idxOf? c).isSome then none
    else some ⟨conf.carray ++ [c], conf.ranges, nodup_concat conf.nodup hdup, short_concat conf.short hlen⟩
  else
    let range := parseCharRangeFromLine line
    if range.c = [] then some conf else some { conf with ranges := conf.ranges ++ [range] }

/-- The lines of a text with `NUL` and other memory behind it. -/
def parse (text behind : List UInt8) : Option Conf :=
  (StringPiece.split [0x0a] ⟨text ++ 0 :: behind, text.length⟩ false).foldlM parseLine ⟨[], [], List.nodup_nil, nofun⟩

/-- The loop of `encode`: a category that is not defined ends it. -/
def encodeLoop (conf : Conf) : List (List UInt8) → CharInfo → CharInfo
  | [], base => base
  | i :: c, base =>
    match conf.cmap i with
    | none => base
    | some info => encodeLoop conf c (base + info)

def encode (conf : Conf) (c : List (List UInt8)) : CharInfo := encodeLoop conf c 0

/-- The table of code points. -/
abbrev Table := UInt16 → CharInfo

/-- The loop over the code points of a range. -/
def addRange (conf : Conf) (table : Table) (range : CharRange) : Table :=
  fun c => if range.Contains c then table c ||| encode conf range.c else table c

def ucs2Table (conf : Conf) : Table := conf.ranges.foldl (addRange conf) fun _ => 0

/-- The first `n` turns of the loop that builds `gbk_table`. -/
def gbkTableUpTo (unicodeToGbk : UInt16 → UInt16) (table : Table) : Nat → Table
  | 0 => fun _ => 0
  | n + 1 => Function.update (gbkTableUpTo unicodeToGbk table n) (unicodeToGbk (UInt16.ofNat n)) (table (UInt16.ofNat n))

def gbkTable (unicodeToGbk : UInt16 → UInt16) (table : Table) : Table := gbkTableUpTo unicodeToGbk table 0xffff

/-- What `compile` writes, with the configuration that it comes from. -/
structure Compiled where
  conf : Conf
  table : Table

def compile (unicodeToGbk : UInt16 → UInt16) (text behind : List UInt8) (charset : String) : Option Compiled :=
  (parse text behind).bind fun conf =>
    if charset = "gbk" then some ⟨conf, gbkTable unicodeToGbk (ucs2Table conf)⟩
    else if charset = "ucs2" then some ⟨conf, ucs2Table conf⟩
    else none

/-- The file. -/
def Compiled.file (out : Compiled) : List UInt8 :=
  le32 (UInt32.ofNat out.conf.carray.length) ++
    out.conf.carray.flatMap (fun c => c ++ List.replicate (maxCategoryStrlen - c.length) 0) ++
    (List.range 0xffff).flatMap fun c => le32 (out.table (UInt16.ofNat c))

section

variable {unicodeToGbk : UInt16 → UInt16} {text behind : List UInt8} {conf : Conf}

theorem compile_ucs2 (h : parse text behind = some conf) :
    compile unicodeToGbk text behind "ucs2" = some ⟨conf, ucs2Table conf⟩ := by
  rw [compile, h]
  rfl

theorem compile_gbk (h : parse text behind = some conf) :
    compile unicodeToGbk text behind "gbk" = some ⟨conf, gbkTable unicodeToGbk (ucs2Table conf)⟩ := by
  rw [compile, h]
  rfl

theorem exists_conf_of_compile {charset : String} {out : Compiled} (h : compile unicodeToGbk text behind charset = some out) :
    ∃ conf, parse text behind = some conf := by
  obtain ⟨conf, hconf, -⟩ := Option.bind_eq_some_iff.mp h
  exact ⟨conf, hconf⟩

end

/-- A configuration with the category `A` and one range. -/
def oneRange (l h : UInt16) (c : List (List UInt8)) : Conf := ⟨[[0x41]], [⟨l, h, c⟩], List.nodup_singleton _, by decide⟩

theorem parse_oneRange_letter :
    parse [0x41, 0x0a, 0x30, 0x78, 0x30, 0x30, 0x34, 0x31, 0x20, 0x41] [] = some (oneRange 0x41 0x41 [[0x41]]) := rfl

end CharProperty

end Raster
