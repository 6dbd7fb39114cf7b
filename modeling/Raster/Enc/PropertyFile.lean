import Mathlib.Algebra.Group.Nat.Defs
import Mathlib.Data.List.TakeDrop
import Mathlib.Tactic.SplitIfs

/-!
# Character property files

`CharInfo` and the reading side of `CharProperty` of `raster/enc/CharProperty.h`: a file holds the number of
categories, `MAX_CATEGORY_STRLEN` bytes for each of their names, and a table of `0xffff` words, one for each code
point. Pointers into the file are offsets.

`open` computes the expected size in words of 32 bits, and the table has no word for the last code unit.
-/

namespace Raster

/-- `CharInfo`: a set of categories, one bit for each. -/
abbrev CharInfo := UInt32

/-- `CharInfo(size_t)`. The position of the bit is taken modulo 32, as the shift instruction does. -/
def CharInfo.ofPos (pos : Nat) : CharInfo := 0 ||| ((1 : UInt32) <<< UInt32.ofNat pos)

def CharInfo.isKindOf (info ci : CharInfo) : Bool := info &&& ci != 0

/-- `MAX_CATEGORY_STRLEN`. -/
def maxCategoryStrlen : Nat := 32

/-- The bytes of a word in memory. -/
def le32 (x : UInt32) : List UInt8 :=
  [UInt8.ofNat x.toNat, UInt8.ofNat (x.toNat / 2 ^ 8), UInt8.ofNat (x.toNat / 2 ^ 16), UInt8.ofNat (x.toNat / 2 ^ 24)]

def ofLe32 : List UInt8 → UInt32
  | [a, b, c, d] => UInt32.ofNat (a.toNat + 2 ^ 8 * b.toNat + 2 ^ 16 * c.toNat + 2 ^ 24 * d.toNat)
  | _ => 0

theorem ofLe32_le32 (x : UInt32) : ofLe32 (le32 x) = x := by
  have hx := x.toNat_lt
  apply UInt32.toNat_inj.mp
  simp only [le32, ofLe32, UInt8.toNat_ofNat', UInt32.toNat_ofNat']
  omega

/-- `CharProperty`, with the offsets of its pointers. -/
structure CharProperty where
  data : List UInt8
  categories : List UInt32
  map : UInt32

namespace CharProperty

/-- The loop that collects the categories, with the offset behind them. -/
def collect : Nat → UInt32 → List UInt32 × UInt32
  | 0, offset => ([], offset)
  | n + 1, offset => (offset :: (collect n (offset + 32)).1, (collect n (offset + 32)).2)

/-- The first word of the file, with the memory behind the file where it is shorter than that. -/
def count (data behind : List UInt8) : UInt32 := ofLe32 ((data ++ behind).take 4)

/-- The size that a file with `n` categories must have; the sum of the first two terms is one of 32 bits. -/
def fileSize (n : UInt32) : Nat := (4 + 32 * n).toNat + 4 * 0xffff

/-- `open`, after the file has been read into `data`. -/
def openFile (data behind : List UInt8) : Option CharProperty :=
  let n := count data behind
  if data.length ≠ fileSize n then none
  else some ⟨data, (collect n.toNat 4).1, (collect n.toNat 4).2⟩

/-- The word at an offset, if it is inside of the file. -/
def wordAt (data : List UInt8) (offset : Nat) : Option UInt32 :=
  if offset + 4 ≤ data.length then some (ofLe32 ((data.drop offset).take 4)) else none

/-- `getCharInfo` of a code unit. -/
def getCharInfo (p : CharProperty) (cp : UInt16) : Option CharInfo := wordAt p.data (p.map.toNat + 4 * cp.toNat)

/-- `name`: the string at a pointer goes up to the first `NUL`. -/
def name (p : CharProperty) (offset : UInt32) : List UInt8 := (p.data.drop offset.toNat).takeWhile (· ≠ 0)

/-- `id`, with `none` for `SIZE_MAX`. -/
def id (p : CharProperty) (key : List UInt8) : Option Nat :=
  p.categories.findIdx? fun offset => p.name offset = key.takeWhile (· ≠ 0)

/-- `getCharInfo` of the name of a category. -/
def getKeyInfo (p : CharProperty) (key : List UInt8) : CharInfo :=
  match p.id key with
  | some i => .ofPos i
  | none => 0

/-! ### Bounds -/

/-- The names of the categories and all words that `getCharInfo` may read are inside of the file. -/
structure InBounds (p : CharProperty) : Prop where
  categories : ∀ offset ∈ p.categories, offset.toNat + maxCategoryStrlen ≤ p.data.length
  entries : ∀ cp : UInt16, p.map.toNat + 4 * cp.toNat + 4 ≤ p.data.length

theorem collect_snd (n : Nat) (offset : UInt32) : (collect n offset).2 = offset + 32 * UInt32.ofNat n := by
  induction n generalizing offset with
  | zero => simp [collect]
  | succ n ih =>
    rw [collect, ih, UInt32.ofNat_add]
    grind

theorem openFile_eq_some_iff {data behind : List UInt8} {p : CharProperty} :
    openFile data behind = some p ↔ data.length = fileSize (count data behind) ∧
      p = ⟨data, (collect (count data behind).toNat 4).1, 4 + 32 * count data behind⟩ := by
  have hmap : (collect (count data behind).toNat 4).2 = 4 + 32 * count data behind := by
    rw [collect_snd, UInt32.ofNat_toNat]
  simp only [openFile, hmap]
  split_ifs with hsize
  · simp [hsize]
  · simp [not_not.mp hsize, eq_comm]

theorem not_inBounds_of_openFile {data behind : List UInt8} {p : CharProperty} (h : openFile data behind = some p) :
    ¬ InBounds p := by
  obtain ⟨hsize, rfl⟩ := openFile_eq_some_iff.mp h
  intro hbounds
  have hlast : 4 * 0xffff + 4 + (4 + 32 * count data behind).toNat ≤ data.length := by
    have hentry := hbounds.entries 0xffff
    simp only [UInt16.toNat_ofNat] at hentry
    omega
  rw [hsize, fileSize] at hlast
  omega

/-- If a file is opened then all that is read of it is inside of it. -/
def OpensInBounds (data behind : List UInt8) : Prop := ∀ p, openFile data behind = some p → InBounds p

theorem not_opensInBounds {data behind : List UInt8} (hsize : data.length = fileSize (count data behind)) :
    ¬ OpensInBounds data behind := by
  intro h
  have hopen := openFile_eq_some_iff.mpr ⟨hsize, rfl⟩
  exact not_inBounds_of_openFile hopen (h _ hopen)

/-- **What is read of a file is inside of it exactly if it is not opened.** For every content, also one that is shorter
than the first word: a file of the size that `open` expects is too short for the last code unit. -/
theorem opensInBounds_iff (data behind : List UInt8) :
    OpensInBounds data behind ↔ data.length ≠ fileSize (count data behind) := by
  constructor
  · intro h hsize
    exact not_opensInBounds hsize h
  · intro hsize p hopen
    exact absurd (openFile_eq_some_iff.mp hopen).1 hsize

/-- A file without categories, and without properties. -/
theorem opensInBounds_false_empty : ¬ OpensInBounds (List.replicate 262144 0) [] := by
  have hcount : count (List.replicate 262144 0) [] = 0 := by
    rw [count, List.append_nil, List.take_replicate]
    rfl
  apply not_opensInBounds
  rw [hcount, List.length_replicate]
  rfl

end CharProperty

end Raster
