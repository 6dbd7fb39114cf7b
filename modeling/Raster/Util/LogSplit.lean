import Mathlib.Data.Set.Finite.Basic
import Mathlib.Logic.Function.Basic
import Mathlib.Tactic.SplitIfs

/-!
# Splitting a log

`BaseLogger::split` of `raster/util/LogBase.h`. The directory of the log is a map from the names in it to
contents; `split` goes through the names in the order of `directory_iterator`, which is an argument here. It
is meant to count up the numbers of the old logs and to remove those that are too old (`Rotates`).

The number of a file is read from `path::extension()`, which starts with the dot, and `atoi` stops there. So no
file has a number, and the old logs stay where they are.
-/

namespace Raster

/-- A name in the directory of the log. -/
abbrev FileName := List Char

abbrev Directory := FileName → Option (List UInt8)

namespace Directory

/-- `unlink`. -/
def remove (dir : Directory) (path : FileName) : Directory := Function.update dir path none

/-- `rename`, which replaces its target and does nothing without its source. -/
def rename (dir : Directory) (old new : FileName) : Directory :=
  match dir old with
  | none => dir
  | some content => Function.update (Function.update dir old none) new (some content)

/-- `::open` with `O_CREAT` and `O_APPEND`. -/
def openAppend (dir : Directory) (path : FileName) : Directory := Function.update dir path (some ((dir path).getD []))

end Directory

namespace Logger

/-- The characters of the name behind its last dot, if there is one, and those before the dot. -/
def atLastDot (name : FileName) : Option (FileName × FileName) :=
  match name.reverse.dropWhile (· ≠ '.') with
  | [] => none
  | _ :: stem => some (stem.reverse, (name.reverse.takeWhile (· ≠ '.')).reverse)

def isDots (name : FileName) : Bool := name == ['.'] || name == ['.', '.']

/-- `path::stem`. -/
def stem (name : FileName) : FileName :=
  if isDots name then name
  else match atLastDot name with
    | none => name
    | some (stem, _) => stem

/-- `path::extension`, with its dot. -/
def extension (name : FileName) : FileName :=
  if isDots name then []
  else match atLastDot name with
    | none => []
    | some (_, ext) => '.' :: ext

/-- `path::replace_extension` with an extension that is not empty and has no dot. -/
def replaceExtension (name ext : FileName) : FileName := stem name ++ '.' :: ext

/-- The digits that a text starts with, as a number. -/
def digitsValue (text : List Char) : Nat := Nat.ofDigitChars 10 (text.takeWhile Char.isDigit) 0

/-- `atoi`: white space, a sign and digits. -/
def atoi (text : List Char) : Int :=
  match text.dropWhile fun c => c ∈ [' ', '\t', '\n', '\x0b', '\x0c', '\r'] with
  | '-' :: digits => -digitsValue digits
  | '+' :: digits => digitsValue digits
  | digits => digitsValue digits

/-- The name of the log of a number. -/
def numbered (log : FileName) (n : Nat) : FileName := log ++ '.' :: Nat.toDigits 10 n

/-- What `split` does with one entry of the directory. -/
def splitEntry (rotate : Int) (log : FileName) (dir : Directory) (path : FileName) : Directory :=
  if stem path = log then
    let no := atoi (extension path)
    if 0 < rotate ∧ rotate ≤ no then dir.remove path
    else if 0 < no then dir.rename path (replaceExtension path (Nat.toDigits 10 (no + 1).toNat))
    else dir
  else dir

/-- `split`, with the entries in the order in which the iterator gives them. -/
def split (rotate : Int) (log : FileName) (order : List FileName) (dir : Directory) : Directory :=
  ((order.foldl (splitEntry rotate log) dir).rename log (numbered log 1)).openAppend log

/-- What a rotation is: the log becomes number `1` and starts anew, each old log gets the next number or is
removed, and the other files stay as they are. -/
structure Rotates (rotate : Int) (log : FileName) (dir dir' : Directory) : Prop where
  current : dir' (numbered log 1) = dir log
  shifted : ∀ k : Nat, 1 ≤ k → (0 < rotate → k < rotate) → dir' (numbered log (k + 1)) = dir (numbered log k)
  removed : ∀ k : Nat, 1 ≤ k → 0 < rotate → rotate ≤ k → dir' (numbered log (k + 1)) = none
  anew : dir' log = some []
  other : ∀ name, name ≠ log → (∀ k, 1 ≤ k → name ≠ numbered log k) → dir' name = dir name

/-! ### The number of a file -/

theorem atoi_dot (text : List Char) : atoi ('.' :: text) = 0 := by
  simp [atoi, digitsValue]

theorem atoi_extension (name : FileName) : atoi (extension name) = 0 := by
  unfold extension
  split_ifs
  · rfl
  · cases atLastDot name with
    | none => rfl
    | some parts => exact atoi_dot parts.2

theorem splitEntry_eq (rotate : Int) (log : FileName) (dir : Directory) (path : FileName) :
    splitEntry rotate log dir path = dir := by
  simp only [splitEntry, atoi_extension]
  split_ifs
  · omega
  · omega
  · rfl
  · rfl

theorem split_eq (rotate : Int) (log : FileName) (order : List FileName) (dir : Directory) :
    split rotate log order dir = (dir.rename log (numbered log 1)).openAppend log := by
  have hloop : order.foldl (splitEntry rotate log) dir = dir := by
    induction order with
    | nil => rfl
    | cons path order ih => rw [List.foldl_cons, splitEntry_eq, ih]
  rw [split, hloop]

/-! ### Names -/

theorem numbered_injective (log : FileName) : Function.Injective (numbered log) := by
  intro m n hmn
  have hdigits : Nat.toDigits 10 m = Nat.toDigits 10 n := by simpa [numbered] using hmn
  rw [← Nat.ofDigitChars_toDigits (b := 10) (n := m) (by decide) (by decide), hdigits,
    Nat.ofDigitChars_toDigits (by decide) (by decide)]

theorem numbered_ne (log : FileName) (n : Nat) : numbered log n ≠ log := by
  intro h
  have := congrArg List.length h
  simp [numbered] at this

/-! ### What is left of a rotation -/

variable {rotate : Int} {log : FileName} {order : List FileName} {dir : Directory}

theorem split_log : split rotate log order dir log = some [] := by
  rw [split_eq, Directory.openAppend, Function.update_self]
  unfold Directory.rename
  cases hlog : dir log with
  | none => simp [hlog]
  | some content => simp [Function.update_of_ne (Ne.symm (numbered_ne log 1))]

theorem split_one : split rotate log order dir (numbered log 1) = (dir log).orElse fun _ => dir (numbered log 1) := by
  rw [split_eq, Directory.openAppend, Function.update_of_ne (numbered_ne log 1)]
  unfold Directory.rename
  cases hlog : dir log with
  | none => rfl
  | some content => simp

theorem split_of_ne {name : FileName} (hlog : name ≠ log) (hone : name ≠ numbered log 1) :
    split rotate log order dir name = dir name := by
  rw [split_eq, Directory.openAppend, Function.update_of_ne hlog]
  unfold Directory.rename
  cases dir log with
  | none => rfl
  | some content => simp only [Function.update_of_ne hone, Function.update_of_ne hlog]

theorem split_succ {k : Nat} (hk : 1 ≤ k) : split rotate log order dir (numbered log (k + 1)) = dir (numbered log (k + 1)) := by
  refine split_of_ne (numbered_ne log (k + 1)) fun h => ?_
  have := numbered_injective log h
  omega

/-- There is nothing to rotate: there are no old logs, or the numbers up to `rotate` all have the same content
and there are no others, so that it does not show that they stay where they are. -/
def Still (rotate : Int) (log : FileName) (dir : Directory) : Prop :=
  (∀ k, 1 ≤ k → dir (numbered log k) = none) ∨
  0 < rotate ∧ dir log ≠ none ∧ ∃ content, ∀ k : Nat, 1 ≤ k →
    dir (numbered log k) = if k ≤ rotate then some content else none

theorem exists_numbered_none (log : FileName) (horder : ∀ name, name ∈ order ↔ dir name ≠ none) :
    ∃ k, 1 ≤ k ∧ dir (numbered log k) = none := by
  have hinj : Function.Injective fun k => numbered log (k + 1) := fun a b hab => by
    have := numbered_injective log hab
    omega
  obtain ⟨name, ⟨k, rfl⟩, hname⟩ := (Set.infinite_range_of_injective hinj).exists_notMem_finset order.toFinset
  refine ⟨k + 1, Nat.le_add_left 1 k, ?_⟩
  by_contra hsome
  exact hname (List.mem_toFinset.mpr ((horder _).mpr hsome))

theorem Rotates.same (h : Rotates rotate log dir (split rotate log order dir)) (k : Nat) (hk : 1 ≤ k)
    (hroom : 0 < rotate → k ≤ rotate) : dir (numbered log k) = dir (numbered log 1) := by
  induction k with
  | zero => omega
  | succ k ih =>
    by_cases hk0 : k = 0
    · rw [hk0]
    · have hshift := h.shifted k (by omega) fun hr => by
        have := hroom hr
        omega
      rw [split_succ (by omega)] at hshift
      rw [hshift]
      exact ih (by omega) fun hr => by
        have := hroom hr
        omega

/-- **A split rotates the logs exactly if there is nothing to rotate.** For every directory, every order of its
entries and every setting: the log always becomes number `1`, in place of the one that had this number. -/
theorem split_rotates_iff (rotate : Int) (log : FileName) (order : List FileName) (dir : Directory)
    (horder : ∀ name, name ∈ order ↔ dir name ≠ none) :
    Rotates rotate log dir (split rotate log order dir) ↔ Still rotate log dir := by
  constructor
  · intro h
    cases hone : dir (numbered log 1) with
    | none =>
      refine Or.inl fun k hk => ?_
      by_cases hroom : 0 < rotate → (k : Int) ≤ rotate
      · rw [h.same k hk hroom, hone]
      · have hlast : ((k - 1 : Nat) : Int) = k - 1 := by omega
        have hgone := h.removed (k - 1) (by omega) (by omega) (by omega)
        rwa [split_succ (by omega), Nat.sub_add_cancel hk] at hgone
    | some content =>
      have hrotate : 0 < rotate := by
        by_contra hnot
        obtain ⟨k, hk, hnone⟩ := exists_numbered_none log horder
        rw [h.same k hk fun hr => absurd hr hnot, hone] at hnone
        cases hnone
      refine Or.inr ⟨hrotate, fun hlog => ?_, content, fun k hk => ?_⟩
      · have hcurrent := h.current
        rw [split_one, hlog, hone] at hcurrent
        cases hcurrent
      · split_ifs with hle
        · rw [h.same k hk fun _ => hle, hone]
        · have hgone := h.removed (k - 1) (by omega) hrotate (by omega)
          rwa [split_succ (by omega), Nat.sub_add_cancel hk] at hgone
  · intro h
    have hother : ∀ name, name ≠ log → (∀ k, 1 ≤ k → name ≠ numbered log k) →
        split rotate log order dir name = dir name := fun name hlog hnum => split_of_ne hlog (hnum 1 le_rfl)
    rcases h with hnone | ⟨hrotate, hlog, content, hcontent⟩
    · refine ⟨?_, fun k hk _ => ?_, fun k hk _ _ => ?_, split_log, hother⟩
      · rw [split_one, hnone 1 le_rfl]
        cases dir log <;> rfl
      · rw [split_succ hk, hnone (k + 1) (by omega), hnone k hk]
      · rw [split_succ hk, hnone (k + 1) (by omega)]
    · refine ⟨?_, fun k hk hroom => ?_, fun k hk _ hle => ?_, split_log, hother⟩
      · rw [split_one]
        cases hcur : dir log with
        | none => exact absurd hcur hlog
        | some c => rfl
      · have hlt := hroom hrotate
        rw [split_succ hk, hcontent (k + 1) (by omega), hcontent k hk, if_pos (by omega), if_pos (by omega)]
      · rw [split_succ hk, hcontent (k + 1) (by omega), if_neg (by omega)]

/-- The directory that holds one log, with a line in it. -/
def oneLog : Directory := fun name => if name = ['l', 'o', 'g'] then some [49] else none

theorem split_rotates_iff_oneLog :
    Rotates 0 ['l', 'o', 'g'] oneLog (split 0 ['l', 'o', 'g'] [['l', 'o', 'g']] oneLog) := by
  refine (split_rotates_iff 0 ['l', 'o', 'g'] [['l', 'o', 'g']] oneLog fun name => ?_).mpr (Or.inl fun k _ => ?_)
  · simp [oneLog]
  · exact if_neg (numbered_ne ['l', 'o', 'g'] k)

/-- The directory after the first split, with a line in the new log. -/
def twoLogs : Directory := Function.update oneLog ['l', 'o', 'g', '.', '1'] (some [48])

/-- The second split replaces the first old log: its line `0` is in no file any more. -/
theorem split_twoLogs_not_rotates :
    ¬ Rotates 0 ['l', 'o', 'g'] twoLogs (split 0 ['l', 'o', 'g'] [['l', 'o', 'g', '.', '1'], ['l', 'o', 'g']] twoLogs) := by
  intro h
  have hshift := h.shifted 1 le_rfl (by decide)
  revert hshift
  decide

end Logger

end Raster
