import Mathlib.Algebra.BigOperators.Group.List.Basic
import Mathlib.Algebra.Order.BigOperators.Group.List
import Mathlib.Algebra.Ring.Int.Defs
import Mathlib.Logic.Function.Basic
import Mathlib.Tactic.SplitIfs

/-!
# Monitored values

`raster/framework/Monitor.h` and `Monitor.cpp`. Values are added under a name with one of five types, and a
dump reports what they come to and starts over. Both take the lock of the monitor for all they do, so that
a run is a sequence of the two calls.

All types share one accumulator, which starts at `0`. What a dump reports for a name is computed from the
values since the dump before (`MonitorValue.of`), and `aggregate` is what it should be.
-/

namespace Raster

/-- The types of `MonitorValue`. -/
inductive MonitorType
  | cnt
  | avg
  | min
  | max
  | sum
  deriving DecidableEq, Repr

/-- The constants of the `enum`. -/
def MonitorType.code : MonitorType → Nat
  | .cnt => 1
  | .avg => 2
  | .min => 4
  | .max => 8
  | .sum => 16

structure MonitorValue where
  type : MonitorType
  isset : Bool
  /-- An `int` that counts up from `0`. -/
  count : Nat
  /-- An `int64_t`. -/
  value : Int
  deriving DecidableEq, Repr

namespace MonitorValue

def reset (v : MonitorValue) : MonitorValue :=
  { v with
    isset := v.type.code &&& (MonitorType.cnt.code ||| MonitorType.sum.code) != 0
    count := 0
    value := 0 }

/-- The constructor. -/
def make (type : MonitorType) : MonitorValue := reset ⟨type, false, 0, 0⟩

/-- The result of an addition of `int64_t`, if there is one. -/
def int64 (x : Int) : Option Int := if -2 ^ 63 ≤ x ∧ x < 2 ^ 63 then some x else none

/-- `add`; `none` is the overflow of a signed number, after which nothing is known. -/
def add (v : MonitorValue) (value : Int32) : Option MonitorValue :=
  if v.count + 1 < 2 ^ 31 then
    let added :=
      match v.type with
      | .avg | .sum => int64 (v.value + value.toInt)
      | .min => some (min v.value value.toInt)
      | .max => some (max v.value value.toInt)
      | .cnt => some v.value
    added.map fun x => { v with isset := true, count := v.count + 1, value := x }
  else none

/-- `value()`; an `int64_t` that is returned as an `int` loses its upper half. -/
def report (v : MonitorValue) : Int32 :=
  match v.type with
  | .cnt => Int32.ofNat v.count
  | .avg => if v.count ≠ 0 then Int32.ofInt (v.value.tdiv v.count) else 0
  | .min | .max | .sum => Int32.ofInt v.value

end MonitorValue

structure Monitor where
  /-- `open_`. -/
  isOpen : Bool
  /-- `prefix_`. -/
  keyPrefix : String
  mvalues : String → Option MonitorValue

/-- A call of `addToMonitor`. -/
structure MonitorAdd where
  name : String
  type : MonitorType
  value : Int32
  deriving DecidableEq, Repr

inductive MonitorOp
  | addToMonitor (call : MonitorAdd)
  | dump
  deriving DecidableEq, Repr

namespace Monitor

/-- A monitor that is open and has no values yet. -/
def start (keyPrefix : String) : Monitor := ⟨true, keyPrefix, fun _ => none⟩

def key (m : Monitor) (name : String) : String := if m.keyPrefix = "" then name else m.keyPrefix ++ "." ++ name

def addToMonitor (m : Monitor) (call : MonitorAdd) : Option Monitor :=
  if m.isOpen then
    let mvalue := (m.mvalues (m.key call.name)).getD (MonitorValue.make call.type)
    let mvalue' := if mvalue.type ≠ call.type then some mvalue else mvalue.add call.value
    mvalue'.map fun v => { m with mvalues := Function.update m.mvalues (m.key call.name) (some v) }
  else some m

/-- `dump`: the data for the sender, and the monitor after it. -/
def dump (m : Monitor) : (String → Option Int32) × Monitor :=
  (fun key => (m.mvalues key).bind fun v => if v.isset then some v.report else none,
    { m with mvalues := fun key => (m.mvalues key).map fun v => if v.isset then v.reset else v })

/-- A sequence of calls, with the data of each dump. -/
def exec (m : Monitor) : List MonitorOp → Option (List (String → Option Int32) × Monitor)
  | [] => some ([], m)
  | .addToMonitor call :: ops => (m.addToMonitor call).bind fun m' => m'.exec ops
  | .dump :: ops => (m.dump.2.exec ops).map fun r => (m.dump.1 :: r.1, r.2)

end Monitor

/-! ### What a dump should report -/

/-- The aggregate of the values of an interval; there is no mean, minimum or maximum of no values. -/
def MonitorType.aggregate (type : MonitorType) (xs : List Int) : Option Int :=
  match type with
  | .cnt => some xs.length
  | .sum => some xs.sum
  | .avg => if xs = [] then none else some (xs.sum.tdiv xs.length)
  | .min => xs.min?
  | .max => xs.max?

namespace Monitor

/-- What a dump reports on: the calls since the previous dump, and all calls before that. -/
structure Interval where
  before : List MonitorAdd
  calls : List MonitorAdd

/-- The intervals that are closed by the dumps of `ops`, after the calls `before` and, since the last dump,
`current`. -/
def intervals (before current : List MonitorAdd) : List MonitorOp → List Interval
  | [] => []
  | .addToMonitor call :: ops => intervals before (current ++ [call]) ops
  | .dump :: ops => ⟨before, current⟩ :: intervals (before ++ current) [] ops

/-- The calls after the last dump. -/
def pending (current : List MonitorAdd) : List MonitorOp → List MonitorAdd
  | [] => current
  | .addToMonitor call :: ops => pending (current ++ [call]) ops
  | .dump :: ops => pending [] ops

def calls : List MonitorOp → List MonitorAdd
  | [] => []
  | .addToMonitor call :: ops => call :: calls ops
  | .dump :: ops => calls ops

/-- The values that the calls add under a name. -/
def valuesOf (name : String) (calls : List MonitorAdd) : List Int32 :=
  (calls.filter fun call => call.name = name).map MonitorAdd.value

/-- The data of a dump are the aggregates of the interval for all names that have been used, and nothing else. -/
def Reports (m : Monitor) (typeOf : String → MonitorType) (data : String → Option Int32) (iv : Interval) : Prop :=
  (∀ name, (data (m.key name)).map Int32.toInt =
    if ∃ call ∈ iv.before ++ iv.calls, call.name = name then
      (typeOf name).aggregate ((valuesOf name iv.calls).map Int32.toInt) else none) ∧
  ∀ key, (∀ name, key ≠ m.key name) → data key = none

/-- Every dump reports the aggregates of its interval, and the intervals are the calls, each of them once. -/
def Exact (m : Monitor) (typeOf : String → MonitorType) (ops : List MonitorOp) : Prop :=
  (∃ dumps m', m.exec ops = some (dumps, m') ∧ List.Forall₂ (m.Reports typeOf) dumps (intervals [] [] ops)) ∧
  (intervals [] [] ops).flatMap Interval.calls ++ pending [] ops = calls ops

theorem intervals_append_pending (before current : List MonitorAdd) (ops : List MonitorOp) :
    (intervals before current ops).flatMap Interval.calls ++ pending current ops = current ++ calls ops := by
  induction ops generalizing before current with
  | nil => simp [intervals, pending, calls]
  | cons op ops ih =>
    cases op with
    | addToMonitor call => simp [intervals, pending, calls, ih]
    | dump => simp [intervals, pending, calls, ih]

end Monitor

/-! ### The accumulator -/

namespace MonitorValue

/-- The accumulator after the values of an interval. -/
def of (type : MonitorType) (xs : List Int32) : MonitorValue where
  type := type
  isset := (make type).isset || !xs.isEmpty
  count := xs.length
  value :=
    match type with
    | .avg | .sum => (xs.map Int32.toInt).sum
    | .min => (xs.map Int32.toInt).foldl min 0
    | .max => (xs.map Int32.toInt).foldl max 0
    | .cnt => 0

theorem of_nil (type : MonitorType) : of type [] = make type := by
  cases type <;> rfl

theorem reset_of (type : MonitorType) (xs : List Int32) : (of type xs).reset = make type := rfl

theorem sum_bounds (xs : List Int32) :
    -(2 ^ 31 * (xs.length : Int)) ≤ (xs.map Int32.toInt).sum ∧ (xs.map Int32.toInt).sum ≤ (2 ^ 31 - 1) * (xs.length : Int) := by
  induction xs with
  | nil => simp
  | cons x xs ih =>
    have hle := x.le_toInt
    have hlt := x.toInt_lt
    simp only [List.map_cons, List.sum_cons, List.length_cons]
    omega

theorem add_of (type : MonitorType) (xs : List Int32) (x : Int32) :
    (of type xs).add x = if (xs ++ [x]).length < 2 ^ 31 then some (of type (xs ++ [x])) else none := by
  rw [List.length_append, List.length_singleton, add]
  by_cases hroom : xs.length + 1 < 2 ^ 31
  · have hbounds := sum_bounds (xs ++ [x])
    have hint64 : int64 ((xs.map Int32.toInt).sum + x.toInt) = some ((xs.map Int32.toInt).sum + x.toInt) := by
      rw [List.map_append, List.sum_append, List.length_append] at hbounds
      simp only [List.map_cons, List.map_nil, List.sum_cons, List.sum_nil, Int.add_zero, List.length_singleton] at hbounds
      rw [int64, if_pos]
      omega
    rw [if_pos hroom, if_pos (show (of type xs).count + 1 < 2 ^ 31 from hroom)]
    cases type <;> simp [of, hint64, List.foldl_append]
  · rw [if_neg hroom, if_neg (show ¬ (of type xs).count + 1 < 2 ^ 31 from hroom)]

/-- What `dump` reports for an accumulator. -/
def reported (v : MonitorValue) : Option Int := if v.isset then some v.report.toInt else none

theorem foldl_min_zero {xs : List Int} {m : Int} (h : xs.min? = some m) : xs.foldl min 0 = min 0 m := by
  cases xs with
  | nil => cases h
  | cons x xs =>
    rw [List.min?_cons', Option.some.injEq] at h
    rw [List.foldl_cons, List.foldl_assoc, h]

theorem foldl_max_zero {xs : List Int} {m : Int} (h : xs.max? = some m) : xs.foldl max 0 = max 0 m := by
  cases xs with
  | nil => cases h
  | cons x xs =>
    rw [List.max?_cons', Option.some.injEq] at h
    rw [List.foldl_cons, List.foldl_assoc, h]

theorem mean_bounds {xs : List Int32} (hxs : xs ≠ []) :
    -2 ^ 31 ≤ (xs.map Int32.toInt).sum.tdiv xs.length ∧ (xs.map Int32.toInt).sum.tdiv xs.length < 2 ^ 31 := by
  have hpos : 0 < (xs.length : Int) := by
    have := List.length_pos_iff.mpr hxs
    omega
  obtain ⟨hlow, hhigh⟩ := sum_bounds xs
  generalize (xs.map Int32.toInt).sum = sum at hlow hhigh ⊢
  generalize (xs.length : Int) = n at hpos hlow hhigh ⊢
  constructor
  · have hle : (-2 ^ 31 : Int) = (-(2 ^ 31 * n)).tdiv n := by
      rw [Int.neg_tdiv, Int.mul_tdiv_cancel _ hpos.ne']
    rw [hle]
    exact Int.tdiv_le_tdiv hpos hlow
  · have hle : ((2 ^ 31 - 1) * n).tdiv n = (2 ^ 31 - 1 : Int) := Int.mul_tdiv_cancel _ hpos.ne'
    have hmono := Int.tdiv_le_tdiv hpos hhigh
    rw [hle] at hmono
    omega

/-- **When the accumulator is right.** It starts at `0`, so that a minimum is right only if one of the values is
not positive, and a maximum only if one of them is not negative. -/
theorem reported_of_iff {type : MonitorType} {xs : List Int32} (hcount : xs.length < 2 ^ 31)
    (hsum : type = .sum → -2 ^ 31 ≤ (xs.map Int32.toInt).sum ∧ (xs.map Int32.toInt).sum < 2 ^ 31) :
    (of type xs).reported = type.aggregate (xs.map Int32.toInt) ↔
      (xs ≠ [] → (type = .min → ∃ x ∈ xs, x.toInt ≤ 0) ∧ (type = .max → ∃ x ∈ xs, 0 ≤ x.toInt)) := by
  by_cases hxs : xs = []
  · subst hxs
    refine iff_of_true ?_ fun h => absurd rfl h
    cases type <;> rfl
  have hset : (of type xs).isset = true := by simp [of, hxs]
  rw [reported, if_pos hset]
  simp only [ne_eq, hxs, not_false_eq_true, true_implies]
  cases type with
  | cnt =>
    refine iff_of_true ?_ ⟨nofun, nofun⟩
    show some (Int32.ofNat xs.length).toInt = some ((xs.map Int32.toInt).length : Int)
    rw [Int32.toInt_ofNat_of_lt hcount, List.length_map]
  | sum =>
    refine iff_of_true ?_ ⟨nofun, nofun⟩
    obtain ⟨hlow, hhigh⟩ := hsum rfl
    exact congrArg some (Int32.toInt_ofInt_of_le hlow hhigh)
  | avg =>
    refine iff_of_true ?_ ⟨nofun, nofun⟩
    obtain ⟨hlow, hhigh⟩ := mean_bounds hxs
    have hcount : (of .avg xs).count ≠ 0 := (List.length_pos_iff.mpr hxs).ne'
    have hmap : xs.map Int32.toInt ≠ [] := by simpa using hxs
    simp only [report, MonitorType.aggregate]
    rw [if_pos hcount, if_neg hmap, List.length_map]
    exact congrArg some (Int32.toInt_ofInt_of_le hlow hhigh)
  | min =>
    obtain ⟨m, hm⟩ := Option.isSome_iff_exists.mp (List.isSome_min?_of_ne_nil (show xs.map Int32.toInt ≠ [] by simpa using hxs))
    obtain ⟨hmem, hleast⟩ := List.min?_eq_some_iff.mp hm
    obtain ⟨x, hx, rfl⟩ := List.mem_map.mp hmem
    have hlow := x.le_toInt
    have hreport : (of .min xs).report.toInt = min 0 x.toInt := by
      show (Int32.ofInt ((xs.map Int32.toInt).foldl min 0)).toInt = _
      rw [foldl_min_zero hm, Int32.toInt_ofInt_of_le (by omega) (by omega)]
    rw [hreport, MonitorType.aggregate, hm, Option.some.injEq]
    refine ⟨fun h => ⟨fun _ => ⟨x, hx, by omega⟩, nofun⟩, fun h => ?_⟩
    obtain ⟨y, hy, hneg⟩ := h.1 rfl
    have := hleast y.toInt (List.mem_map_of_mem hy)
    omega
  | max =>
    obtain ⟨m, hm⟩ := Option.isSome_iff_exists.mp (List.isSome_max?_of_ne_nil (show xs.map Int32.toInt ≠ [] by simpa using hxs))
    obtain ⟨hmem, hgreatest⟩ := List.max?_eq_some_iff.mp hm
    obtain ⟨x, hx, rfl⟩ := List.mem_map.mp hmem
    have hhigh := x.toInt_lt
    have hreport : (of .max xs).report.toInt = max 0 x.toInt := by
      show (Int32.ofInt ((xs.map Int32.toInt).foldl max 0)).toInt = _
      rw [foldl_max_zero hm, Int32.toInt_ofInt_of_le (by omega) (by omega)]
    rw [hreport, MonitorType.aggregate, hm, Option.some.injEq]
    refine ⟨fun h => ⟨nofun, fun _ => ⟨x, hx, by omega⟩⟩, fun h => ?_⟩
    obtain ⟨y, hy, hpos⟩ := h.2 rfl
    have := hgreatest y.toInt (List.mem_map_of_mem hy)
    omega

end MonitorValue

/-! ### Runs -/

namespace Monitor

variable {m m' : Monitor} {typeOf : String → MonitorType} {before current : List MonitorAdd}

theorem key_injective (m : Monitor) : Function.Injective m.key := by
  intro a b hab
  unfold key at hab
  split_ifs at hab
  · exact hab
  · exact (String.append_right_inj _).mp hab

/-- What the map has after the calls `before`, a dump and the calls `current`. -/
structure Holds (typeOf : String → MonitorType) (before current : List MonitorAdd) (m : Monitor) : Prop where
  isOpen : m.isOpen = true
  used : ∀ name, m.mvalues (m.key name) =
    if ∃ call ∈ before ++ current, call.name = name then some (.of (typeOf name) (valuesOf name current)) else none
  other : ∀ key, (∀ name, key ≠ m.key name) → m.mvalues key = none

theorem holds_start (typeOf : String → MonitorType) (keyPrefix : String) : Holds typeOf [] [] (start keyPrefix) :=
  ⟨rfl, fun _ => by simp [start], fun _ _ => rfl⟩

theorem valuesOf_append_self (calls : List MonitorAdd) (call : MonitorAdd) :
    valuesOf call.name (calls ++ [call]) = valuesOf call.name calls ++ [call.value] := by
  simp [valuesOf]

theorem valuesOf_append_of_ne {name : String} (calls : List MonitorAdd) {call : MonitorAdd} (hne : call.name ≠ name) :
    valuesOf name (calls ++ [call]) = valuesOf name calls := by
  simp [valuesOf, hne]

theorem valuesOf_eq_nil {name : String} {calls : List MonitorAdd} (h : ¬ ∃ call ∈ calls, call.name = name) :
    valuesOf name calls = [] := by
  rw [valuesOf, List.map_eq_nil_iff, List.filter_eq_nil_iff]
  intro call hcall hname
  exact h ⟨call, hcall, of_decide_eq_true hname⟩

theorem Holds.addToMonitor (h : Holds typeOf before current m) {call : MonitorAdd} (htype : call.type = typeOf call.name) :
    (∃ m', m.addToMonitor call = some m' ∧ Holds typeOf before (current ++ [call]) m' ∧
      (valuesOf call.name (current ++ [call])).length < 2 ^ 31 ∧ m'.key = m.key) ∨
    (m.addToMonitor call = none ∧ ¬ (valuesOf call.name (current ++ [call])).length < 2 ^ 31) := by
  have hvalue : (m.mvalues (m.key call.name)).getD (MonitorValue.make call.type) =
      .of (typeOf call.name) (valuesOf call.name current) := by
    rw [h.used, htype]
    split_ifs with hused
    · rfl
    · have hnone : ¬ ∃ c ∈ current, c.name = call.name := fun ⟨c, hc, hname⟩ =>
        hused ⟨c, List.mem_append_right _ hc, hname⟩
      rw [Option.getD_none, valuesOf_eq_nil hnone, MonitorValue.of_nil]
  have hsame : ¬ (MonitorValue.of (typeOf call.name) (valuesOf call.name current)).type ≠ call.type := fun hne =>
    hne htype.symm
  simp only [Monitor.addToMonitor]
  rw [if_pos h.isOpen, hvalue, if_neg hsame, MonitorValue.add_of, ← valuesOf_append_self]
  by_cases hroom : (valuesOf call.name (current ++ [call])).length < 2 ^ 31
  · rw [if_pos hroom, Option.map_some]
    refine Or.inl ⟨_, rfl, ⟨h.isOpen, fun name => ?_, fun key hkey => ?_⟩, hroom, rfl⟩
    · show Function.update m.mvalues (m.key call.name) _ (m.key name) = _
      by_cases hname : name = call.name
      · subst hname
        rw [Function.update_self, if_pos ⟨call, by simp, rfl⟩]
      · rw [Function.update_of_ne (fun heq => hname (m.key_injective heq)), h.used,
          valuesOf_append_of_ne _ (Ne.symm hname)]
        refine if_congr ?_ rfl rfl
        simp only [← List.append_assoc, List.mem_append, List.mem_singleton]
        constructor
        · exact fun ⟨c, hc, hcn⟩ => ⟨c, Or.inl hc, hcn⟩
        · rintro ⟨c, hc | rfl, hcn⟩
          · exact ⟨c, hc, hcn⟩
          · exact absurd hcn.symm hname
    · show Function.update m.mvalues (m.key call.name) _ key = none
      have hne : key ≠ m.key call.name := hkey call.name
      rw [Function.update_of_ne hne]
      exact h.other key hkey
  · exact Or.inr ⟨by rw [if_neg hroom, Option.map_none], hroom⟩

theorem reset_unless_set (type : MonitorType) (xs : List Int32) :
    (if (MonitorValue.of type xs).isset then (MonitorValue.of type xs).reset else .of type xs) = .of type [] := by
  split_ifs with hset
  · rw [MonitorValue.reset_of, MonitorValue.of_nil]
  · have hxs : xs = [] := by
      simp only [MonitorValue.of, Bool.or_eq_true, Bool.not_eq_true', not_or, Bool.not_eq_false, List.isEmpty_iff] at hset
      exact hset.2
    rw [hxs]

theorem Holds.dump (h : Holds typeOf before current m) : Holds typeOf (before ++ current) [] m.dump.2 := by
  refine ⟨h.isOpen, fun name => ?_, fun key hkey => ?_⟩
  · show (m.mvalues (m.key name)).map _ = _
    rw [h.used, List.append_nil]
    split_ifs
    · rw [Option.map_some, reset_unless_set]
      rfl
    · rfl
  · show (m.mvalues key).map _ = none
    rw [h.other key hkey, Option.map_none]

/-- What a dump gives for an interval. -/
def Dumped (m : Monitor) (typeOf : String → MonitorType) (data : String → Option Int32) (iv : Interval) : Prop :=
  (∀ name, (data (m.key name)).map Int32.toInt =
    if ∃ call ∈ iv.before ++ iv.calls, call.name = name then (MonitorValue.of (typeOf name) (valuesOf name iv.calls)).reported
    else none) ∧
  ∀ key, (∀ name, key ≠ m.key name) → data key = none

theorem Holds.dumped (h : Holds typeOf before current m) : m.Dumped typeOf m.dump.1 ⟨before, current⟩ := by
  refine ⟨fun name => ?_, fun key hkey => ?_⟩
  · show ((m.mvalues (m.key name)).bind _).map _ = _
    rw [h.used]
    split_ifs
    · rw [Option.bind_some, MonitorValue.reported]
      split_ifs <;> rfl
    · rfl
  · show (m.mvalues key).bind _ = none
    rw [h.other key hkey, Option.bind_none]

/-- No name gets as many values in an interval as an `int` cannot count. -/
def Countable (before current : List MonitorAdd) (ops : List MonitorOp) : Prop :=
  (∀ iv ∈ intervals before current ops, ∀ name, (valuesOf name iv.calls).length < 2 ^ 31) ∧
  ∀ name, (valuesOf name (pending current ops)).length < 2 ^ 31

theorem length_valuesOf_le (name : String) (ops : List MonitorOp) (before current : List MonitorAdd)
    (h : Countable before current ops) : (valuesOf name current).length < 2 ^ 31 := by
  induction ops generalizing current with
  | nil => exact h.2 name
  | cons op ops ih =>
    cases op with
    | addToMonitor call =>
      refine lt_of_le_of_lt ?_ (ih (current ++ [call]) h)
      simp only [valuesOf, List.filter_append, List.map_append, List.length_append]
      exact Nat.le_add_right _ _
    | dump => exact h.1 ⟨before, current⟩ List.mem_cons_self name

theorem Holds.exec {ops : List MonitorOp} (h : Holds typeOf before current m)
    (htypes : ∀ call ∈ calls ops, call.type = typeOf call.name) (hcurrent : ∀ name, (valuesOf name current).length < 2 ^ 31) :
    (Countable before current ops ∧ ∃ dumps m', m.exec ops = some (dumps, m') ∧
      List.Forall₂ (m.Dumped typeOf) dumps (intervals before current ops)) ∨
    (¬ Countable before current ops ∧ m.exec ops = none) := by
  induction ops generalizing m before current with
  | nil => exact Or.inl ⟨⟨nofun, hcurrent⟩, [], m, rfl, .nil⟩
  | cons op ops ih =>
    cases op with
    | addToMonitor call =>
      rcases h.addToMonitor (htypes call List.mem_cons_self) with ⟨m', hadd, h', hroom, hkey⟩ | ⟨hnone, hfull⟩
      · have hcurrent' : ∀ name, (valuesOf name (current ++ [call])).length < 2 ^ 31 := by
          intro name
          by_cases hname : call.name = name
          · exact hname ▸ hroom
          · rw [valuesOf_append_of_ne _ hname]
            exact hcurrent name
        have hrest := ih h' (fun c hc => htypes c (List.mem_cons_of_mem _ hc)) hcurrent'
        have hdumped : m'.Dumped typeOf = m.Dumped typeOf := by
          unfold Dumped
          rw [hkey]
        rw [Monitor.exec, hadd, Option.bind_some, ← hdumped]
        exact hrest
      · refine Or.inr ⟨fun hcount => hfull ?_, by rw [Monitor.exec, hnone, Option.bind_none]⟩
        exact length_valuesOf_le call.name ops before (current ++ [call]) hcount
    | dump =>
      rcases ih h.dump htypes (fun _ => by simp [valuesOf]) with ⟨hcount, dumps, m', hexec, hall⟩ | ⟨hcount, hnone⟩
      · refine Or.inl ⟨⟨List.forall_mem_cons.mpr ⟨hcurrent, hcount.1⟩, hcount.2⟩, _ :: dumps, m', ?_, .cons h.dumped hall⟩
        rw [Monitor.exec, hexec, Option.map_some]
      · refine Or.inr ⟨fun hall => hcount ⟨(List.forall_mem_cons.mp hall.1).2, hall.2⟩, ?_⟩
        rw [Monitor.exec, hnone, Option.map_none]

/-- The minima of an interval are not positive, and the maxima not negative. -/
def Straddles (typeOf : String → MonitorType) (iv : Interval) : Prop :=
  ∀ name, valuesOf name iv.calls ≠ [] → (typeOf name = .min → ∃ x ∈ valuesOf name iv.calls, x.toInt ≤ 0) ∧
    (typeOf name = .max → ∃ x ∈ valuesOf name iv.calls, 0 ≤ x.toInt)

theorem Dumped.reports_iff {data : String → Option Int32} {iv : Interval} (h : m.Dumped typeOf data iv)
    (hcount : ∀ name, (valuesOf name iv.calls).length < 2 ^ 31)
    (hsum : ∀ name, typeOf name = .sum → -2 ^ 31 ≤ ((valuesOf name iv.calls).map Int32.toInt).sum ∧
      ((valuesOf name iv.calls).map Int32.toInt).sum < 2 ^ 31) :
    m.Reports typeOf data iv ↔ Straddles typeOf iv := by
  refine ⟨fun hr name hvalues => ?_, fun hs => ⟨fun name => ?_, h.2⟩⟩
  · have hused : ∃ call ∈ iv.before ++ iv.calls, call.name = name := by
      by_contra hnone
      refine hvalues (valuesOf_eq_nil ?_)
      exact fun ⟨c, hc, hname⟩ => hnone ⟨c, List.mem_append_right _ hc, hname⟩
    have heq := (h.1 name).symm.trans (hr.1 name)
    rw [if_pos hused, if_pos hused] at heq
    exact (MonitorValue.reported_of_iff (hcount name) (hsum name)).mp heq hvalues
  · rw [h.1 name]
    split_ifs
    · exact (MonitorValue.reported_of_iff (hcount name) (hsum name)).mpr (hs name)
    · rfl

theorem forall₂_iff_forall_mem {α β : Type} {R S : α → β → Prop} {P : β → Prop} {as : List α} {bs : List β}
    (h : List.Forall₂ R as bs) (hiff : ∀ a b, b ∈ bs → R a b → (S a b ↔ P b)) :
    List.Forall₂ S as bs ↔ ∀ b ∈ bs, P b := by
  induction h with
  | nil => simp
  | cons hab _ ih =>
    rw [List.forall₂_cons, List.forall_mem_cons, hiff _ _ List.mem_cons_self hab,
      ih fun a b hb => hiff a b (List.mem_cons_of_mem _ hb)]

/-- **A dump reports the aggregates of its interval exactly if no accumulator is held by its start value.** The
condition is that no minimum of an interval is positive and no maximum negative (and that there are fewer than
`2 ^ 31` values for a name). Each name is used with one type, and the sums are `int`s. -/
theorem exact_iff (keyPrefix : String) (typeOf : String → MonitorType) (ops : List MonitorOp)
    (htypes : ∀ call ∈ calls ops, call.type = typeOf call.name)
    (hsums : ∀ iv ∈ intervals [] [] ops, ∀ name, typeOf name = .sum →
      -2 ^ 31 ≤ ((valuesOf name iv.calls).map Int32.toInt).sum ∧ ((valuesOf name iv.calls).map Int32.toInt).sum < 2 ^ 31) :
    (start keyPrefix).Exact typeOf ops ↔
      Countable [] [] ops ∧ ∀ iv ∈ intervals [] [] ops, Straddles typeOf iv := by
  have hpartition := intervals_append_pending [] [] ops
  rw [List.nil_append] at hpartition
  rcases (holds_start typeOf keyPrefix).exec htypes (fun _ => by simp [valuesOf]) with
    ⟨hcount, dumps, m', hexec, hall⟩ | ⟨hcount, hnone⟩
  · have hreports : ∀ data iv, iv ∈ intervals [] [] ops → (start keyPrefix).Dumped typeOf data iv →
        ((start keyPrefix).Reports typeOf data iv ↔ Straddles typeOf iv) := fun data iv hiv hd =>
      hd.reports_iff (hcount.1 iv hiv) (hsums iv hiv)
    constructor
    · rintro ⟨⟨dumps', m'', hexec', hall'⟩, -⟩
      rw [hexec, Option.some.injEq, Prod.mk.injEq] at hexec'
      rw [← hexec'.1] at hall'
      exact ⟨hcount, (forall₂_iff_forall_mem hall hreports).mp hall'⟩
    · exact fun h => ⟨⟨dumps, m', hexec, (forall₂_iff_forall_mem hall hreports).mpr h.2⟩, hpartition⟩
  · refine iff_of_false ?_ fun h => hcount h.1
    rintro ⟨⟨dumps, m', hexec, -⟩, -⟩
    rw [hnone] at hexec
    cases hexec

/-- Response times of two requests, and then of one that is measured from the wrong end. -/
def timesOps : List MonitorOp :=
  [.addToMonitor ⟨"cost", .avg, 3⟩, .addToMonitor ⟨"least", .min, 3⟩, .addToMonitor ⟨"cost", .avg, 4⟩,
    .addToMonitor ⟨"least", .min, -4⟩, .dump, .addToMonitor ⟨"cost", .avg, -7⟩, .dump]

def timesType (name : String) : MonitorType := if name = "least" then .min else .avg

theorem exact_iff_times :
    (start "app").Exact timesType timesOps ↔
      Countable [] [] timesOps ∧ ∀ iv ∈ intervals [] [] timesOps, Straddles timesType iv := by
  refine exact_iff "app" timesType timesOps (by decide) fun iv _ name hname => ?_
  unfold timesType at hname
  split_ifs at hname

/-- The least of the one value `5` is reported as `0`. -/
theorem exact_false_positive :
    ¬ (start "").Exact (fun _ => .min) [.addToMonitor ⟨"least", .min, 5⟩, .dump] := by
  rintro ⟨⟨dumps, m', hexec, hall⟩, -⟩
  cases hexec
  have hreports := (List.forall₂_cons.mp hall).1.1 "least"
  exact absurd hreports (by decide)

end Monitor

end Raster
