import Mathlib.Logic.Function.Basic

/-!
# `LockedMap`

`raster/util/LockedMap.h`: a `std::map` behind a lock. Each operation holds the lock and is one step. A key
that is not there is read as a default value, `V()`.
-/

namespace Raster

structure LockedMap (K V : Type) where
  map : K → Option V := fun _ => none

namespace LockedMap

variable {K V : Type} [DecidableEq K] [Inhabited V]

/-- `m[k] = v`. -/
def set (m : LockedMap K V) (k : K) (v : V) : LockedMap K V := ⟨Function.update m.map k (some v)⟩

/-- An entry that is there stays. -/
def insert (m : LockedMap K V) (k : K) (v : V) : (V × Bool) × LockedMap K V :=
  match m.map k with
  | none => ((v, true), m.set k v)
  | some _ => ((default, false), m)

def erase (m : LockedMap K V) (k : K) : V × LockedMap K V :=
  match m.map k with
  | none => (default, m)
  | some r => (r, ⟨Function.update m.map k none⟩)

def contains (m : LockedMap K V) (k : K) : Bool := (m.map k).isSome

variable {m : LockedMap K V} {k k' : K} {v : V}

omit [Inhabited V] in
@[simp] theorem map_set_self : (m.set k v).map k = some v := Function.update_self ..

omit [Inhabited V] in
@[simp] theorem map_set_of_ne (h : k' ≠ k) : (m.set k v).map k' = m.map k' := Function.update_of_ne h ..

theorem erase_fst : (m.erase k).1 = (m.map k).getD default := by
  unfold erase
  cases m.map k <;> rfl

theorem map_erase : (m.erase k).2.map = Function.update m.map k none := by
  unfold erase
  cases h : m.map k with
  | none => exact (Function.update_eq_self_iff.mpr h.symm).symm
  | some r => rfl

@[simp] theorem map_erase_self : (m.erase k).2.map k = none := by rw [map_erase, Function.update_self]

@[simp] theorem map_erase_of_ne (h : k' ≠ k) : (m.erase k).2.map k' = m.map k' := by
  rw [map_erase, Function.update_of_ne h]

theorem insert_of_none (h : m.map k = none) : m.insert k v = ((v, true), m.set k v) := by rw [insert, h]

end LockedMap

end Raster
