import Mathlib.Algebra.Group.Nat.Defs
import Raster.Parallel.Group
import Raster.Lib.Machine

/-!
# The keys of groups over whole runs

`create` and `finish` of `raster/parallel/Group.h` in any order over the groups. Beside the table `Run` keeps the
active groups, those whose `finish` was not called as often as their size says, and does not look at what `finish`
returns. `Run.Inv` ties the two: the counter of an active group is what is missing, and there are as many keys in use
as groups.

The loop of `increase` runs downward on an unsigned index. `pushDown` is that loop, which does not end for the bound
`0`; the bounds it is called with are at least `1`.
-/

namespace Raster

namespace Group

/-- `--i` on a `size_t`. -/
def decrement (i : Nat) : Nat := if i = 0 then 2 ^ 64 - 1 else i - 1

/-- The loop of `increase`, at most `fuel` rounds of it: what is on the stack after it. -/
def pushDown (bound : Nat) : Nat → Nat → List Nat → Option (List Nat)
  | 0, i, keys => if bound ≤ i then none else some keys
  | fuel + 1, i, keys => if bound ≤ i then pushDown bound fuel (decrement i) (i :: keys) else some keys

theorem pushDown_eq {bound : Nat} (hbound : 1 ≤ bound) (fuel i : Nat) (keys : List Nat) (hfuel : i + 1 ≤ fuel + bound) :
    pushDown bound fuel i keys = some (List.range' bound (i + 1 - bound) ++ keys) := by
  induction fuel generalizing i keys with
  | zero =>
    have hzero : i + 1 - bound = 0 := by omega
    rw [pushDown, if_neg (by omega), hzero]
    rfl
  | succ fuel ih =>
    rw [pushDown]
    split_ifs with hle
    · have hpred : decrement i = i - 1 := if_neg (by omega)
      have hlast : List.range' bound (i + 1 - bound) = List.range' bound (i - bound) ++ [i] := by
        have hsucc : i + 1 - bound = i - bound + 1 := by omega
        rw [hsucc, List.range'_concat]
        congr 2
        omega
      have hrest : i - 1 + 1 - bound = i - bound := by omega
      rw [hpred, ih (i - 1) (i :: keys) (by omega), hlast, hrest, List.append_assoc]
      rfl
    · have hzero : i + 1 - bound = 0 := by omega
      rw [hzero]
      rfl

theorem increase_keys {g : Group} {bound : Nat} (hbound : 1 ≤ bound) :
    pushDown bound (g.capacity + 1) g.capacity g.keys = some (g.increase bound).keys :=
  pushDown_eq hbound _ _ _ (by omega)

/-- The table when `create` calls `increase`. -/
def doubled (g : Group) : Group := { g with capacity := g.capacity * 2 }

/-! ### Runs -/

/-- A group that was created, with the number of calls of `finish` for it. -/
structure Active where
  key : Nat
  size : Nat
  finished : Nat
  deriving DecidableEq, Repr

/-- The table and the active groups. -/
structure Run where
  group : Group
  active : List Active
  deriving DecidableEq, Repr

inductive Call
  | create (groupSize : Nat)
  | finish (group : Nat)

namespace Run

def init (capacity : Nat) : Run := ⟨make capacity, []⟩

/-- One call. `finish` is for active groups only, and a group is one until the last of its members. -/
def step (s : Run) : Call → Option Run
  | .create groupSize =>
    if 0 < groupSize then do
      let (group, g) ← s.group.create groupSize
      some ⟨g, ⟨group, groupSize, 0⟩ :: s.active⟩
    else none
  | .finish group => do
    let a ← s.active.find? fun a => a.key = group
    let (_, g) ← s.group.finish group
    let others := s.active.eraseP fun a => a.key = group
    some ⟨g, if a.finished + 1 = a.size then others else { a with finished := a.finished + 1 } :: others⟩

/-- The counter of an active group is what is missing of it. -/
structure Inv (s : Run) : Prop where
  group : s.group.Inv
  nodup : (s.active.map Active.key).Nodup
  missing : ∀ a ∈ s.active, a.key ≠ 0 ∧ a.finished < a.size ∧ s.group.countAt a.key = a.size - a.finished
  count_eq : s.group.count = s.active.length

theorem inv_init {capacity : Nat} (hpos : 1 ≤ capacity) : (init capacity).Inv where
  group := inv_make hpos
  nodup := List.nodup_nil
  missing a ha := absurd ha List.not_mem_nil
  count_eq := by simp [init, make, increase, count]

theorem Inv.not_active {s : Run} (h : s.Inv) {key : Nat} (hzero : s.group.countAt key = 0) :
    key ∉ s.active.map Active.key := by
  intro hmem
  obtain ⟨a, ha, rfl⟩ := List.mem_map.mp hmem
  obtain ⟨-, hlt, hcount⟩ := h.missing a ha
  omega

theorem Inv.create {s : Run} (h : s.Inv) {groupSize group : Nat} {g : Group} (hsize : 0 < groupSize)
    (hspec : Created s.group groupSize group g) : Inv ⟨g, ⟨group, groupSize, 0⟩ :: s.active⟩ where
  group := hspec.inv
  nodup := List.nodup_cons.mpr ⟨h.not_active hspec.unused, h.nodup⟩
  missing a ha := by
    rcases List.mem_cons.mp ha with rfl | ha
    · refine ⟨hspec.key_ne_zero, hsize, ?_⟩
      show g.countAt group = groupSize - 0
      rw [hspec.countAt_eq, if_pos rfl, Nat.sub_zero]
    · have hne : a.key ≠ group := fun heq => h.not_active hspec.unused (heq ▸ List.mem_map_of_mem ha)
      obtain ⟨hkey, hlt, hcount⟩ := h.missing a ha
      refine ⟨hkey, hlt, ?_⟩
      show g.countAt a.key = _
      rw [hspec.countAt_eq, if_neg hne]
      exact hcount
  count_eq := by
    rw [List.length_cons, ← h.count_eq]
    exact hspec.count_eq

theorem Inv.others {s : Run} (h : s.Inv) {a : Active} (ha : a ∈ s.active) :
    let others := s.active.eraseP fun b => b.key = a.key
    a.key ∉ others.map Active.key ∧ (others.map Active.key).Nodup ∧ (∀ b ∈ others, b ∈ s.active ∧ b.key ≠ a.key) ∧
      others.length + 1 = s.active.length := by
  intro others
  obtain ⟨b, before, after, -, hb, hactive, hothers⟩ :=
    List.exists_of_eraseP (p := fun b => decide (b.key = a.key)) ha (decide_eq_true rfl)
  have hkey : b.key = a.key := of_decide_eq_true hb
  have hperm : (s.active.map Active.key).Perm (a.key :: others.map Active.key) := by
    rw [hactive, ← hkey]
    refine (List.perm_middle.map Active.key).trans ?_
    show (b.key :: (before ++ after).map Active.key).Perm _
    rw [← hothers]
  have hnodup := List.nodup_cons.mp (hperm.nodup_iff.mp h.nodup)
  refine ⟨hnodup.1, hnodup.2, fun c hc => ⟨List.mem_of_mem_eraseP hc, fun heq => ?_⟩, ?_⟩
  · exact hnodup.1 (heq ▸ List.mem_map_of_mem hc)
  · have hlength := hperm.length_eq
    simp only [List.length_map, List.length_cons] at hlength
    omega

theorem Inv.finish {s : Run} (h : s.Inv) {a : Active} (ha : a ∈ s.active) {done : Bool} {g : Group}
    (hspec : Finished s.group a.key done g) :
    Inv ⟨g, if a.finished + 1 = a.size then s.active.eraseP fun b => b.key = a.key
      else { a with finished := a.finished + 1 } :: s.active.eraseP fun b => b.key = a.key⟩ := by
  obtain ⟨hkey, hlt, hcount⟩ := h.missing a ha
  obtain ⟨hnot, hnodup, hothers, hlength⟩ := h.others ha
  have hdone := hspec.done_iff
  have hothers' : ∀ b ∈ s.active.eraseP fun b => b.key = a.key,
      b.key ≠ 0 ∧ b.finished < b.size ∧ g.countAt b.key = b.size - b.finished := by
    intro b hb
    obtain ⟨hmem, hne⟩ := hothers b hb
    rw [hspec.countAt_eq, if_neg hne]
    exact h.missing b hmem
  have hcounted := hspec.count_eq
  rw [h.count_eq] at hcounted
  split_ifs with hlast
  · refine ⟨hspec.inv, hnodup, hothers', ?_⟩
    rw [if_pos (hdone.mpr (by omega))] at hcounted
    show g.count = (s.active.eraseP fun b => b.key = a.key).length
    omega
  · refine ⟨hspec.inv, List.nodup_cons.mpr ⟨hnot, hnodup⟩, fun b hb => ?_, ?_⟩
    · rcases List.mem_cons.mp hb with rfl | hb
      · refine ⟨hkey, ?_, ?_⟩
        · show a.finished + 1 < a.size
          omega
        · show g.countAt a.key = a.size - (a.finished + 1)
          rw [hspec.countAt_eq, if_pos rfl]
          omega
      · exact hothers' b hb
    · rw [if_neg fun htrue => by have := hdone.mp htrue; omega] at hcounted
      show g.count = (_ :: _).length
      rw [List.length_cons, hcounted]
      omega

theorem step_inv {s s' : Run} {call : Call} (h : s.Inv) (hstep : s.step call = some s') : s'.Inv := by
  cases call with
  | create groupSize =>
    simp only [step] at hstep
    split_ifs at hstep with hsize
    obtain ⟨⟨group, g⟩, hcreate, hstep⟩ := Option.bind_eq_some_iff.mp hstep
    cases hstep
    obtain ⟨group', g', hcreate', hspec⟩ := create_spec h.group hsize
    rw [hcreate] at hcreate'
    cases hcreate'
    exact h.create hsize hspec
  | finish group =>
    simp only [step] at hstep
    obtain ⟨a, hfind, hstep⟩ := Option.bind_eq_some_iff.mp hstep
    obtain ⟨⟨done, g⟩, hfinish, hstep⟩ := Option.bind_eq_some_iff.mp hstep
    cases hstep
    have ha := List.mem_of_find?_eq_some hfind
    have hkey : a.key = group := by simpa using List.find?_some hfind
    subst hkey
    obtain ⟨hne, hlt, hcount⟩ := h.missing a ha
    obtain ⟨done', g', hfinish', hspec⟩ := finish_spec h.group hne (by omega)
    rw [hfinish] at hfinish'
    cases hfinish'
    exact h.finish ha hspec

/-- **The table of groups in every run**: a key of `create` is at least `1` and not active; `finish` is `true` for the
last member of a group and not before; `count` is the number of active groups; no free key is there twice or active;
there is a counter for each key and one more; and the loop of `increase` ends with exactly the new keys pushed. -/
theorem keys_exact {capacity : Nat} (hpos : 1 ≤ capacity) {calls : List Call} {s : Run}
    (hrun : Lib.run step (init capacity) calls = some s) :
    (∀ groupSize, 1 ≤ groupSize → ∃ group g, s.group.create groupSize = some (group, g) ∧
        1 ≤ group ∧ group ∉ s.active.map Active.key) ∧
      (∀ a ∈ s.active, ∃ done g, s.group.finish a.key = some (done, g) ∧ (done = true ↔ a.finished + 1 = a.size)) ∧
      s.group.count = s.active.length ∧ (s.active.map Active.key).Nodup ∧
      s.group.keys.Nodup ∧ (∀ a ∈ s.active, a.key ∉ s.group.keys) ∧
      s.group.counts.length = s.group.capacity + 1 ∧
      (pushDown s.group.counts.length (s.group.capacity * 2 + 1) (s.group.capacity * 2) s.group.keys =
          some (s.group.doubled.increase s.group.counts.length).keys ∧
        (s.group.doubled.increase s.group.counts.length).keys =
          List.range' (s.group.capacity + 1) s.group.capacity ++ s.group.keys) ∧
      pushDown 1 (capacity + 1) capacity [] = some (make capacity).keys ∧
        (make capacity).keys = List.range' 1 capacity := by
  have h : s.Inv := Lib.run_invariant (fun _ _ _ hinv hstep => step_inv hinv hstep) (inv_init hpos) hrun
  have hlength := h.group.length
  refine ⟨fun groupSize hsize => ?_, fun a ha => ?_, h.count_eq, h.nodup, h.group.nodup, fun a ha hmem => ?_, hlength,
    ⟨?_, ?_⟩, ?_, ?_⟩
  · obtain ⟨group, g, hcreate, hspec⟩ := create_spec h.group hsize
    exact ⟨group, g, hcreate, Nat.one_le_iff_ne_zero.mpr hspec.key_ne_zero, h.not_active hspec.unused⟩
  · obtain ⟨hne, hlt, hcount⟩ := h.missing a ha
    obtain ⟨done, g, hfinish, hspec⟩ := finish_spec h.group hne (by omega)
    refine ⟨done, g, hfinish, ?_⟩
    rw [hspec.done_iff, hcount]
    omega
  · exact h.not_active ((h.group.mem_keys a.key).mp hmem).2 (List.mem_map_of_mem ha)
  · exact increase_keys (g := s.group.doubled) (by omega)
  · have hnew : s.group.capacity * 2 + 1 - s.group.counts.length = s.group.capacity := by omega
    show List.range' s.group.counts.length (s.group.capacity * 2 + 1 - s.group.counts.length) ++ _ = _
    rw [hnew, hlength]
    rfl
  · exact increase_keys (g := ⟨capacity, [], []⟩) le_rfl
  · show List.range' 1 (capacity + 1 - 1) ++ [] = _
    rw [Nat.add_sub_cancel, List.append_nil]

/-- One key, and a second group that doubles the capacity before the first is complete. -/
theorem keys_exact_doubled :
    ∃ s, Lib.run step (init 1) [.create 2, .create 1, .finish 1, .finish 2] = some s ∧ s.group.count = 1 ∧
      s.active = [⟨1, 2, 1⟩] := by
  have hrun : Lib.run step (init 1) [.create 2, .create 1, .finish 1, .finish 2] = some _ := rfl
  exact ⟨_, hrun, (keys_exact (le_refl 1) hrun).2.2.1, rfl⟩

end Run

end Group

end Raster
