import Mathlib.Tactic.Abel
import Raster.Buffer.Sharing

/-!
# Programs on shared buffers

What a chain does is what its buffers do one after the other, and what a program does is what is done behind its pointers. So each
run keeps the counts right, and shows what it would show if nothing were shared.
-/

namespace Raster.Sharing

open Lib Memory

variable (junk : Nat → Nat → UInt8)

/-! ### Chains -/

section Chains

variable {memory : List (List UInt8)} {m m' m'' : Mem} {ns ns' ns'' : List Node} {f g : List (List UInt8) → List (List UInt8)}

/-- A chain becomes another with `f` of the data of its buffers; nothing happens to all others. -/
def ChainBecomes (memory : List (List UInt8)) (m : Mem) (ns : List Node) (f : List (List UInt8) → List (List UInt8))
    (r : Mem × List Node) : Prop :=
  ∀ M, Counted memory m (ns + M) →
    Counted memory r.1 (r.2 + M) ∧ Same m r.1 M ∧ r.2.map (Node.data r.1.heap) = f (ns.map (Node.data m.heap))

theorem ChainBecomes.refl : ChainBecomes memory m ns id (m, ns) := fun M hI => ⟨hI, Same.refl m M, rfl⟩

theorem ChainBecomes.trans (h : ChainBecomes memory m ns f (m', ns')) (h' : ChainBecomes memory m' ns' g (m'', ns'')) :
    ChainBecomes memory m ns (g ∘ f) (m'', ns'') := by
  intro M hI
  obtain ⟨hI', hsame, hdata⟩ := h M hI
  obtain ⟨hI'', hsame', hdata'⟩ := h' M hI'
  exact ⟨hI'', hsame.trans hsame', hdata'.trans (congrArg g hdata)⟩

theorem cons_add_eq (n : Node) (ns : List Node) (M : Multiset Node) : (↑(n :: ns) + M : Multiset Node) = n ::ₘ (ns + M) := by
  rw [← Multiset.cons_coe, Multiset.cons_add]

theorem ChainBecomes.cons {n n' : Node} (hhead : Becomes memory m n id (m', n'))
    (htail : ChainBecomes memory m' ns id (m'', ns')) : ChainBecomes memory m (n :: ns) id (m'', n' :: ns') := by
  intro M hI
  rw [cons_add_eq] at hI
  obtain ⟨hI', hsame, hdata⟩ := hhead _ hI
  rw [← Multiset.add_cons] at hI'
  obtain ⟨hI'', hsame', hdata'⟩ := htail _ hI'
  have hns : ns.map (Node.data m'.heap) = ns.map (Node.data m.heap) :=
    List.map_congr_left fun n hn => hsame n (Multiset.mem_add.2 (.inl hn))
  refine ⟨?_, (hsame.mono (Multiset.le_add_left M _)).trans (hsame'.mono (Multiset.le_cons_self M _)), ?_⟩
  · rw [cons_add_eq, ← Multiset.add_cons]
    exact hI''
  · rw [List.map_cons, hdata', id, hns, hsame' n' (Multiset.mem_cons_self _ _), hdata]
    rfl

theorem forEach_becomes {step : Mem → Node → Mem × Node} {P : Node → Prop}
    (hstep : ∀ m n, P n → Becomes memory m n id (step m n)) (hns : ∀ n ∈ ns, P n) :
    ChainBecomes memory m ns id (forEach step m ns) := by
  induction ns generalizing m with
  | nil => exact ChainBecomes.refl
  | cons n ns ih =>
    obtain ⟨hn, hns⟩ := List.forall_mem_cons.1 hns
    exact ChainBecomes.cons (hstep m n hn) (ih hns)

theorem anySharedOne_becomes : ChainBecomes memory m ns id (m, (anySharedOne m.heap ns).2) := by
  induction ns with
  | nil => exact ChainBecomes.refl
  | cons n ns ih =>
    have hn : Becomes memory m n id (m, (n.isSharedOne m.heap).2) := isSharedOne_becomes
    unfold anySharedOne
    generalize n.isSharedOne m.heap = p at hn
    obtain ⟨shared, n₁⟩ := p
    cases shared with
    | true => exact ChainBecomes.cons hn ChainBecomes.refl
    | false => exact ChainBecomes.cons hn ih

theorem anySharedOne_congr (h : Heap UInt8) (ns : List Node) :
    (anySharedOne h ns).2.map (fun n => (n.view, n.capacity)) = ns.map fun n => (n.view, n.capacity) := by
  induction ns with
  | nil => rfl
  | cons n ns ih =>
    have hsame : ((n.isSharedOne h).2.view, (n.isSharedOne h).2.capacity) = (n.view, n.capacity) := by
      unfold Node.isSharedOne
      split_ifs <;> rfl
    unfold anySharedOne
    generalize n.isSharedOne h = p at hsame
    obtain ⟨shared, n₁⟩ := p
    cases shared with
    | true => exact congrArg (· :: ns.map fun n => (n.view, n.capacity)) hsame
    | false => exact congrArg₂ List.cons hsame ih

theorem Sized.congr (h : ns.map (fun n => (n.view, n.capacity)) = ns'.map fun n => (n.view, n.capacity)) :
    Sized ns ↔ Sized ns' := by
  have hsum (ns : List Node) : (ns.map fun n => n.view.length).sum =
      ((ns.map fun n => (n.view, n.capacity)).map fun p => p.1.length).sum := by rw [List.map_map]; rfl
  have hhead (ns : List Node) : headroomBefore ns =
      ((ns.map fun n => (n.view, n.capacity)).head?.map fun p => p.1.headroom).getD 0 := by
    rw [List.head?_map, Option.map_map]
    rfl
  have htail (ns : List Node) : tailroomBehind ns =
      ((ns.map fun n => (n.view, n.capacity)).getLast?.map fun p => p.2 - p.1.headroom - p.1.length).getD 0 := by
    rw [List.getLast?_map, Option.map_map]
    rfl
  unfold Sized
  rw [hsum, hsum ns', hhead, hhead ns', htail, htail ns', h]

theorem foldl_decrementRefcount {M : Multiset Node} (hI : Counted memory m (ns + M)) :
    Counted memory (ns.foldl decrementRefcount m) M ∧ Same m (ns.foldl decrementRefcount m) M := by
  induction ns generalizing m with
  | nil => exact ⟨by simpa using hI, Same.refl m M⟩
  | cons n ns ih =>
    rw [cons_add_eq] at hI
    obtain ⟨hI', hsame⟩ := hI.remove
    obtain ⟨hI'', hsame'⟩ := ih hI'
    exact ⟨hI'', (hsame.mono (Multiset.le_add_left M _)).trans hsame'⟩

theorem destroy_spec {M : Multiset Node} (hI : Counted memory m (ns + M)) :
    Counted memory (destroy m ns) M ∧ Same m (destroy m ns) M := by
  cases ns with
  | nil => exact ⟨by simpa [destroy] using hI, Same.refl m M⟩
  | cons n ns =>
    rw [cons_add_eq, ← Multiset.add_cons] at hI
    obtain ⟨hI', hsame⟩ := foldl_decrementRefcount hI
    obtain ⟨hI'', hsame'⟩ := hI'.remove
    exact ⟨hI'', (hsame.mono (Multiset.le_cons_self M n)).trans hsame'⟩

theorem clone_spec {M : Multiset Node} (hI : Counted memory m (ns + M)) :
    Counted memory (forEach cloneOneInto m ns).1 ((forEach cloneOneInto m ns).2 + ((forEach cloneOneInto m ns).2 + M)) ∧
      Same m (forEach cloneOneInto m ns).1 M ∧
      (forEach cloneOneInto m ns).2.map (Node.data (forEach cloneOneInto m ns).1.heap) = ns.map (Node.data m.heap) := by
  induction ns generalizing m M with
  | nil => exact ⟨by simpa [forEach] using hI, Same.refl m M, rfl⟩
  | cons n ns ih =>
    rw [cons_add_eq] at hI
    obtain ⟨hI', hsame, hdata⟩ := hI.clone
    simp only [forEach]
    generalize cloneOneInto m n = p at hI' hsame hdata
    obtain ⟨m', n'⟩ := p
    rw [← Multiset.add_cons, ← Multiset.add_cons] at hI'
    obtain ⟨hI'', hsame', hdata'⟩ := ih hI'
    generalize forEach cloneOneInto m' ns = q at hI'' hsame' hdata'
    obtain ⟨m'', ns'⟩ := q
    have hns : ns.map (Node.data m'.heap) = ns.map (Node.data m.heap) :=
      List.map_congr_left fun n hn => hsame n (Multiset.mem_add.2 (.inl hn))
    have hle : M ≤ n' ::ₘ n' ::ₘ M := (Multiset.le_cons_self M n').trans (Multiset.le_cons_self _ n')
    refine ⟨?_, (hsame.mono (Multiset.le_add_left M _)).trans (hsame'.mono hle), ?_⟩
    · have heq : (↑(n' :: ns') + (↑(n' :: ns') + M) : Multiset Node) = ns' + (ns' + n' ::ₘ n' ::ₘ M) := by
        rw [cons_add_eq, cons_add_eq, Multiset.add_cons, Multiset.add_cons, Multiset.add_cons, Multiset.add_cons, Multiset.add_cons]
      rw [heq]
      exact hI''
    · rw [List.map_cons, hdata', hns, hsame' n' (Multiset.mem_cons_self _ _), hdata, List.map_cons]

/-- The first `k` are put into one. -/
def joinFirst (k : Nat) (ds : List (List UInt8)) : List (List UInt8) := (ds.take k).flatten :: ds.drop k

theorem joinFirst_min (k : Nat) (ds : List (List UInt8)) : joinFirst (min k ds.length) ds = joinFirst k ds := by
  obtain hle | hle := Nat.le_total k ds.length
  · rw [Nat.min_eq_left hle]
  · rw [Nat.min_eq_right hle, joinFirst, joinFirst, List.take_length, List.drop_length, List.take_of_length_le hle,
      List.drop_eq_nil_of_le hle]

theorem alloc_copyAll {M : Multiset Node} (hI : Counted memory m (ns + M)) {headroom size : Nat}
    (hfit : headroom + (ns.map fun n => n.view.length).sum ≤ size) :
    let h' := copyAll m.heap.fresh headroom (ns.map Node.view) (m.heap.alloc junk size).2
    h'.fresh = m.heap.fresh + 1 ∧ (∀ b, b ≠ m.heap.fresh → h'.blocks b = m.heap.blocks b) ∧
      (h'.blocks m.heap.fresh).refcount = 1 ∧ (h'.blocks m.heap.fresh).cells.length = size ∧
      slice (h'.blocks m.heap.fresh).cells headroom (ns.map fun n => n.view.length).sum =
        (ns.map (Node.data m.heap)).flatten := by
  intro h'
  obtain ⟨hsize, hone⟩ := m.heap.alloc_new junk size
  have hold (b : Nat) (hb : b ≠ m.heap.fresh) := m.heap.alloc_of_ne junk size hb
  have hmem : ∀ n ∈ ns, n ∈ (ns + M : Multiset Node) := fun n hn => Multiset.mem_add.2 (.inl hn)
  have hne : ∀ n ∈ ns, n.view.block ≠ m.heap.fresh := fun n hn => Nat.ne_of_lt (hI.fresh.2 n (hmem n hn))
  have hinside : ∀ v ∈ ns.map Node.view, v.Inside (m.heap.alloc junk size).2 ∧ v.block ≠ m.heap.fresh := by
    intro v hv
    obtain ⟨n, hn, rfl⟩ := List.mem_map.1 hv
    have hle := hI.inside n (hmem n hn)
    exact ⟨View.inside_congr (by rw [hold _ (hne n hn)]) (Nat.le_succ m.heap.fresh)
      ⟨hI.fresh.2 n (hmem n hn), Nat.le_trans hle.1 hle.2⟩, hne n hn⟩
  have hdata : (ns.map Node.view).flatMap (View.data (m.heap.alloc junk size).2) = (ns.map (Node.data m.heap)).flatten := by
    rw [List.flatMap_map, ← List.flatMap_def]
    exact List.flatMap_congr fun n hn => View.data_congr (by rw [hold _ (hne n hn)])
  have hsum : ((ns.map Node.view).map View.length).sum = (ns.map fun n => n.view.length).sum := by rw [List.map_map]; rfl
  obtain ⟨hcells, hlen, hothers, hcount, hfresh⟩ := copyAll_spec m.heap.fresh headroom (ns.map Node.view) _ 0 hinside
    (by rw [hsize, hsum]; omega)
  rw [Nat.zero_add, Nat.add_zero, hdata, slice_zero, List.nil_append, hsum] at hcells
  rw [Nat.add_zero] at hlen hothers hcount hfresh
  exact ⟨hfresh, fun b hb => (hothers b hb).trans (hold b hb), hcount.trans hone, hlen.trans hsize, hcells⟩

theorem coalesceAndReallocate_spec {M : Multiset Node} (hI : Counted memory m (ns + M)) {newHeadroom newTailroom : Nat}
    (hfits : Fits ((ns.map fun n => n.view.length).sum + newHeadroom + newTailroom)) :
    let r := coalesceAndReallocate junk m ns newHeadroom (ns.map fun n => n.view.length).sum newTailroom
    Counted memory r.1 (r.2 ::ₘ M) ∧ Same m r.1 M ∧ r.2.data r.1.heap = (ns.map (Node.data m.heap)).flatten := by
  unfold Fits at hfits
  have hcapacity := le_extCapacity ((ns.map fun n => n.view.length).sum + newHeadroom + newTailroom) (by omega)
  unfold coalesceAndReallocate
  dsimp only [allocExtBuffer]
  rw [Nat.mod_eq_of_lt (by omega)]
  generalize extCapacity ((ns.map fun n => n.view.length).sum + newHeadroom + newTailroom) = size at hcapacity
  have hfit : newHeadroom + (ns.map fun n => n.view.length).sum ≤ size := by omega
  obtain ⟨hfresh, hother, hone, hsize, hcells⟩ := alloc_copyAll junk hI hfit
  rw [show (m.heap.alloc junk size).1 = m.heap.fresh from rfl]
  generalize copyAll m.heap.fresh newHeadroom (ns.map Node.view) (m.heap.alloc junk size).2 = h' at *
  let new : Node := { view := { block := m.heap.fresh, headroom := newHeadroom, length := (ns.map fun n => n.view.length).sum,
                                managed := true, malloced := true }, capacity := size }
  obtain ⟨hadd, hsame⟩ := hI.add (n := new) hfresh hother hone rfl rfl hfit (Nat.le_of_eq hsize.symm)
  have hsplit : (new ::ₘ (↑ns + M) : Multiset Node) = ↑(ns.take 1) + (↑(ns.drop 1) + new ::ₘ M) := by
    rw [← add_assoc, Multiset.coe_add, List.take_append_drop, Multiset.add_cons]
  rw [hsplit] at hadd
  obtain ⟨hI', hsame'⟩ := foldl_decrementRefcount hadd
  obtain ⟨hI'', hsame''⟩ := destroy_spec hI'
  have hkept := (hsame'.mono (Multiset.le_add_left (new ::ₘ M) _)).trans hsame''
  refine ⟨hI'', (hsame.mono (Multiset.le_add_left M _)).trans (hkept.mono (Multiset.le_cons_self M _)), ?_⟩
  exact (hkept new (Multiset.mem_cons_self _ _)).trans hcells

theorem coalesceSlow_becomes {kept : List Node} (hsized : Sized ns) :
    ChainBecomes memory m (ns ++ kept) (joinFirst ns.length) (coalesceSlow junk m ns kept) := by
  intro M hI
  have hfits := hsized
  unfold Sized Fits at hfits
  have hsum : sumLength (ns.map Node.view) = (ns.map fun n => n.view.length).sum := by
    rw [sumLength_eq (by rw [List.map_map]; show (ns.map fun n => n.view.length).sum < _; omega), List.map_map]
    rfl
  rw [← Multiset.coe_add, add_assoc] at hI
  obtain ⟨hI', hsame, hdata⟩ := coalesceAndReallocate_spec junk hI hsized
  unfold coalesceSlow
  rw [hsum]
  generalize coalesceAndReallocate junk m ns (headroomBefore ns) (ns.map fun n => n.view.length).sum (tailroomBehind ns) = r at *
  obtain ⟨m', n⟩ := r
  refine ⟨?_, hsame.mono (Multiset.le_add_left M _), ?_⟩
  · rw [cons_add_eq]
    exact hI'
  · have hkept : kept.map (Node.data m'.heap) = kept.map (Node.data m.heap) :=
      List.map_congr_left fun n hn => hsame n (Multiset.mem_add.2 (.inl hn))
    have hlen : ns.length = (ns.map (Node.data m.heap)).length := by rw [List.length_map]
    rw [joinFirst, List.map_append, hlen, List.take_left, List.drop_left, List.map_cons, hdata, hkept]

theorem coalesce_becomes (hsized : Sized ns) :
    ChainBecomes memory m ns (if isChained ns then joinFirst ns.length else id) (coalesce junk m ns) := by
  unfold coalesce
  split_ifs
  · have hjoin : ChainBecomes memory m (ns ++ []) (joinFirst ns.length) (coalesceSlow junk m ns []) := coalesceSlow_becomes junk hsized
    rwa [List.append_nil] at hjoin
  · exact ChainBecomes.refl

theorem unshare_becomes (hsized : Sized ns) (hfits : ∀ n ∈ ns, Fits n.capacity) :
    ChainBecomes memory m ns (if isChained ns ∧ (anySharedOne m.heap ns).1 then joinFirst ns.length else id) (unshare junk m ns) := by
  unfold unshare
  by_cases hchained : isChained ns = true
  · have hflags : ChainBecomes memory m ns id (m, (anySharedOne m.heap ns).2) := anySharedOne_becomes
    have hcongr := anySharedOne_congr m.heap ns
    have hlen : (anySharedOne m.heap ns).2.length = ns.length := by simpa using congrArg List.length hcongr
    have hsized' := (Sized.congr hcongr).2 hsized
    rw [if_pos hchained]
    generalize anySharedOne m.heap ns = p at *
    obtain ⟨shared, ns'⟩ := p
    cases shared with
    | false => simpa using hflags
    | true =>
      have hjoin : ChainBecomes memory m (ns' ++ []) (joinFirst ns'.length) (coalesceSlow junk m ns' []) :=
        coalesceSlow_becomes junk hsized'
      rw [List.append_nil, hlen] at hjoin
      rw [if_pos ⟨hchained, rfl⟩]
      exact hflags.trans hjoin
  · rw [if_neg hchained, if_neg (by simp [hchained])]
    exact forEach_becomes (fun m n hn => unshareOne_becomes junk hn) hfits

theorem gather_becomes {maxLength : Nat} (hsized : ∀ k ∈ gathered ns maxLength, Sized (ns.take k)) :
    ChainBecomes memory m ns (match gathered ns maxLength with | none | some 0 => id | some (k + 1) => joinFirst (k + 1))
      (gather junk m ns maxLength) := by
  unfold gather
  generalize gathered ns maxLength = k at hsized
  obtain - | - | k := k
  · exact ChainBecomes.refl
  · exact ChainBecomes.refl
  · have hjoin : ChainBecomes memory m (ns.take (k + 1) ++ ns.drop (k + 1)) _ _ := coalesceSlow_becomes junk (hsized _ rfl)
    intro M hI
    obtain ⟨hI', hsame, hdata⟩ := hjoin M (by rwa [List.take_append_drop])
    rw [List.take_append_drop] at hdata
    exact ⟨hI', hsame, hdata.trans (by rw [List.length_take, ← List.length_map, joinFirst_min])⟩

theorem exists_split {n : Node} {i : Nat} (hn : ns[i]? = some n) :
    ∃ before behind, ns = before ++ n :: behind ∧ before.length = i := by
  obtain ⟨hi, rfl⟩ := List.getElem?_eq_some_iff.1 hn
  exact ⟨ns.take i, ns.drop (i + 1), by rw [List.getElem_cons_drop, List.take_append_drop], by rw [List.length_take]; omega⟩

theorem middle_add_eq (before behind : List Node) (n : Node) (M : Multiset Node) :
    (↑(before ++ n :: behind) + M : Multiset Node) = n ::ₘ (before + (behind + M)) := by
  rw [← Multiset.coe_add, add_assoc, cons_add_eq, Multiset.add_cons]

theorem modify_middle (before behind : List (List UInt8)) (data : List UInt8) (h : List UInt8 → List UInt8) :
    (before ++ data :: behind).modify before.length h = before ++ h data :: behind := by
  induction before with
  | nil => rfl
  | cons d before ih => exact congrArg (d :: ·) ih

theorem set_becomes {n n' : Node} {i : Nat} {h : List UInt8 → List UInt8} (hn : ns[i]? = some n)
    (hbecomes : Becomes memory m n h (m', n')) : ChainBecomes memory m ns (fun ds => ds.modify i h) (m', ns.set i n') := by
  obtain ⟨before, behind, rfl, rfl⟩ := exists_split hn
  intro M hI
  rw [middle_add_eq] at hI
  obtain ⟨hI', hsame, hdata⟩ := hbecomes _ hI
  have hset : (before ++ n :: behind).set before.length n' = before ++ n' :: behind := by simp
  have hbefore : before.map (Node.data m'.heap) = before.map (Node.data m.heap) :=
    List.map_congr_left fun n hn => hsame n (Multiset.mem_add.2 (.inl hn))
  have hbehind : behind.map (Node.data m'.heap) = behind.map (Node.data m.heap) :=
    List.map_congr_left fun n hn => hsame n (Multiset.mem_add.2 (.inr (Multiset.mem_add.2 (.inl hn))))
  refine ⟨?_, hsame.mono ((Multiset.le_add_left M _).trans (Multiset.le_add_left _ _)), ?_⟩
  · rw [hset, middle_add_eq]
    exact hI'
  · show (((before ++ n :: behind).set before.length n').map (Node.data m'.heap)) = _
    rw [hset, List.map_append, List.map_cons, hbefore, hbehind, hdata, List.map_append, List.map_cons]
    simpa using (modify_middle (before.map (Node.data m.heap)) (behind.map (Node.data m.heap)) (n.data m.heap) h).symm

theorem cloneOne_spec {n : Node} {i : Nat} (hn : ns[i]? = some n) {M : Multiset Node} (hI : Counted memory m (ns + M)) :
    Counted memory (cloneOneInto m n).1 (ns.set i (cloneOneInto m n).2 + (↑[(cloneOneInto m n).2] + M)) ∧
      Same m (cloneOneInto m n).1 M ∧
      (ns.set i (cloneOneInto m n).2).map (Node.data (cloneOneInto m n).1.heap) = ns.map (Node.data m.heap) ∧
      [(cloneOneInto m n).2].map (Node.data (cloneOneInto m n).1.heap) = [n.data m.heap] := by
  obtain ⟨before, behind, rfl, rfl⟩ := exists_split hn
  rw [middle_add_eq] at hI
  obtain ⟨hI', hsame, hdata⟩ := hI.clone
  generalize cloneOneInto m n = p at *
  obtain ⟨m', n'⟩ := p
  have hset : (before ++ n :: behind).set before.length n' = before ++ n' :: behind := by simp
  have hbefore : before.map (Node.data m'.heap) = before.map (Node.data m.heap) :=
    List.map_congr_left fun n hn => hsame n (Multiset.mem_add.2 (.inl hn))
  have hbehind : behind.map (Node.data m'.heap) = behind.map (Node.data m.heap) :=
    List.map_congr_left fun n hn => hsame n (Multiset.mem_add.2 (.inr (Multiset.mem_add.2 (.inl hn))))
  refine ⟨?_, hsame.mono ((Multiset.le_add_left M _).trans (Multiset.le_add_left _ _)), ?_, ?_⟩
  · rw [hset, middle_add_eq, cons_add_eq, Multiset.coe_nil, zero_add, Multiset.add_cons, Multiset.add_cons]
    exact hI'
  · rw [hset, List.map_append, List.map_cons, hbefore, hbehind, hdata, List.map_append, List.map_cons]
  · rw [List.map_singleton, hdata]

theorem put_becomes {n : Node} {h : Heap UInt8} {data : List UInt8}
    (hadd : ∀ M, Counted memory m M → Counted memory { m with heap := h } (n ::ₘ M) ∧ Same m { m with heap := h } M)
    (hdata : n.data h = data) : ChainBecomes memory m [] (fun _ => [data]) ({ m with heap := h }, [n]) := by
  intro M hI
  obtain ⟨hI', hsame⟩ := hadd M (by simpa using hI)
  exact ⟨hI', hsame, congrArg (fun data => [data]) hdata⟩

end Chains

/-! ### What a program sees -/

/-- The data of the buffers behind each pointer. -/
abbrev Values := Nat → List (List UInt8)

/-- What a program does with values that nobody shares. -/
inductive Edit
  | put (a : Nat) (data : List UInt8)
  | call (a i : Nat) (c : Call)
  | copy (a b : Nat)
  | copyOne (a i b : Nat)
  | splice (a i b : Nat)
  | cut (a i count b : Nat)
  | join (a k : Nat)
  | drop (a : Nat)
  deriving DecidableEq, Repr

def Values.step (v : Values) : Edit → Option Values
  | .put a data => some (Function.update v a [data])
  | .call a i c => some (Function.update v a ((v a).modify i c.shows))
  | .copy a b => some (Function.update v b (v a))
  | .copyOne a i b => some (Function.update v b (v a)[i]?.toList)
  | .splice a i b => some (Function.update (Function.update v b []) a ((v a).take i ++ v b ++ (v a).drop i))
  | .cut a i count b =>
    some (Function.update (Function.update v b (((v a).drop i).take count)) a ((v a).take i ++ (v a).drop (i + count)))
  | .join a k => some (Function.update v a (joinFirst k (v a)))
  | .drop a => some (Function.update v a [])

/-- What an operation does to the values: `unshare` joins a chain that is shared, and the questions and
`reserve` do nothing. -/
def edits (memory : List (List UInt8)) (s : State) : Op → List Edit
  | .create a _ => [.put a []]
  | .wrapBuffer a block size => [.put a ((memory.getD block []).take size)]
  | .takeOwnership a bytes length _ => [.put a (bytes.take length)]
  | .call a i c => [.call a i c]
  | .clone a b => [.copy a b]
  | .cloneOne a i b => [.copyOne a i b]
  | .prependChain a i b => [.splice a i b]
  | .separateChain a i count b => [.cut a i count b]
  | .isShared _ | .makeManaged _ => []
  | .unshare a =>
    if isChained (s.chains a) ∧ (anySharedOne s.mem.heap (s.chains a)).1 then [.join a (s.chains a).length] else []
  | .coalesce a => if isChained (s.chains a) then [.join a (s.chains a).length] else []
  | .gather a maxLength =>
    match gathered (s.chains a) maxLength with
    | none | some 0 => []
    | some (k + 1) => [.join a (k + 1)]
  | .destroy a => [.drop a]

def State.shows (s : State) : Values := fun a => (s.chains a).map (Node.data s.mem.heap)

/-- What holds in every state that a program can reach. -/
structure Inv (memory : List (List UInt8)) (N : Nat) (s : State) : Prop where
  counted : Counted memory s.mem (s.nodes N)
  outside : ∀ a, N ≤ a → s.chains a = []

section Runs

variable {memory : List (List UInt8)} {N : Nat} {s s' : State} {a b : Nat} {m : Mem} {ns ns' : List Node}

theorem nodes_eq (ha : a < N) (chains : Nat → List Node) :
    tally N chains (fun ns => (ns : Multiset Node)) = chains a + tally N (Function.update chains a []) fun ns => (ns : Multiset Node) := by
  have hupdate := tally_update (f := chains) (w := fun ns => (ns : Multiset Node)) ha []
  rw [Multiset.coe_nil, add_zero] at hupdate
  rw [← hupdate, add_comm]

theorem nodes_update {chains : Nat → List Node} (ha : a < N) :
    tally N (Function.update chains a ns) (fun ns => (ns : Multiset Node)) =
      ns + tally N (Function.update chains a []) fun ns => (ns : Multiset Node) := by
  rw [nodes_eq ha, Function.update_self, Function.update_idem]

theorem mem_nodes {chains : Nat → List Node} {n : Node} (ha : a < N) (hn : n ∈ chains a) :
    n ∈ tally N chains fun ns => (ns : Multiset Node) := by
  rw [nodes_eq ha]
  exact Multiset.mem_add.2 (.inl hn)

theorem Inv.update₂ (hI : Inv memory N s) (ha : a < N) (hb : b < N) (hne : a ≠ b) (va vb : List (List UInt8))
    (h : ∀ M, Counted memory s.mem (s.chains a + (s.chains b + M)) → Counted memory m (ns + (ns' + M)) ∧ Same s.mem m M ∧
      ns.map (Node.data m.heap) = va ∧ ns'.map (Node.data m.heap) = vb) :
    let s' : State := { mem := m, chains := Function.update (Function.update s.chains b ns') a ns }
    Inv memory N s' ∧ s'.shows = Function.update (Function.update s.shows b vb) a va := by
  intro s'
  let M := tally N (Function.update (Function.update s.chains b []) a []) fun ns => (ns : Multiset Node)
  have hswap (l : List Node) : Function.update (Function.update s.chains b l) a [] = Function.update (Function.update s.chains a []) b l :=
    (Function.update_comm hne ..).symm
  have hbefore : s.nodes N = s.chains a + (s.chains b + M) := by
    have hothers := nodes_eq (N := N) (show b < N from hb) (Function.update s.chains a [])
    rw [State.nodes, nodes_eq ha, hothers, Function.update_of_ne hne.symm, ← hswap]
  have hafter : s'.nodes N = ns + (ns' + M) := by
    show tally N (Function.update (Function.update s.chains b ns') a ns) _ = _
    rw [nodes_update ha, hswap, nodes_update hb, ← hswap]
  obtain ⟨hcounted, hsame, rfl, rfl⟩ := h M (hbefore ▸ hI.counted)
  refine ⟨⟨hafter ▸ hcounted, fun c hc => ?_⟩, funext fun c => ?_⟩
  · show Function.update (Function.update s.chains b ns') a ns c = []
    rw [Function.update_of_ne (by omega), Function.update_of_ne (by omega)]
    exact hI.outside c hc
  · show (Function.update (Function.update s.chains b ns') a ns c).map (Node.data m.heap) = _
    by_cases hca : c = a
    · rw [hca, Function.update_self, Function.update_self]
    · rw [Function.update_of_ne hca, Function.update_of_ne hca]
      by_cases hcb : c = b
      · rw [hcb, Function.update_self, Function.update_self]
      · rw [Function.update_of_ne hcb, Function.update_of_ne hcb]
        refine List.map_congr_left fun n hn => hsame n ?_
        by_cases hc : c < N
        · refine mem_nodes hc ?_
          rwa [Function.update_of_ne hca, Function.update_of_ne hcb]
        · rw [hI.outside c (by omega)] at hn
          simp at hn

theorem Inv.update (hI : Inv memory N s) (ha : a < N) {f : List (List UInt8) → List (List UInt8)}
    (h : ChainBecomes memory s.mem (s.chains a) f (m, ns)) :
    let s' : State := { mem := m, chains := Function.update s.chains a ns }
    Inv memory N s' ∧ s'.shows = Function.update s.shows a (f (s.shows a)) := by
  intro s'
  obtain ⟨hcounted, hsame, hdata⟩ := h (tally N (Function.update s.chains a []) fun ns => (ns : Multiset Node))
    (nodes_eq ha s.chains ▸ hI.counted)
  refine ⟨⟨?_, fun c hc => ?_⟩, funext fun c => ?_⟩
  · show Counted memory m (tally N (Function.update s.chains a ns) _)
    rw [nodes_update ha]
    exact hcounted
  · show Function.update s.chains a ns c = []
    rw [Function.update_of_ne (by omega)]
    exact hI.outside c hc
  · show (Function.update s.chains a ns c).map (Node.data m.heap) = _
    by_cases hca : c = a
    · rw [hca, Function.update_self, Function.update_self, hdata]
      rfl
    · rw [Function.update_of_ne hca, Function.update_of_ne hca]
      refine List.map_congr_left fun n hn => hsame n ?_
      by_cases hc : c < N
      · refine mem_nodes hc ?_
        rwa [Function.update_of_ne hca]
      · rw [hI.outside c (by omega)] at hn
        simp at hn

variable {junk : Nat → Nat → UInt8} {op : Op} {ops : List Op}

theorem Inv.exec_update (hI : Inv memory N s) (ha : a < N) {f : List (List UInt8) → List (List UInt8)} {edits : List Edit}
    (h : ChainBecomes memory s.mem (s.chains a) f (m, ns))
    (hedits : run Values.step s.shows edits = some (Function.update s.shows a (f (s.shows a)))) :
    let s' : State := { mem := m, chains := Function.update s.chains a ns }
    Inv memory N s' ∧ run Values.step s.shows edits = some s'.shows := by
  intro s'
  obtain ⟨hI', hshows⟩ := hI.update ha h
  exact ⟨hI', hedits.trans (congrArg some hshows.symm)⟩

theorem run_nil_update : run Values.step s.shows [] = some (Function.update s.shows a (id (s.shows a))) := by
  rw [run_nil, id, Function.update_eq_self]

theorem Inv.exec_put (hI : Inv memory N s) (ha : a < N ∧ s.chains a = []) {n : Node} {h : Heap UInt8} {data : List UInt8}
    (hadd : ∀ M, Counted memory s.mem M → Counted memory { s.mem with heap := h } (n ::ₘ M) ∧ Same s.mem { s.mem with heap := h } M)
    (hdata : n.data h = data) :
    let s' : State := { mem := { s.mem with heap := h }, chains := Function.update s.chains a [n] }
    Inv memory N s' ∧ run Values.step s.shows [.put a data] = some s'.shows :=
  hI.exec_update ha.1 (by rw [ha.2]; exact put_becomes hadd hdata) rfl

theorem update_copy (hne : a ≠ b) {v v' : Values} {vb : List (List UInt8)}
    (h : v' = Function.update (Function.update v b vb) a (v a)) : Function.update v b vb = v' := by
  rw [h, Function.update_comm hne.symm, Function.update_eq_self]

/-- **One operation** keeps the counts, and does to the values what it should. -/
theorem exec_spec (hI : Inv memory N s) (hfollows : ∀ a ∈ op.follows, a < N ∧ s.chains a ≠ [])
    (hsets : ∀ a ∈ op.sets, a < N ∧ s.chains a = []) (hstep : exec junk memory.length s op = some s') :
    Inv memory N s' ∧ run Values.step s.shows (edits memory s op) = some s'.shows := by
  cases op with
  | create a capacity =>
    obtain ⟨hfits, ⟨⟩⟩ := Option.ite_none_right_eq_some.1 hstep
    unfold Fits at hfits
    obtain ⟨hbuf, hblock, hinside, hone, hother, hfresh⟩ := create_spec junk (h := s.mem.heap) (show capacity + 31 < 2 ^ 64 by omega)
    have hmanaged : (create junk s.mem.heap capacity).1.managed = true := by
      unfold create
      split_ifs <;> rfl
    refine hI.exec_put (hsets a (by simp [Op.sets])) (fun M hM => hM.add hfresh hother hone hblock hmanaged hinside.2 ?_) ?_
    · exact Nat.le_of_eq (congrArg (fun b => ((create junk s.mem.heap capacity).2.blocks b).cells.length) hblock)
    · exact (congrArg Buf.data hbuf).trans (Buf.data_create capacity)
  | wrapBuffer a block size =>
    obtain ⟨⟨hblock, hsize⟩, ⟨⟩⟩ := Option.ite_none_right_eq_some.1 hstep
    refine hI.exec_put (hsets a (by simp [Op.sets])) (fun M hM => ⟨hM.wrap hblock rfl ?_ hsize, Same.refl s.mem M⟩) ?_
    · show 0 + size ≤ size
      omega
    · show slice (s.mem.heap.blocks block).cells 0 size = _
      rw [hI.counted.kept block hblock]
      rfl
  | takeOwnership a bytes length malloced =>
    obtain ⟨hlength, ⟨⟩⟩ := Option.ite_none_right_eq_some.1 hstep
    obtain ⟨hfresh, hother, hone, hsize, cells, hcells, hlen⟩ := alloc_write junk s.mem.heap
      (show 0 + bytes.length ≤ bytes.length by omega)
    refine hI.exec_put (hsets a (by simp [Op.sets])) (fun M hM => hM.add hfresh hother hone rfl rfl ?_ ?_) ?_
    · show 0 + length ≤ bytes.length
      omega
    · exact Nat.le_of_eq hsize.symm
    · show slice (((s.mem.heap.alloc junk bytes.length).2.write s.mem.heap.fresh 0 bytes).blocks s.mem.heap.fresh).cells 0 length = _
      rw [hcells, slice_splice_zero (by omega)]
      rfl
  | call a i c =>
    obtain ⟨n, hn, hrest⟩ := Option.bind_eq_some_iff.1 hstep
    obtain ⟨⟨m, n'⟩, hcall, ⟨⟩⟩ := Option.bind_eq_some_iff.1 hrest
    exact hI.exec_update (hfollows a (by simp [Op.follows])).1 (set_becomes hn (Call.step_becomes junk hcall)) rfl
  | clone a b =>
    cases hstep
    obtain ⟨ha, hsome⟩ := hfollows a (by simp [Op.follows])
    obtain ⟨hb, hnull⟩ := hsets b (by simp [Op.sets])
    have hne : a ≠ b := fun h => hsome (h ▸ hnull)
    obtain ⟨hI', hshows⟩ := hI.update₂ ha hb hne (s.shows a) (s.shows a) fun M hM => by
      rw [hnull, Multiset.coe_nil, zero_add] at hM
      obtain ⟨hM', hsame, hdata⟩ := clone_spec hM
      exact ⟨hM', hsame, hdata, hdata⟩
    exact ⟨hI', congrArg some (update_copy hne hshows)⟩
  | cloneOne a i b =>
    obtain ⟨n, hn, ⟨⟩⟩ := Option.bind_eq_some_iff.1 hstep
    obtain ⟨ha, hsome⟩ := hfollows a (by simp [Op.follows])
    obtain ⟨hb, hnull⟩ := hsets b (by simp [Op.sets])
    have hne : a ≠ b := fun h => hsome (h ▸ hnull)
    have hvalue : (s.shows a)[i]? = some (n.data s.mem.heap) := by rw [State.shows, List.getElem?_map, hn, Option.map_some]
    obtain ⟨hI', hshows⟩ := hI.update₂ ha hb hne (s.shows a) (s.shows a)[i]?.toList fun M hM => by
      rw [hnull, Multiset.coe_nil, zero_add] at hM
      rw [hvalue]
      exact cloneOne_spec hn hM
    exact ⟨hI', congrArg some (update_copy hne hshows)⟩
  | prependChain a i b =>
    obtain ⟨⟨hne, hpos, hle⟩, ⟨⟩⟩ := Option.ite_none_right_eq_some.1 hstep
    have hsame : ∀ M, Counted memory s.mem (s.chains a + (s.chains b + M)) →
        Counted memory s.mem (↑((s.chains a).take i ++ s.chains b ++ (s.chains a).drop i) + (↑([] : List Node) + M)) := by
      intro M hM
      rw [← List.take_append_drop i (s.chains a), ← Multiset.coe_add] at hM
      rw [← Multiset.coe_add, ← Multiset.coe_add, Multiset.coe_nil, zero_add]
      convert hM using 1
      abel
    obtain ⟨hI', hshows⟩ := hI.update₂ (hfollows a (by simp [Op.follows])).1 (hfollows b (by simp [Op.follows])).1 hne _ _
      fun M hM => ⟨hsame M hM, Same.refl s.mem M, rfl, rfl⟩
    refine ⟨hI', congrArg some ?_⟩
    rw [hshows]
    simp only [State.shows, List.map_append, List.map_take, List.map_drop, List.map_nil]
  | separateChain a i count b =>
    obtain ⟨⟨hpos, hcount, hle⟩, ⟨⟩⟩ := Option.ite_none_right_eq_some.1 hstep
    obtain ⟨ha, hsome⟩ := hfollows a (by simp [Op.follows])
    obtain ⟨hb, hnull⟩ := hsets b (by simp [Op.sets])
    have hne : a ≠ b := fun h => hsome (h ▸ hnull)
    have hsplit : s.chains a = (s.chains a).take i ++ (((s.chains a).drop i).take count ++ (s.chains a).drop (i + count)) := by
      rw [← List.drop_drop, List.take_append_drop, List.take_append_drop]
    have hsame : ∀ M, Counted memory s.mem (s.chains a + (s.chains b + M)) → Counted memory s.mem
        (↑((s.chains a).take i ++ (s.chains a).drop (i + count)) + (↑(((s.chains a).drop i).take count) + M)) := by
      intro M hM
      rw [hnull, hsplit, ← Multiset.coe_add, ← Multiset.coe_add, Multiset.coe_nil, zero_add] at hM
      rw [← Multiset.coe_add]
      convert hM using 1
      abel
    obtain ⟨hI', hshows⟩ := hI.update₂ ha hb hne _ _ fun M hM => ⟨hsame M hM, Same.refl s.mem M, rfl, rfl⟩
    refine ⟨hI', congrArg some ?_⟩
    rw [hshows]
    simp only [State.shows, List.map_append, List.map_take, List.map_drop]
  | isShared a =>
    cases hstep
    exact hI.exec_update (hfollows a (by simp [Op.follows])).1 anySharedOne_becomes run_nil_update
  | unshare a =>
    obtain ⟨⟨hsized, hfits⟩, ⟨⟩⟩ := Option.ite_none_right_eq_some.1 hstep
    refine hI.exec_update (hfollows a (by simp [Op.follows])).1 (unshare_becomes junk hsized hfits) ?_
    show run Values.step s.shows (if _ then [.join a (s.chains a).length] else []) = _
    split_ifs
    · rfl
    · exact run_nil_update
  | makeManaged a =>
    obtain ⟨hfits, ⟨⟩⟩ := Option.ite_none_right_eq_some.1 hstep
    exact hI.exec_update (hfollows a (by simp [Op.follows])).1
      (forEach_becomes (fun m n hn => makeManagedOne_becomes junk hn) hfits) run_nil_update
  | coalesce a =>
    obtain ⟨hsized, ⟨⟩⟩ := Option.ite_none_right_eq_some.1 hstep
    refine hI.exec_update (hfollows a (by simp [Op.follows])).1 (coalesce_becomes junk hsized) ?_
    show run Values.step s.shows (if _ then [.join a (s.chains a).length] else []) = _
    split_ifs
    · rfl
    · exact run_nil_update
  | gather a maxLength =>
    obtain ⟨hsized, ⟨⟩⟩ := Option.ite_none_right_eq_some.1 hstep
    refine hI.exec_update (hfollows a (by simp [Op.follows])).1 (gather_becomes junk hsized) ?_
    show run Values.step s.shows (match gathered (s.chains a) maxLength with | none | some 0 => [] | some (k + 1) => [.join a (k + 1)]) = _
    obtain - | - | k := gathered (s.chains a) maxLength
    · exact run_nil_update
    · exact run_nil_update
    · rfl
  | destroy a =>
    cases hstep
    refine hI.exec_update (hfollows a (by simp [Op.follows])).1 (f := fun _ => []) (fun M hM => ?_) rfl
    obtain ⟨hM', hsame⟩ := destroy_spec hM
    exact ⟨by rwa [Multiset.coe_nil, zero_add], hsame, rfl⟩

theorem step_spec (hI : Inv memory N s) (hstep : step junk N memory.length s op = some s') :
    Inv memory N s' ∧ run Values.step s.shows (edits memory s op) = some s'.shows := by
  obtain ⟨⟨hfollows, hsets⟩, hexec⟩ := Option.ite_none_right_eq_some.1 hstep
  exact exec_spec hI hfollows hsets hexec

theorem inv_initial : Inv memory N (initial memory) where
  counted := by
    have hnone : (initial memory).nodes N = 0 := tally_eq_zero fun _ _ => rfl
    rw [hnone]
    refine ⟨by simp, ⟨Nat.le_refl _, by simp⟩, by simp, fun b _ => rfl, fun b => ?_, by simp, fun b => ?_⟩
    · show 0 = _
      simp
    · show 0 + 0 = if memory.length ≤ b ∧ b < memory.length then 1 else 0
      rw [if_neg fun h => Nat.lt_irrefl _ (Nat.lt_of_le_of_lt h.1 h.2)]
  outside := fun _ _ => rfl

theorem run_inv (hrun : run (step junk N memory.length) (initial memory) ops = some s) : Inv memory N s :=
  run_invariant (fun _ _ _ hI hstep => (step_spec hI hstep).1) inv_initial hrun

/-- A program that wraps three bytes of its own, clones the wrap, writes to the clone and lets go of the first. -/
def wrapOps : List Op :=
  [.wrapBuffer 0 0 3, .clone 0 1, .unshare 1, .call 1 0 (.overwrite 0 [9]), .destroy 0]

def wrapped : List (List UInt8) := [[1, 2, 3]]

theorem run_wrapOps : ∃ s, run (step (fun _ _ => 0) 2 wrapped.length) (initial wrapped) wrapOps = some s :=
  Option.isSome_iff_exists.1 rfl

/-- **Sharing is not seen**: a program with clones, wraps and buffers that move sees what it would see if every
buffer had bytes of its own, and a call changes the buffer that it is made on. -/
theorem run_values (hrun : run (step junk N memory.length) (initial memory) ops = some s) :
    run Values.step (fun _ => []) (trace (step junk N memory.length) (edits memory) (initial memory) ops) = some s.shows :=
  run_trace (fun _ _ _ hI hstep => step_spec hI hstep) inv_initial hrun

theorem run_values_wrap : ∃ s, run (step (fun _ _ => 0) 2 wrapped.length) (initial wrapped) wrapOps = some s ∧
    s.shows 1 = [[9, 2, 3]] := by
  obtain ⟨s, hrun⟩ := run_wrapOps
  have hvalues := run_values hrun
  refine ⟨s, hrun, ?_⟩
  have hshows := congrArg (Option.map fun v => v 1) hvalues
  exact (Option.some_inj.1 hshows).symm

/-- **Every block is counted right and freed once**: in every run a block that was allocated has a count of the
`IOBuf`s on it, and is freed once and only when there are none; so no `IOBuf` is on a block that was freed, and
when there are no `IOBuf`s left then everything is freed. The program's own memory has no count, is not changed
and is not freed. -/
theorem run_accounts (hrun : run (step junk N memory.length) (initial memory) ops = some s) :
    (∀ b, memory.length ≤ b → (s.mem.heap.blocks b).refcount = users b (s.nodes N)) ∧
    (∀ b, s.mem.freed.count b = if memory.length ≤ b ∧ b < s.mem.heap.fresh ∧ users b (s.nodes N) = 0 then 1 else 0) ∧
    (∀ b, b < memory.length → (s.mem.heap.blocks b).cells = memory.getD b []) ∧
    (∀ a, ∀ n ∈ s.chains a, n.view.block < s.mem.heap.fresh ∧ n.view.block ∉ s.mem.freed ∧
      n.view.headroom + n.view.length ≤ (s.mem.heap.blocks n.view.block).cells.length) := by
  have hI := run_inv hrun
  have hfreed : ∀ b, s.mem.freed.count b = if memory.length ≤ b ∧ b < s.mem.heap.fresh ∧ users b (s.nodes N) = 0 then 1 else 0 := by
    intro b
    have hreleased := hI.counted.released b
    rw [hI.counted.refcount] at hreleased
    by_cases hmanaged : memory.length ≤ b
    · by_cases hfresh : b < s.mem.heap.fresh
      · by_cases husers : users b (s.nodes N) = 0
        · rw [if_pos ⟨hmanaged, hfresh, husers⟩]
          rw [if_pos hmanaged, if_pos husers, if_pos ⟨hmanaged, hfresh⟩] at hreleased
          exact hreleased
        · rw [if_neg fun h => husers h.2.2]
          rw [if_pos hmanaged, if_neg husers, if_pos ⟨hmanaged, hfresh⟩] at hreleased
          omega
      · rw [if_neg fun h => hfresh h.2.1]
        have hnone : ¬(memory.length ≤ b ∧ b < s.mem.heap.fresh) := fun h => hfresh h.2
        rw [if_neg hnone] at hreleased
        omega
    · rw [if_neg fun h => hmanaged h.1]
      have hnone : ¬(memory.length ≤ b ∧ b < s.mem.heap.fresh) := fun h => hmanaged h.1
      rw [if_neg hnone] at hreleased
      omega
  refine ⟨fun b hb => by rw [hI.counted.refcount, if_pos hb], hfreed, hI.counted.kept, fun a n hn => ?_⟩
  have ha : a < N := by
    by_contra hle
    rw [hI.outside a (by omega)] at hn
    simp at hn
  have hmem : n ∈ s.nodes N := mem_nodes ha hn
  have hinside := hI.counted.inside n hmem
  refine ⟨hI.counted.fresh.2 n hmem, ?_, Nat.le_trans hinside.1 hinside.2⟩
  rw [← List.count_eq_zero, hfreed, if_neg]
  have hpos := users_pos hmem
  omega

/-- A program that clones a buffer, makes the clone move to a block of its own and lets go of the first. -/
def cloneOps : List Op := [.create 0 8, .clone 0 1, .unshare 1, .destroy 0]

/-- The program has no memory of its own. -/
def noMemory : List (List UInt8) := []

/-- Two are on the block after the clone; it is freed with the first, and the block of the clone is not. -/
theorem run_accounts_clone :
    (∃ s, run (step (fun _ _ => 0) 2 noMemory.length) (initial noMemory) (cloneOps.take 2) = some s ∧
      (s.mem.heap.blocks 0).refcount = 2 ∧ s.mem.freed.count 0 = 0) ∧
    ∃ s, run (step (fun _ _ => 0) 2 noMemory.length) (initial noMemory) cloneOps = some s ∧
      (s.mem.heap.blocks 0).refcount = 0 ∧ s.mem.freed.count 0 = 1 ∧
      (s.mem.heap.blocks 1).refcount = 1 ∧ s.mem.freed.count 1 = 0 := by
  constructor
  · obtain ⟨s, hrun⟩ : ∃ s, run (step (fun _ _ => 0) 2 noMemory.length) (initial noMemory) (cloneOps.take 2) = some s :=
      Option.isSome_iff_exists.1 rfl
    obtain ⟨hcount, hfreed, -⟩ := run_accounts hrun
    have husers : users 0 (s.nodes 2) = 2 :=
      (Option.some_inj.1 (congrArg (Option.map fun s => users 0 (State.nodes 2 s)) hrun)).symm
    refine ⟨s, hrun, (hcount 0 (by decide)).trans husers, ?_⟩
    rw [hfreed, husers, if_neg (by simp)]
  · obtain ⟨s, hrun⟩ : ∃ s, run (step (fun _ _ => 0) 2 noMemory.length) (initial noMemory) cloneOps = some s :=
      Option.isSome_iff_exists.1 rfl
    obtain ⟨hcount, hfreed, -⟩ := run_accounts hrun
    have hfirst : users 0 (s.nodes 2) = 0 :=
      (Option.some_inj.1 (congrArg (Option.map fun s => users 0 (State.nodes 2 s)) hrun)).symm
    have hclone : users 1 (s.nodes 2) = 1 :=
      (Option.some_inj.1 (congrArg (Option.map fun s => users 1 (State.nodes 2 s)) hrun)).symm
    have hfresh : s.mem.heap.fresh = 2 :=
      (Option.some_inj.1 (congrArg (Option.map fun s => State.mem s |>.heap.fresh) hrun)).symm
    refine ⟨s, hrun, (hcount 0 (by decide)).trans hfirst, ?_, (hcount 1 (by decide)).trans hclone, ?_⟩
    · rw [hfreed, hfirst, hfresh]
      rfl
    · rw [hfreed, hclone, if_neg (by simp)]

/-- **The flag is a cache of the count**: what `isSharedOne` says in any state is whether the block is user
memory or another `IOBuf` is on it, also when it does not look at the count. -/
theorem run_isSharedOne (hrun : run (step junk N memory.length) (initial memory) ops = some s) {n : Node} (ha : a < N)
    (hn : n ∈ s.chains a) :
    (n.isSharedOne s.mem.heap).1 = decide (n.view.block < memory.length ∨ 1 < users n.view.block (s.nodes N)) := by
  have hI := run_inv hrun
  have hmem : n ∈ s.nodes N := mem_nodes ha hn
  have hmanaged := hI.counted.managed n hmem
  have hiff := isSharedOne_iff hI.counted hmem
  rw [hI.counted.refcount] at hiff
  rw [Bool.eq_iff_iff, hiff, decide_eq_true_iff]
  by_cases hle : memory.length ≤ n.view.block
  · rw [if_pos hle, hmanaged.2 hle]
    simp [Nat.not_lt.2 hle]
  · have hfalse : n.view.managed = false := by
      rw [← Bool.not_eq_true]
      exact fun h => hle (hmanaged.1 h)
    simp [hfalse, Nat.lt_of_not_le hle]

theorem run_isSharedOne_wrap : ∃ s, run (step (fun _ _ => 0) 2 wrapped.length) (initial wrapped) wrapOps = some s ∧
    ∀ n ∈ s.chains 1, (n.isSharedOne s.mem.heap).1 = false := by
  obtain ⟨s, hrun⟩ := run_wrapOps
  have husers : users 1 (s.nodes 2) = 1 :=
    (Option.some_inj.1 (congrArg (Option.map fun s => users 1 (State.nodes 2 s)) hrun)).symm
  have hblocks : (s.chains 1).map (fun n => n.view.block) = [1] :=
    (Option.some_inj.1 (congrArg (Option.map fun s => (State.chains s 1).map fun n => n.view.block) hrun)).symm
  refine ⟨s, hrun, fun n hn => (run_isSharedOne hrun (by decide) hn).trans ?_⟩
  have hblock : n.view.block ∈ (s.chains 1).map fun n => n.view.block := List.mem_map_of_mem hn
  rw [hblocks, List.mem_singleton] at hblock
  rw [hblock, husers]
  decide

theorem isSharedOne_again {h h' : Heap UInt8} {n : Node} (hone : (n.isSharedOne h).1 = false) :
    ((n.isSharedOne h).2.isSharedOne h').1 = false := by
  unfold Node.isSharedOne at hone ⊢
  split_ifs at hone with hmanaged hflag hshared
  · simp [hmanaged, hflag]
  · simp [hmanaged, hflag, hshared]

theorem anySharedOne_again {h h' : Heap UInt8} (hone : (anySharedOne h ns).1 = false) :
    ∀ n ∈ (anySharedOne h ns).2, (n.isSharedOne h').1 = false := by
  induction ns with
  | nil => exact List.forall_mem_nil _
  | cons n ns ih =>
    unfold anySharedOne at hone ⊢
    have hagain : _ → ((n.isSharedOne h).2.isSharedOne h').1 = false := isSharedOne_again
    generalize n.isSharedOne h = p at hone hagain ⊢
    obtain ⟨shared, n'⟩ := p
    cases shared with
    | true => exact absurd hone (by simp)
    | false => exact List.forall_mem_cons.2 ⟨hagain rfl, ih hone⟩

theorem isSharedOne_unshare {h : Heap UInt8} : ∀ n ∈ (unshare junk m ns).2, (n.isSharedOne h).1 = false := by
  unfold unshare
  split_ifs with hchained
  · have hagain : _ → ∀ n ∈ (anySharedOne m.heap ns).2, (n.isSharedOne h).1 = false := anySharedOne_again
    generalize anySharedOne m.heap ns = p at hagain ⊢
    obtain ⟨shared, ns'⟩ := p
    cases shared with
    | true =>
      refine List.forall_mem_cons.2 ⟨?_, List.forall_mem_nil _⟩
      simp [Node.isSharedOne]
    | false => exact hagain rfl
  · obtain - | ⟨n, ns⟩ := ns
    · exact List.forall_mem_nil _
    · obtain rfl : ns = [] := by
        unfold isChained at hchained
        rw [List.length_cons, decide_eq_true_iff] at hchained
        exact List.eq_nil_of_length_eq_zero (by omega)
      refine List.forall_mem_cons.2 ⟨?_, List.forall_mem_nil _⟩
      show ((unshareOne junk m n).2.isSharedOne h).1 = false
      unfold unshareOne
      have hagain : _ → ((n.isSharedOne m.heap).2.isSharedOne h).1 = false := isSharedOne_again
      generalize n.isSharedOne m.heap = p at hagain ⊢
      obtain ⟨shared, n'⟩ := p
      cases shared with
      | true => simp [unshareOneSlow, Node.isSharedOne]
      | false => exact hagain rfl

/-- **After `unshare` a chain may be written**: nobody else is on its blocks, its bytes are those it had, and no
other chain is changed. -/
theorem run_unshare (hrun : run (step junk N memory.length) (initial memory) ops = some s)
    (hunshare : step junk N memory.length s (.unshare a) = some s') :
    (∀ n ∈ s'.chains a, memory.length ≤ n.view.block ∧ users n.view.block (s'.nodes N) = 1) ∧
    (s'.shows a).flatten = (s.shows a).flatten ∧ ∀ b, b ≠ a → s'.shows b = s.shows b := by
  obtain ⟨hI', hedits⟩ := step_spec (run_inv hrun) hunshare
  obtain ⟨⟨hfollows, -⟩, hexec⟩ := Option.ite_none_right_eq_some.1 hunshare
  have ha := (hfollows a (by simp [Op.follows])).1
  refine ⟨fun n hn => ?_, ?_⟩
  · have hmem : n ∈ s'.nodes N := mem_nodes ha hn
    obtain ⟨-, ⟨⟩⟩ := Option.ite_none_right_eq_some.1 hexec
    have hn' : n ∈ Function.update s.chains a (unshare junk s.mem (s.chains a)).2 a := hn
    rw [Function.update_self] at hn'
    have hw : Writable (unshare junk s.mem (s.chains a)).1 n := isSharedOne_unshare n hn'
    obtain ⟨hmanaged, hone⟩ := (writable_iff hI'.counted hmem).1 hw
    exact ⟨(hI'.counted.managed n hmem).1 hmanaged, (hI'.counted.refcount_of_managed hmem hmanaged).symm.trans hone⟩
  · have hcases : edits memory s (.unshare a) = [] ∨ edits memory s (.unshare a) = [.join a (s.chains a).length] := by
      rw [show edits memory s (.unshare a) =
        if isChained (s.chains a) ∧ (anySharedOne s.mem.heap (s.chains a)).1 then [.join a (s.chains a).length] else [] from rfl]
      split_ifs
      · exact .inr rfl
      · exact .inl rfl
    obtain hnone | hjoin := hcases
    · rw [hnone, run_nil, Option.some.injEq] at hedits
      rw [← hedits]
      exact ⟨rfl, fun b _ => rfl⟩
    · rw [hjoin, run_cons_eq_some] at hedits
      obtain ⟨v, ⟨⟩, hrest⟩ := hedits
      rw [run_nil, Option.some.injEq] at hrest
      rw [← hrest]
      refine ⟨?_, fun b hb => Function.update_of_ne hb ..⟩
      rw [Function.update_self, joinFirst, List.flatten_cons, ← List.flatten_append, List.take_append_drop]

theorem run_unshare_wrap : ∃ s s', run (step (fun _ _ => 0) 2 wrapped.length) (initial wrapped) (wrapOps.take 2) = some s ∧
    step (fun _ _ => 0) 2 wrapped.length s (.unshare 1) = some s' ∧ (s'.shows 1).flatten = (s.shows 1).flatten := by
  obtain ⟨s', hrun⟩ := Option.isSome_iff_exists.1
    (show (run (step (fun _ _ => 0) 2 wrapped.length) (initial wrapped) (wrapOps.take 2 ++ [.unshare 1])).isSome from rfl)
  obtain ⟨s, hbefore, hlast⟩ := run_append_eq_some.mp hrun
  obtain ⟨t, hunshare, hnil⟩ := run_cons_eq_some.mp hlast
  exact ⟨s, t, hbefore, hunshare, (run_unshare hbefore hunshare).2.1⟩

end Runs

end Raster.Sharing
