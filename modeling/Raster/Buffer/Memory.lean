import Raster.Buffer.IOBuf
import Raster.Lib.Heap

/-!
# Chains in memory

`raster/io/IOBuf.cpp` with its blocks: an `IOBuf` is a view of a part of a block that is counted and may be shared with other
`IOBuf`s. `Appender` writes into the tailroom of the last one, `reserve` moves data inside a block or to a new one, and `coalesce`
and `gather` copy the data of several views into a new block. What a view shows is a `Buf`, and the operations are those on chains
of `Buf`s that are not shared. Sizes are `uint64_t`.
-/

namespace Raster.Memory

open Lib

/-- The parts of an `IOBuf` object. -/
structure View where
  block : Nat
  /-- `data_ - buf_`. -/
  headroom : Nat
  length : Nat
  /-- There is a `SharedInfo`; else the block belongs to somebody else. -/
  managed : Bool
  /-- The block is released with `free`. -/
  malloced : Bool
  deriving DecidableEq, Repr

namespace View

variable (h : Heap UInt8) (v : View)

def capacity : Nat := (h.blocks v.block).cells.length

def tailroom : Nat := v.capacity h - v.headroom - v.length

def data : List UInt8 := slice (h.blocks v.block).cells v.headroom v.length

/-- What the view shows. -/
def toBuf : Buf :=
  { headroom := v.headroom, data := v.data h, tailroom := v.tailroom h, external := v.managed && v.malloced }

/-- The view is inside a block that exists. -/
def Inside : Prop := v.block < h.fresh ∧ v.headroom + v.length ≤ v.capacity h

/-- `!isSharedOne()`. -/
def Unshared : Prop := v.managed = true ∧ (h.blocks v.block).refcount = 1

instance : Decidable (v.Inside h) := inferInstanceAs (Decidable (_ ∧ _))

instance : Decidable (v.Unshared h) := inferInstanceAs (Decidable (_ ∧ _))

end View

/-- A chain, from its head on. -/
structure Chain where
  head : View
  rest : List View := []
  deriving DecidableEq, Repr

namespace Chain

def views (c : Chain) : List View := c.head :: c.rest

def data (h : Heap UInt8) (c : Chain) : List UInt8 := c.views.flatMap (View.data h)

/-- `prev()` of the head. -/
def last (c : Chain) : View := c.rest.getLastD c.head

def setLast (c : Chain) (v : View) : Chain :=
  match c.rest with
  | [] => { head := v }
  | _ :: _ => { c with rest := c.rest.dropLast ++ [v] }

/-- What the chain shows. -/
def toIOBuf (h : Heap UInt8) (c : Chain) : IOBuf := { head := c.head.toBuf h, rest := c.rest.map (View.toBuf h) }

/-- The views are inside their blocks, which count them as users. -/
structure Valid (h : Heap UInt8) (c : Chain) : Prop where
  inside : ∀ v ∈ c.views, v.Inside h
  counted : ∀ v ∈ c.views, (c.views.map View.block).count v.block ≤ (h.blocks v.block).refcount

/-- What `coalesce` and `gather` allocate for the chain has a size that fits in 64 bits. -/
def Sized (h : Heap UInt8) (c : Chain) : Prop :=
  ∀ v ∈ c.views, (c.views.map View.length).sum + c.head.headroom + v.tailroom h + 31 < 2 ^ 64

/-- No other buffer of the chain has data in the tailroom of the last one. -/
def TailFree (c : Chain) : Prop :=
  ∀ v ∈ c.views.dropLast, v.block = c.last.block → 0 < v.length → v.headroom + v.length ≤ c.last.headroom + c.last.length

instance (h : Heap UInt8) (c : Chain) : Decidable (c.Sized h) := inferInstanceAs (Decidable (∀ v ∈ _, _))

instance (c : Chain) : Decidable c.TailFree := inferInstanceAs (Decidable (∀ v ∈ _, _))

end Chain

/-! ### Allocation -/

/-- The bytes for a buffer and its `SharedInfo`, in `size_t`. -/
def goodExtBufferSize (minCapacity : Nat) : Nat := ((minCapacity + Buf.sharedInfoSize) % 2 ^ 64 + 7) % 2 ^ 64 / 8 * 8

def extCapacity (minCapacity : Nat) : Nat := goodExtBufferSize minCapacity - Buf.sharedInfoSize

variable (junk : Nat → Nat → UInt8)

/-- `allocExtBuffer`: the block and the heap with it. -/
def allocExtBuffer (h : Heap UInt8) (minCapacity : Nat) : Nat × Heap UInt8 := h.alloc junk (extCapacity minCapacity)

/-- `IOBuf::create`: `createCombined` up to 1024 bytes, else `createSeparate`. -/
def create (h : Heap UInt8) (capacity : Nat) : View × Heap UInt8 :=
  if capacity ≤ 1024 then
    let (block, h) := h.alloc junk capacity
    ({ block, headroom := 0, length := 0, managed := true, malloced := false }, h)
  else
    let (block, h) := allocExtBuffer junk h capacity
    ({ block, headroom := 0, length := 0, managed := true, malloced := true }, h)

/-! ### The appender -/

/-- `memcpy` to the tail of the last buffer, and `append`. -/
def append (h : Heap UInt8) (c : Chain) (bytes : List UInt8) : Heap UInt8 × Chain :=
  (h.write c.last.block (c.last.headroom + c.last.length) bytes,
    c.setLast { c.last with length := c.last.length + bytes.length })

/-- `prependChain` of a new buffer to the head. -/
def grow (h : Heap UInt8) (c : Chain) (capacity : Nat) : Heap UInt8 × Chain :=
  let (v, h) := create junk h capacity
  (h, { c with rest := c.rest ++ [v] })

def ensure (growth : Nat) (h : Heap UInt8) (c : Chain) (n : Nat) : Except String (Heap UInt8 × Chain) :=
  if n ≤ c.last.tailroom h then .ok (h, c)
  else if growth = 0 then .error "can't grow buffer chain"
  else .ok (grow junk h c (max n growth))

/-- `Appender::pushAtMost` with the number of bytes that were copied; `fuel` bounds the turns of its loop. -/
def pushAtMost (growth : Nat) : (fuel : Nat) → Heap UInt8 → Chain → List UInt8 → Option (Nat × Heap UInt8 × Chain)
  | 0, _, _, _ => none
  | fuel + 1, h, c, bytes =>
    let available := c.last.tailroom h
    if bytes.length ≤ available then some (bytes.length, append h c bytes)
    else
      let (h, c) := append h c (bytes.take available)
      if growth = 0 then some (available, h, c)
      else
        let (h, c) := grow junk h c growth
        match pushAtMost growth fuel h c (bytes.drop available) with
        | none => none
        | some (copied, h, c) => some (available + copied, h, c)

/-! ### Coalescing -/

/-- The lengths that are added up in a `uint64_t`. -/
def sumLength (vs : List View) : Nat := vs.foldl (fun n v => (n + v.length) % 2 ^ 64) 0

/-- The loop that copies the data of the views to the block `newBuf`, one behind the other from `p` on. -/
def copyAll (newBuf : Nat) : (p : Nat) → List View → Heap UInt8 → Heap UInt8
  | _, [], h => h
  | p, v :: vs, h => copyAll newBuf (p + v.length) vs (h.write newBuf p (v.data h))

/-- `decrementRefcount`, here and in the destructors of the views that are separated. -/
def decrementRefcounts (vs : List View) (h : Heap UInt8) : Heap UInt8 :=
  ((vs.filter View.managed).map View.block).foldl Heap.release h

/-- `coalesceAndReallocate`: the views from the head to `end` are replaced by one, before those that are kept. -/
def coalesceAndReallocate (h : Heap UInt8) (merged kept : List View) (newHeadroom newLength newTailroom : Nat) :
    Heap UInt8 × Chain :=
  let newCapacity := (newLength + newHeadroom + newTailroom) % 2 ^ 64
  let (newBuf, h) := allocExtBuffer junk h newCapacity
  let h := copyAll newBuf newHeadroom merged h
  (decrementRefcounts merged h,
    { head := { block := newBuf, headroom := newHeadroom, length := newLength, managed := true, malloced := true }, rest := kept })

/-- The tailroom of the last of some views. -/
def tailroomBehind (h : Heap UInt8) (vs : List View) : Nat := (vs.getLast?.map (View.tailroom h)).getD 0

def coalesce (h : Heap UInt8) (c : Chain) : Heap UInt8 × Chain :=
  if c.rest = [] then (h, c)
  else coalesceAndReallocate junk h c.views [] c.head.headroom (sumLength c.views) (tailroomBehind h c.views)

/-- The number of views whose lengths add up to `maxLength`, `none` when the loop comes to its start first. -/
def countFor (maxLength : Nat) : (newLength : Nat) → List View → Option Nat
  | _, [] => none
  | newLength, v :: vs =>
    let newLength := (newLength + v.length) % 2 ^ 64
    if maxLength ≤ newLength then some 1 else (countFor maxLength newLength vs).map (· + 1)

/-- `gather` with `coalesceSlow(maxLength)`. -/
def gather (h : Heap UInt8) (c : Chain) (maxLength : Nat) : Except String Unit × Heap UInt8 × Chain :=
  if c.rest = [] ∨ maxLength ≤ c.head.length then (.ok (), h, c)
  else match countFor maxLength 0 c.views with
    | none => (.error "attempted to coalesce more data than available", h, c)
    | some k =>
      let merged := c.views.take k
      (.ok (), coalesceAndReallocate junk h merged (c.views.drop k) c.head.headroom (sumLength merged) (tailroomBehind h merged))

/-! ### Reserving room -/

/-- The old block is copied by `realloc` or by `memcpy`, and freed. -/
def reserveSlow (h : Heap UInt8) (v : View) (minHeadroom minTailroom : Nat) : Heap UInt8 × View :=
  let newCapacity := v.length + minHeadroom + minTailroom
  if minHeadroom + minTailroom ≤ v.headroom + v.tailroom h then
    (h.write v.block minHeadroom (v.data h), { v with headroom := minHeadroom })
  else if v.managed ∧ v.malloced ∧ v.length ≠ 0 ∧ minHeadroom ≤ v.headroom ∧ (v.capacity h - v.length) * 2 ≤ v.length then
    let headSlack := v.headroom - minHeadroom
    let (newBuffer, h') := allocExtBuffer junk h (newCapacity + headSlack)
    -- `realloc` keeps the bytes of the old block, as far as they fit
    let h' := h'.write newBuffer 0 ((h.blocks v.block).cells.take (extCapacity (newCapacity + headSlack)))
    (h'.free v.block, { v with block := newBuffer, managed := true, malloced := true })
  else
    let (newBuffer, h') := allocExtBuffer junk h newCapacity
    let h' := h'.write newBuffer minHeadroom (v.data h)
    (if v.managed then h'.free v.block else h',
      { block := newBuffer, headroom := minHeadroom, length := v.length, managed := true, malloced := true })

def reserve (h : Heap UInt8) (v : View) (minHeadroom minTailroom : Nat) : Heap UInt8 × View :=
  if minHeadroom ≤ v.headroom ∧ minTailroom ≤ v.tailroom h then (h, v)
  else if v.length = 0 ∧ minHeadroom + minTailroom ≤ v.headroom + v.tailroom h then (h, { v with headroom := minHeadroom })
  else reserveSlow junk h v minHeadroom minTailroom

/-! ### Views and chains -/

theorem View.data_congr {h h' : Heap UInt8} {v : View} (hcells : (h'.blocks v.block).cells = (h.blocks v.block).cells) :
    v.data h' = v.data h := by
  rw [View.data, View.data, hcells]

theorem View.inside_congr {h h' : Heap UInt8} {v : View} (hcells : (h'.blocks v.block).cells = (h.blocks v.block).cells)
    (hfresh : h.fresh ≤ h'.fresh) (hv : v.Inside h) : v.Inside h' :=
  ⟨Nat.lt_of_lt_of_le hv.1 hfresh, by rw [View.capacity, hcells]; exact hv.2⟩

theorem View.toBuf_congr {h h' : Heap UInt8} {v : View} (hcells : (h'.blocks v.block).cells = (h.blocks v.block).cells) :
    v.toBuf h' = v.toBuf h := by
  simp only [View.toBuf, View.data, View.tailroom, View.capacity, hcells]

theorem View.toBuf_write {h : Heap UInt8} {v : View} {b i : Nat} {bytes : List UInt8}
    (hfit : i + bytes.length ≤ (h.blocks b).cells.length) (hfree : v.block = b → 0 < v.length → v.headroom + v.length ≤ i) :
    v.toBuf (h.write b i bytes) = v.toBuf h := by
  by_cases heq : v.block = b
  · subst heq
    have hlen : ((h.write v.block i bytes).blocks v.block).cells.length = (h.blocks v.block).cells.length := by
      rw [Heap.write_self]
      exact length_splice hfit
    have hdata : v.data (h.write v.block i bytes) = v.data h := by
      rw [View.data, View.data, Heap.write_self]
      by_cases hpos : 0 < v.length
      · exact slice_splice_before bytes (hfree rfl hpos) (by omega)
      · rw [show v.length = 0 by omega, slice_zero, slice_zero]
    simp only [View.toBuf, hdata, View.tailroom, View.capacity, hlen]
  · exact View.toBuf_congr (by rw [Heap.write_of_ne h heq])

theorem View.length_data {h : Heap UInt8} {v : View} (hv : v.Inside h) : (v.data h).length = v.length := length_slice hv.2

theorem View.count_eq_zero {vs : List View} {b : Nat} (hvs : ∀ v ∈ vs, v.block ≠ b) : (vs.map View.block).count b = 0 := by
  rw [List.count_eq_zero]
  intro hmem
  obtain ⟨v, hv, heq⟩ := List.mem_map.1 hmem
  exact hvs v hv heq

namespace Chain

variable {h : Heap UInt8} {c : Chain}

theorem views_eq (c : Chain) : c.views = c.views.dropLast ++ [c.last] := by
  obtain ⟨head, rest⟩ := c
  have hne : head :: rest ≠ [] := by simp
  rw [show last ⟨head, rest⟩ = (head :: rest).getLast hne from ?_]
  · exact (List.dropLast_append_getLast hne).symm
  · cases rest with
    | nil => rfl
    | cons v vs => simp [last, List.getLastD_eq_getLast?, List.getLast?_eq_some_getLast]

theorem views_setLast (c : Chain) (v : View) : (c.setLast v).views = c.views.dropLast ++ [v] := by
  obtain ⟨head, rest⟩ := c
  cases rest <;> simp [setLast, views]

theorem last_of_views {c : Chain} {vs : List View} {v : View} (hviews : c.views = vs ++ [v]) : c.last = v := by
  rw [views_eq c] at hviews
  exact (List.append_inj' hviews rfl).2 |> List.singleton_inj.1

theorem mem_last (c : Chain) : c.last ∈ c.views := by
  rw [views_eq]
  simp

theorem bufs_toIOBuf (h : Heap UInt8) (c : Chain) : (c.toIOBuf h).bufs = c.views.map (View.toBuf h) := rfl

theorem ext_bufs {c c' : IOBuf} (hbufs : c.bufs = c'.bufs) : c = c' := by
  cases c
  cases c'
  cases hbufs
  rfl

theorem last_toIOBuf (h : Heap UInt8) (c : Chain) : (c.toIOBuf h).last = c.last.toBuf h := by
  simp only [IOBuf.last, toIOBuf, last, List.getLastD_eq_getLast?, List.getLast?_map]
  cases c.rest.getLast? <;> rfl

theorem data_toIOBuf (h : Heap UInt8) (c : Chain) : (c.toIOBuf h).data = c.data h := by
  rw [IOBuf.data, bufs_toIOBuf, List.flatMap_map]
  rfl

end Chain

/-! ### Allocation -/

theorem goodExtBufferSize_eq {n : Nat} (hn : n + 31 < 2 ^ 64) : goodExtBufferSize n = Buf.goodExtBufferSize n := by
  unfold goodExtBufferSize Buf.goodExtBufferSize Buf.sharedInfoSize
  omega

theorem extCapacity_eq {n : Nat} (hn : n + 31 < 2 ^ 64) : extCapacity n = Buf.extCapacity n := by
  rw [extCapacity, goodExtBufferSize_eq hn]
  rfl

section Create

variable {h : Heap UInt8}

theorem toBuf_alloc (n : Nat) (malloced : Bool) :
    View.toBuf (h.alloc junk n).2 { block := h.fresh, headroom := 0, length := 0, managed := true, malloced } =
      { headroom := 0, data := [], tailroom := n, external := malloced } := by
  have hcells := (h.alloc_new junk n).1
  simp only [View.toBuf, View.data, View.tailroom, View.capacity, hcells, slice_zero, Nat.sub_zero, Bool.true_and]

theorem create_spec {capacity : Nat} (hcapacity : capacity + 31 < 2 ^ 64) :
    (create junk h capacity).1.toBuf (create junk h capacity).2 = Buf.create capacity ∧
    (create junk h capacity).1.block = h.fresh ∧
    (create junk h capacity).1.Inside (create junk h capacity).2 ∧
    ((create junk h capacity).2.blocks h.fresh).refcount = 1 ∧
    (∀ b, b ≠ h.fresh → (create junk h capacity).2.blocks b = h.blocks b) ∧
    (create junk h capacity).2.fresh = h.fresh + 1 := by
  unfold create
  split_ifs with hsmall
  · refine ⟨(toBuf_alloc junk capacity false).trans ?_, rfl, ⟨Nat.lt_succ_self _, Nat.zero_le _⟩, (h.alloc_new junk capacity).2,
      fun b hb => h.alloc_of_ne junk capacity hb, rfl⟩
    rw [Buf.create, if_pos hsmall]
  · refine ⟨(toBuf_alloc junk (extCapacity capacity) true).trans ?_, rfl, ⟨Nat.lt_succ_self _, Nat.zero_le _⟩,
      (h.alloc_new junk (extCapacity capacity)).2, fun b hb => h.alloc_of_ne junk (extCapacity capacity) hb, rfl⟩
    rw [Buf.create, if_neg hsmall, extCapacity_eq hcapacity]

end Create

/-! ### The appender writes what a chain of unshared buffers holds -/

section Appender

variable {h : Heap UInt8} {c : Chain}

theorem grow_spec (hc : c.Valid h) {capacity : Nat} (hcapacity : capacity + 31 < 2 ^ 64) :
    (grow junk h c capacity).2.toIOBuf (grow junk h c capacity).1 = (c.toIOBuf h).prependChain (IOBuf.create capacity) ∧
    (grow junk h c capacity).2.Valid (grow junk h c capacity).1 ∧ (grow junk h c capacity).2.TailFree := by
  obtain ⟨hbuf, hblock, hinside, hcount, hother, hfresh⟩ := create_spec junk (h := h) hcapacity
  have hviews : (grow junk h c capacity).2.views = c.views ++ [(create junk h capacity).1] := rfl
  have hheap : (grow junk h c capacity).1 = (create junk h capacity).2 := rfl
  have hold : ∀ v ∈ c.views, v.block ≠ h.fresh := fun v hv => Nat.ne_of_lt (hc.inside v hv).1
  have hmap : c.views.map (View.toBuf (create junk h capacity).2) = c.views.map (View.toBuf h) :=
    List.map_congr_left fun v hv => View.toBuf_congr (by rw [hother _ (hold v hv)])
  refine ⟨Chain.ext_bufs ?_, ⟨fun v hv => ?_, fun v hv => ?_⟩, fun v hv heq => ?_⟩
  · rw [Chain.bufs_toIOBuf, hviews, hheap, List.map_append, hmap, List.map_singleton, hbuf]
    rfl
  · rw [hheap]
    rw [hviews] at hv
    obtain hv | hv := List.mem_append.1 hv
    · have hv' := hc.inside v hv
      exact View.inside_congr (by rw [hother _ (hold v hv)]) (by omega) hv'
    · obtain rfl := List.mem_singleton.1 hv
      exact hinside
  · rw [hheap, hviews, List.map_append, List.map_singleton, List.count_append, hblock]
    rw [hviews] at hv
    obtain hv | hv := List.mem_append.1 hv
    · rw [hother _ (hold v hv), List.count_singleton, if_neg (by simpa using (hold v hv).symm)]
      exact hc.counted v hv
    · obtain rfl := List.mem_singleton.1 hv
      have hnone : (c.views.map View.block).count h.fresh = 0 := View.count_eq_zero hold
      exact Nat.le_of_eq (by rw [hblock, hnone, hcount, List.count_singleton, if_pos (by simp)])
  · rw [hviews, List.dropLast_concat] at hv
    rw [Chain.last_of_views hviews, hblock] at heq
    exact absurd heq (hold v hv)

theorem append_spec (hc : c.Valid h) (htail : c.TailFree) {bytes : List UInt8} (hroom : bytes.length ≤ c.last.tailroom h) :
    (append h c bytes).2.toIOBuf (append h c bytes).1 = (c.toIOBuf h).append bytes ∧
      (append h c bytes).2.Valid (append h c bytes).1 := by
  have hlast := hc.inside c.last c.mem_last
  have hviews : (append h c bytes).2.views = c.views.dropLast ++ [{ c.last with length := c.last.length + bytes.length }] :=
    c.views_setLast _
  have hfit : c.last.headroom + c.last.length + bytes.length ≤ (h.blocks c.last.block).cells.length := by
    have hle := hlast.2
    unfold View.tailroom at hroom
    unfold View.capacity at hroom hle
    omega
  have hlen (b : Nat) : ((append h c bytes).1.blocks b).cells.length = (h.blocks b).cells.length := Heap.length_write h hfit b
  have hcount (b : Nat) : ((append h c bytes).1.blocks b).refcount = (h.blocks b).refcount := Heap.refcount_write h _ _ bytes b
  have hblocks : (append h c bytes).2.views.map View.block = c.views.map View.block := by
    rw [hviews, Chain.views_eq c, List.dropLast_concat, List.map_append, List.map_append]
    rfl
  have hfront : ∀ v ∈ c.views.dropLast, v.toBuf (append h c bytes).1 = v.toBuf h := fun v hv =>
    View.toBuf_write hfit fun hblock hpos => htail v hv hblock hpos
  have hback : View.toBuf (append h c bytes).1 { c.last with length := c.last.length + bytes.length } =
      (c.last.toBuf h).append bytes := by
    have hdata : View.data (append h c bytes).1 { c.last with length := c.last.length + bytes.length } =
        c.last.data h ++ bytes := by
      unfold View.data append
      rw [Heap.write_self]
      exact slice_splice_append _ _ bytes hlast.2
    simp only [View.toBuf, Buf.append, hdata, View.tailroom, View.capacity, hlen, Buf.mk.injEq, true_and, and_true]
    omega
  refine ⟨Chain.ext_bufs ?_, ⟨fun v hv => ?_, fun v hv => ?_⟩⟩
  · rw [Chain.bufs_toIOBuf, hviews, List.map_append, List.map_congr_left hfront, List.map_singleton, hback, IOBuf.append,
      IOBuf.bufs_setLast, Chain.bufs_toIOBuf, Chain.last_toIOBuf, List.map_dropLast]
  · rw [hviews] at hv
    obtain hv | hv := List.mem_append.1 hv
    · have hv' := hc.inside v (List.dropLast_subset _ hv)
      exact ⟨hv'.1, by rw [View.capacity, hlen]; exact hv'.2⟩
    · obtain rfl := List.mem_singleton.1 hv
      refine ⟨hlast.1, ?_⟩
      rw [View.capacity, hlen]
      exact (Nat.add_assoc c.last.headroom _ _).symm ▸ hfit
  · rw [hblocks, hcount]
    have hmem : v.block ∈ c.views.map View.block := hblocks ▸ List.mem_map_of_mem hv
    obtain ⟨v', hv', heq⟩ := List.mem_map.1 hmem
    rw [← heq]
    exact hc.counted v' hv'

theorem tailroom_toIOBuf (h : Heap UInt8) (c : Chain) : (c.toIOBuf h).last.tailroom = c.last.tailroom h := by
  rw [Chain.last_toIOBuf]
  rfl

theorem ensure_refines (hc : c.Valid h) {growth n : Nat} (hpos : 0 < growth) (hgrowth : growth + 31 < 2 ^ 64)
    (hn : n + 31 < 2 ^ 64) :
    ∃ h' c', ensure junk growth h c n = .ok (h', c') ∧ c'.toIOBuf h' = (c.toIOBuf h).ensure growth n ∧ c'.Valid h' := by
  unfold ensure IOBuf.ensure
  rw [tailroom_toIOBuf]
  by_cases hroom : n ≤ c.last.tailroom h
  · rw [if_pos hroom, if_pos hroom]
    exact ⟨h, c, rfl, rfl, hc⟩
  · obtain ⟨hgrow, hvalid, -⟩ := grow_spec junk hc (show max n growth + 31 < 2 ^ 64 by omega)
    rw [if_neg hroom, if_neg hroom, if_neg (by omega)]
    exact ⟨_, _, rfl, hgrow, hvalid⟩

/-- `pushAtMost` does to the chain in memory what it does to a chain of unshared buffers. The first turn needs
the free tailroom, and every other turn writes to a new buffer. -/
theorem pushAtMost_refines {growth : Nat} (hgrowth : growth + 31 < 2 ^ 64) (fuel : Nat) {h : Heap UInt8} {c : Chain}
    (hc : c.Valid h) (htail : c.TailFree) (bytes : List UInt8) :
    (pushAtMost junk growth fuel h c bytes).map (fun r => (r.1, r.2.2.toIOBuf r.2.1)) =
      IOBuf.pushAtMost growth fuel (c.toIOBuf h) bytes ∧
    ∀ r ∈ pushAtMost junk growth fuel h c bytes, r.2.2.Valid r.2.1 := by
  induction fuel generalizing h c bytes with
  | zero => exact ⟨rfl, fun r hr => by cases hr⟩
  | succ fuel ih =>
    rw [pushAtMost, IOBuf.pushAtMost, tailroom_toIOBuf]
    dsimp only
    by_cases hroom : bytes.length ≤ c.last.tailroom h
    · obtain ⟨happend, hvalid⟩ := append_spec hc htail hroom
      rw [if_pos hroom, if_pos hroom]
      refine ⟨?_, fun r hr => ?_⟩
      · rw [Option.map_some, happend]
      · obtain rfl := Option.mem_some.1 hr
        exact hvalid
    · obtain ⟨happend, hvalid⟩ := append_spec hc htail
        (show (bytes.take (c.last.tailroom h)).length ≤ c.last.tailroom h from List.length_take_le ..)
      rw [if_neg hroom, if_neg hroom]
      by_cases hzero : growth = 0
      · rw [if_pos hzero, if_pos hzero]
        refine ⟨?_, fun r hr => ?_⟩
        · rw [Option.map_some, happend]
        · obtain rfl := Option.mem_some.1 hr
          exact hvalid
      · obtain ⟨hgrow, hvalid', htail'⟩ := grow_spec junk hvalid hgrowth
        obtain ⟨hrun, hkeep⟩ := ih hvalid' htail' (bytes.drop (c.last.tailroom h))
        rw [if_neg hzero, if_neg hzero, ← happend, ← hgrow, ← hrun]
        cases hpush : pushAtMost junk growth fuel _ _ _ with
        | none => exact ⟨rfl, by simp⟩
        | some r =>
          refine ⟨rfl, fun r' hr => ?_⟩
          obtain rfl := Option.mem_some.1 hr
          exact hkeep r hpush

end Appender

/-! ### Coalescing copies the data of the views -/

section Coalesce

variable {h : Heap UInt8} {c : Chain}

theorem length_flatMap_data {vs : List View} (hvs : ∀ v ∈ vs, v.Inside h) :
    (vs.flatMap (View.data h)).length = (vs.map View.length).sum := by
  rw [List.length_flatMap, List.map_congr_left fun v hv => View.length_data (hvs v hv)]

theorem sumLength_eq {vs : List View} (hsum : (vs.map View.length).sum < 2 ^ 64) : sumLength vs = (vs.map View.length).sum := by
  suffices hacc : ∀ n, n + (vs.map View.length).sum < 2 ^ 64 →
      vs.foldl (fun n v => (n + v.length) % 2 ^ 64) n = n + (vs.map View.length).sum by
    rw [sumLength, hacc 0 (by omega), Nat.zero_add]
  clear hsum
  induction vs with
  | nil => exact fun n _ => rfl
  | cons v vs ih =>
    intro n hn
    rw [List.map_cons, List.sum_cons] at hn ⊢
    rw [List.foldl_cons, Nat.mod_eq_of_lt (by omega), ih _ (by omega)]
    omega

theorem copyAll_spec (newBuf i : Nat) (vs : List View) (h : Heap UInt8) (n : Nat) (hvs : ∀ v ∈ vs, v.Inside h ∧ v.block ≠ newBuf)
    (hfit : i + n + (vs.map View.length).sum ≤ (h.blocks newBuf).cells.length) :
    slice ((copyAll newBuf (i + n) vs h).blocks newBuf).cells i (n + (vs.map View.length).sum) =
      slice (h.blocks newBuf).cells i n ++ vs.flatMap (View.data h) ∧
    ((copyAll newBuf (i + n) vs h).blocks newBuf).cells.length = (h.blocks newBuf).cells.length ∧
    (∀ b, b ≠ newBuf → (copyAll newBuf (i + n) vs h).blocks b = h.blocks b) ∧
    ((copyAll newBuf (i + n) vs h).blocks newBuf).refcount = (h.blocks newBuf).refcount ∧
    (copyAll newBuf (i + n) vs h).fresh = h.fresh := by
  induction vs generalizing h n with
  | nil => exact ⟨(List.append_nil _).symm, rfl, fun b _ => rfl, rfl, rfl⟩
  | cons v vs ih =>
    rw [List.map_cons, List.sum_cons] at hfit ⊢
    obtain ⟨hv, hvs⟩ := List.forall_mem_cons.1 hvs
    have hlen := View.length_data hv.1
    have hothers (b : Nat) (hb : b ≠ newBuf) : (h.write newBuf (i + n) (v.data h)).blocks b = h.blocks b := h.write_of_ne hb ..
    have hsize := h.length_write (show i + n + (v.data h).length ≤ (h.blocks newBuf).cells.length by omega) newBuf
    have hinside : ∀ w ∈ vs, w.Inside (h.write newBuf (i + n) (v.data h)) ∧ w.block ≠ newBuf := fun w hw =>
      ⟨View.inside_congr (by rw [hothers _ (hvs w hw).2]) (Nat.le_refl h.fresh) (hvs w hw).1, (hvs w hw).2⟩
    have hdata : vs.flatMap (View.data (h.write newBuf (i + n) (v.data h))) = vs.flatMap (View.data h) :=
      List.flatMap_congr fun w hw => View.data_congr (by rw [hothers _ (hvs w hw).2])
    have hfirst : slice ((h.write newBuf (i + n) (v.data h)).blocks newBuf).cells i (n + v.length) =
        slice (h.blocks newBuf).cells i n ++ v.data h := by
      rw [Heap.write_self, ← hlen]
      exact slice_splice_append i n (v.data h) (by omega)
    obtain ⟨hcells, hcopied, hblocks, hcount, hfresh⟩ := ih (h.write newBuf (i + n) (v.data h)) (n + v.length) hinside (by omega)
    rw [hfirst, hdata] at hcells
    rw [copyAll, Nat.add_assoc i n v.length]
    refine ⟨?_, hcopied.trans hsize, fun b hb => (hblocks b hb).trans (hothers b hb), hcount.trans (h.refcount_write ..), hfresh⟩
    rw [← Nat.add_assoc n, hcells, List.flatMap_cons, List.append_assoc]

theorem count_released_lt {merged kept : List View} (hc : c.Valid h) (hviews : c.views = merged ++ kept) {v : View}
    (hv : v ∈ kept) :
    ((merged.filter View.managed).map View.block).count v.block + (kept.map View.block).count v.block ≤
      (h.blocks v.block).refcount := by
  have hcounted := hc.counted v (hviews ▸ List.mem_append_right merged hv)
  rw [hviews, List.map_append, List.count_append] at hcounted
  have hsub : ((merged.filter View.managed).map View.block).count v.block ≤ (merged.map View.block).count v.block :=
    List.Sublist.count_le _ (List.Sublist.map _ List.filter_sublist)
  omega

/-- The heap after `coalesceAndReallocate`: the new block holds the copies, and the blocks of the kept views
have their cells. -/
theorem heap_coalesceAndReallocate (hc : c.Valid h) {merged kept : List View} (hviews : c.views = merged ++ kept)
    {newHeadroom capacity : Nat} (hroom : newHeadroom + (merged.map View.length).sum ≤ capacity) :
    let h' := decrementRefcounts merged (copyAll h.fresh newHeadroom merged (h.alloc junk capacity).2)
    slice (h'.blocks h.fresh).cells newHeadroom (merged.map View.length).sum = merged.flatMap (View.data h) ∧
    (h'.blocks h.fresh).cells.length = capacity ∧ (h'.blocks h.fresh).refcount = 1 ∧ h'.fresh = h.fresh + 1 ∧
    ∀ v ∈ kept, (h'.blocks v.block).cells = (h.blocks v.block).cells ∧
      (kept.map View.block).count v.block ≤ (h'.blocks v.block).refcount := by
  have hnew := h.alloc_new junk capacity
  have hold (b : Nat) (hb : b ≠ h.fresh) : (h.alloc junk capacity).2.blocks b = h.blocks b := h.alloc_of_ne junk capacity hb
  have hbefore : ∀ v ∈ c.views, v.block ≠ h.fresh := fun v hv => Nat.ne_of_lt (hc.inside v hv).1
  have hmerged : ∀ v ∈ merged, v ∈ c.views := fun v hv => hviews ▸ List.mem_append_left kept hv
  have hkept : ∀ v ∈ kept, v ∈ c.views := fun v hv => hviews ▸ List.mem_append_right merged hv
  have hinside : ∀ v ∈ merged, v.Inside (h.alloc junk capacity).2 ∧ v.block ≠ h.fresh := fun v hv =>
    have hne := hbefore v (hmerged v hv)
    ⟨View.inside_congr (by rw [hold _ hne]) (Nat.le_succ h.fresh) (hc.inside v (hmerged v hv)), hne⟩
  have hdata : merged.flatMap (View.data (h.alloc junk capacity).2) = merged.flatMap (View.data h) :=
    List.flatMap_congr fun v hv => View.data_congr (by rw [hold _ (hinside v hv).2])
  obtain ⟨hcells, hlen, hothers, hcount, hfresh⟩ := copyAll_spec h.fresh newHeadroom merged _ 0 hinside
    (by rw [hnew.1, Nat.add_zero]; exact hroom)
  rw [Nat.zero_add, Nat.add_zero, hdata, slice_zero, List.nil_append] at hcells
  rw [Nat.add_zero] at hlen hothers hcount hfresh
  have hnone : ((merged.filter View.managed).map View.block).count h.fresh = 0 :=
    View.count_eq_zero fun v hv => (hinside v (List.mem_filter.1 hv).1).2
  obtain ⟨hkeep, hrefcount⟩ := Heap.foldl_release ((merged.filter View.managed).map View.block)
    (copyAll h.fresh newHeadroom merged (h.alloc junk capacity).2) (b := h.fresh)
    (by rw [hnone, hcount, hnew.2]; exact Nat.one_pos)
  refine ⟨(congrArg (slice · _ _) hkeep).trans hcells, (congrArg List.length hkeep).trans (hlen.trans hnew.1), ?_, ?_,
    fun v hv => ?_⟩
  · exact hrefcount.trans (by rw [hnone, hcount, hnew.2])
  · exact (Heap.fresh_foldl_release ..).trans hfresh
  · have hne := hbefore v (hkept v hv)
    have hsame : (copyAll h.fresh newHeadroom merged (h.alloc junk capacity).2).blocks v.block = h.blocks v.block :=
      (hothers _ hne).trans (hold _ hne)
    have hle := count_released_lt hc hviews hv
    have hpos : 0 < (kept.map View.block).count v.block := List.count_pos_iff.2 (List.mem_map_of_mem hv)
    obtain ⟨hkeep, hrefcount⟩ := Heap.foldl_release ((merged.filter View.managed).map View.block)
      (copyAll h.fresh newHeadroom merged (h.alloc junk capacity).2) (b := v.block) (by rw [hsame]; omega)
    rw [hsame] at hkeep hrefcount
    exact ⟨hkeep, Nat.le_trans (by omega) (Nat.le_of_eq hrefcount.symm)⟩

theorem coalesceAndReallocate_spec (hc : c.Valid h) {merged kept : List View} (hviews : c.views = merged ++ kept)
    {newHeadroom newTailroom : Nat} (hsize : (merged.map View.length).sum + newHeadroom + newTailroom + 31 < 2 ^ 64) :
    let r := coalesceAndReallocate junk h merged kept newHeadroom (merged.map View.length).sum newTailroom
    r.2.toIOBuf r.1 =
      { head := Buf.place (Buf.extCapacity ((merged.map View.length).sum + newHeadroom + newTailroom)) newHeadroom
          (merged.flatMap (View.data h)) true
        rest := kept.map (View.toBuf h) } ∧
    r.2.Valid r.1 := by
  intro r
  have hcapacity : extCapacity (((merged.map View.length).sum + newHeadroom + newTailroom) % 2 ^ 64) =
      Buf.extCapacity ((merged.map View.length).sum + newHeadroom + newTailroom) := by
    rw [Nat.mod_eq_of_lt (by omega), extCapacity_eq hsize]
  have hroom : newHeadroom + (merged.map View.length).sum ≤
      extCapacity (((merged.map View.length).sum + newHeadroom + newTailroom) % 2 ^ 64) := by
    have := Buf.le_extCapacity ((merged.map View.length).sum + newHeadroom + newTailroom)
    omega
  obtain ⟨hdata, hlen, hcount, hfresh, hkept⟩ := heap_coalesceAndReallocate junk hc hviews hroom
  have hbefore : ∀ v ∈ kept, v.block ≠ h.fresh := fun v hv =>
    Nat.ne_of_lt (hc.inside v (hviews ▸ List.mem_append_right merged hv)).1
  let new : View :=
    { block := h.fresh, headroom := newHeadroom, length := (merged.map View.length).sum, managed := true, malloced := true }
  have hbuf : new.toBuf r.1 = Buf.place (Buf.extCapacity ((merged.map View.length).sum + newHeadroom + newTailroom)) newHeadroom
      (merged.flatMap (View.data h)) true := by
    have hlength : (merged.flatMap (View.data h)).length = (merged.map View.length).sum :=
      length_flatMap_data fun v hv => hc.inside v (hviews ▸ List.mem_append_left kept hv)
    have hnew : new.data r.1 = merged.flatMap (View.data h) := hdata
    have htailroom : new.capacity r.1 = _ := hlen.trans hcapacity
    simp only [View.toBuf, Buf.place, hnew, View.tailroom, htailroom, hlength]
    rfl
  have hrest : kept.map (View.toBuf r.1) = kept.map (View.toBuf h) :=
    List.map_congr_left fun v hv => View.toBuf_congr (hkept v hv).1
  refine ⟨?_, ⟨fun v hv => ?_, fun v hv => ?_⟩⟩
  · rw [← hbuf, ← hrest]
    rfl
  · obtain rfl | hv := List.mem_cons.1 hv
    · exact ⟨Nat.lt_of_lt_of_eq (Nat.lt_succ_self _) hfresh.symm, Nat.le_trans hroom (Nat.le_of_eq hlen.symm)⟩
    · exact View.inside_congr (hkept v hv).1 (Nat.le_of_lt (Nat.lt_of_lt_of_eq (Nat.lt_succ_self _) hfresh.symm))
        (hc.inside v (hviews ▸ List.mem_append_right merged hv))
  · show (h.fresh :: kept.map View.block).count v.block ≤ _
    obtain rfl | hv := List.mem_cons.1 hv
    · have hnone := View.count_eq_zero hbefore
      show (h.fresh :: kept.map View.block).count h.fresh ≤ _
      rw [List.count_cons_self, hnone]
      exact Nat.le_of_eq hcount.symm
    · rw [List.count_cons_of_ne (hbefore v hv).symm]
      exact (hkept v hv).2

theorem tailroomBehind_concat (vs : List View) (v : View) : tailroomBehind h (vs ++ [v]) = v.tailroom h := by
  rw [tailroomBehind, List.getLast?_concat]
  rfl

theorem tailroomBehind_le {vs : List View} {bound : Nat} (hvs : ∀ v ∈ vs, v.tailroom h ≤ bound) : tailroomBehind h vs ≤ bound := by
  unfold tailroomBehind
  cases hlast : vs.getLast? with
  | none => exact Nat.zero_le bound
  | some v => exact hvs v (List.mem_of_getLast? hlast)

theorem coalesce_refines (hc : c.Valid h) (hsized : c.Sized h) :
    (coalesce junk h c).2.toIOBuf (coalesce junk h c).1 = (c.toIOBuf h).coalesce ∧
      (coalesce junk h c).2.Valid (coalesce junk h c).1 ∧
    (coalesce junk h c).2.rest = [] := by
  have hchained : (c.toIOBuf h).isChained = true ↔ c.rest ≠ [] := by
    simp [IOBuf.isChained, Chain.toIOBuf]
  unfold coalesce IOBuf.coalesce
  by_cases hrest : c.rest = []
  · rw [if_pos hrest, if_neg (by rw [hchained]; exact fun h => h hrest)]
    exact ⟨rfl, hc, hrest⟩
  · have hsize := hsized c.last c.mem_last
    have htail : tailroomBehind h c.views = c.last.tailroom h := by
      rw [Chain.views_eq, tailroomBehind_concat]
    have hlength : (c.toIOBuf h).computeChainDataLength = (c.views.map View.length).sum := by
      rw [IOBuf.computeChainDataLength_eq, Chain.data_toIOBuf]
      exact length_flatMap_data hc.inside
    obtain ⟨hshow, hvalid⟩ := coalesceAndReallocate_spec junk hc (show c.views = c.views ++ [] from (List.append_nil _).symm)
      (show (c.views.map View.length).sum + c.head.headroom + c.last.tailroom h + 31 < 2 ^ 64 by omega)
    rw [if_neg hrest, if_pos (hchained.2 hrest), sumLength_eq (by omega), htail]
    refine ⟨hshow.trans ?_, hvalid, rfl⟩
    rw [IOBuf.coalesceSlow, hlength, tailroom_toIOBuf, Chain.data_toIOBuf]
    rfl

/-- The loop of `coalesceSlow` stops behind the first views that have enough bytes, and throws when all of them
have too few. -/
theorem countFor_spec (maxLength : Nat) (vs : List View) (n : Nat) (hn : n + (vs.map View.length).sum < 2 ^ 64) (hvs : vs ≠ []) :
    match countFor maxLength n vs with
    | some k => maxLength ≤ n + ((vs.take k).map View.length).sum ∧ 0 < k
    | none => n + (vs.map View.length).sum < maxLength := by
  induction vs generalizing n with
  | nil => exact absurd rfl hvs
  | cons v vs ih =>
    rw [List.map_cons, List.sum_cons] at hn ⊢
    rw [countFor, Nat.mod_eq_of_lt (by omega)]
    by_cases hle : maxLength ≤ n + v.length
    · rw [if_pos hle]
      exact ⟨by simpa using hle, Nat.one_pos⟩
    · rw [if_neg hle]
      cases vs with
      | nil => simpa [countFor] using hle
      | cons w vs =>
        have hrec := ih (n + v.length) (by omega) (List.cons_ne_nil w vs)
        cases hcount : countFor maxLength (n + v.length) (w :: vs) with
        | none =>
          rw [hcount] at hrec
          show n + (v.length + _) < maxLength
          rw [← Nat.add_assoc]
          exact hrec
        | some k =>
          rw [hcount] at hrec
          refine ⟨?_, Nat.succ_pos k⟩
          rw [List.take_succ_cons, List.map_cons, List.sum_cons, ← Nat.add_assoc]
          exact hrec.1

theorem data_of_toIOBuf {h' : Heap UInt8} {c' : Chain} {b : Buf} {bs : List Buf}
    (hshow : c'.toIOBuf h' = { head := b, rest := bs }) :
    c'.data h' = b.data ++ bs.flatMap Buf.data := by
  rw [← Chain.data_toIOBuf, hshow]
  rfl

theorem gather_spec (hc : c.Valid h) (hsized : c.Sized h) (maxLength : Nat) :
    match gather junk h c maxLength with
    | (.ok (), h', c') => c'.data h' = c.data h ∧ c'.Valid h' ∧ (maxLength ≤ c'.head.length ∨ c.rest = [] ∧ c'.rest = [])
    | (.error _, h', c') => h' = h ∧ c' = c ∧ c.rest ≠ [] ∧ (c.data h).length < maxLength := by
  have htotal : (c.data h).length = (c.views.map View.length).sum := length_flatMap_data hc.inside
  have hhead := hsized c.head (List.mem_cons_self ..)
  unfold gather
  by_cases hfast : c.rest = [] ∨ maxLength ≤ c.head.length
  · rw [if_pos hfast]
    exact ⟨rfl, hc, hfast.symm.imp id fun hrest => ⟨hrest, hrest⟩⟩
  · rw [if_neg hfast]
    have hloop := countFor_spec maxLength c.views 0 (by omega) (List.cons_ne_nil _ _)
    cases hcount : countFor maxLength 0 c.views with
    | none =>
      rw [hcount, Nat.zero_add] at hloop
      exact ⟨rfl, rfl, fun hrest => hfast (.inl hrest), htotal ▸ hloop⟩
    | some k =>
      rw [hcount] at hloop
      have henough : maxLength ≤ ((c.views.take k).map View.length).sum := by
        rw [← Nat.zero_add (List.sum _)]
        exact hloop.1
      have hviews : c.views = c.views.take k ++ c.views.drop k := (List.take_append_drop k c.views).symm
      have hsum : (c.views.map View.length).sum =
          ((c.views.take k).map View.length).sum + ((c.views.drop k).map View.length).sum := by
        rw [← List.sum_append, ← List.map_append, ← hviews]
      have htail : tailroomBehind h (c.views.take k) + ((c.views.map View.length).sum + c.head.headroom + 31) < 2 ^ 64 := by
        have hle : tailroomBehind h (c.views.take k) ≤ 2 ^ 64 - 1 - ((c.views.map View.length).sum + c.head.headroom + 31) :=
          tailroomBehind_le fun v hv => by
            have := hsized v (List.mem_of_mem_take hv)
            omega
        omega
      obtain ⟨hshow, hvalid⟩ := coalesceAndReallocate_spec junk hc hviews
        (show ((c.views.take k).map View.length).sum + c.head.headroom + tailroomBehind h (c.views.take k) + 31 < 2 ^ 64 by omega)
      have hdata := data_of_toIOBuf hshow
      dsimp only
      rw [sumLength_eq (by omega)]
      refine ⟨hdata.trans ?_, hvalid, .inl henough⟩
      rw [List.flatMap_map, Chain.data]
      conv => rhs; rw [hviews, List.flatMap_append]
      rfl

end Coalesce

/-! ### Reserving room keeps the data -/

section Reserve

variable {h : Heap UInt8} {v : View}

/-- `r` is the view `v` of `h`, moved so that it shows `b`. It is unshared, and the blocks of all others are as
they were. -/
structure Moved (h : Heap UInt8) (v : View) (b : Buf) (r : Heap UInt8 × View) : Prop where
  shows : r.2.toBuf r.1 = b
  inside : r.2.Inside r.1
  unshared : r.2.Unshared r.1
  block : r.2.block = v.block ∨ r.2.block = h.fresh
  fresh : h.fresh ≤ r.1.fresh
  others : ∀ b, b ≠ v.block → b ≠ h.fresh → r.1.blocks b = h.blocks b

theorem toBuf_eq_place {h' : Heap UInt8} {v' : View} {data : List UInt8} (hlength : v'.length = data.length)
    (hdata : slice (h'.blocks v'.block).cells v'.headroom v'.length = data) :
    v'.toBuf h' = Buf.place (h'.blocks v'.block).cells.length v'.headroom data (v'.managed && v'.malloced) := by
  have hshown : v'.data h' = data := hdata
  simp only [View.toBuf, Buf.place, View.tailroom, View.capacity, hlength, hshown]

theorem capacity_toBuf (hv : v.Inside h) : (v.toBuf h).capacity = v.capacity h := by
  have hinside := hv.2
  simp only [View.toBuf, Buf.capacity, View.length_data hv, View.tailroom]
  omega

theorem moved_inPlace (hv : v.Inside h) (hone : v.Unshared h) {minHeadroom : Nat} (hroom : minHeadroom + v.length ≤ v.capacity h) :
    Moved h v (Buf.place (v.toBuf h).capacity minHeadroom (v.toBuf h).data (v.toBuf h).external)
      (h.write v.block minHeadroom (v.data h), { v with headroom := minHeadroom }) := by
  have hlen := View.length_data hv
  have hcells : ((h.write v.block minHeadroom (v.data h)).blocks v.block).cells.length = v.capacity h :=
    h.length_write (by rw [hlen]; exact hroom) v.block
  refine ⟨?_, ⟨hv.1, ?_⟩, ⟨hone.1, ?_⟩, .inl rfl, Nat.le_refl _, fun b hb _ => h.write_of_ne hb ..⟩
  · rw [capacity_toBuf hv, ← hcells]
    refine toBuf_eq_place hlen.symm ?_
    show slice _ minHeadroom v.length = _
    rw [← hlen, Heap.write_self]
    exact slice_splice_same _ (by unfold View.capacity at hroom; omega)
  · rw [View.capacity, hcells]
    exact hroom
  · rw [Heap.refcount_write]
    exact hone.2

theorem moved_empty (hv : v.Inside h) (hone : v.Unshared h) (hzero : v.length = 0) {minHeadroom : Nat}
    (hroom : minHeadroom ≤ v.capacity h) :
    Moved h v (Buf.place (v.toBuf h).capacity minHeadroom (v.toBuf h).data (v.toBuf h).external)
      (h, { v with headroom := minHeadroom }) := by
  have hlen := View.length_data hv
  have hnone : v.data h = [] := List.eq_nil_of_length_eq_zero (hlen.trans hzero)
  refine ⟨?_, ⟨hv.1, ?_⟩, hone, .inl rfl, Nat.le_refl _, fun b _ _ => rfl⟩
  · rw [capacity_toBuf hv]
    refine toBuf_eq_place hlen.symm ?_
    show slice _ minHeadroom v.length = v.data h
    rw [hzero, slice_zero, hnone]
  · show minHeadroom + v.length ≤ v.capacity h
    omega

theorem blocks_moved (hv : v.Inside h) {capacity i : Nat} {bytes : List UInt8} (hfit : i + bytes.length ≤ capacity) :
    let h' := ((h.alloc junk capacity).2.write h.fresh i bytes).free v.block
    (∃ cells, (h'.blocks h.fresh).cells = splice cells i bytes ∧ cells.length = capacity) ∧
    (h'.blocks h.fresh).cells.length = capacity ∧ (h'.blocks h.fresh).refcount = 1 ∧ h'.fresh = h.fresh + 1 ∧
    ∀ b, b ≠ v.block → b ≠ h.fresh → h'.blocks b = h.blocks b := by
  intro h'
  have hnew := h.alloc_new junk capacity
  have hne : h.fresh ≠ v.block := Nat.ne_of_gt hv.1
  have hblock : h'.blocks h.fresh = ((h.alloc junk capacity).2.write h.fresh i bytes).blocks h.fresh := Heap.free_of_ne _ hne
  refine ⟨⟨((h.alloc junk capacity).2.blocks h.fresh).cells, ?_, hnew.1⟩, ?_, ?_, rfl, fun b hb hb' => ?_⟩
  · rw [hblock, Heap.write_self]
  · rw [hblock, Heap.length_write _ (by rw [hnew.1]; exact hfit)]
    exact hnew.1
  · rw [hblock, Heap.refcount_write]
    exact hnew.2
  · exact (Heap.free_of_ne _ hb).trans ((Heap.write_of_ne _ hb' ..).trans (h.alloc_of_ne junk capacity hb'))

theorem moved_copy (hv : v.Inside h) {minHeadroom capacity : Nat} (hroom : minHeadroom + v.length ≤ capacity) :
    Moved h v (Buf.place capacity minHeadroom (v.toBuf h).data true)
      (((h.alloc junk capacity).2.write h.fresh minHeadroom (v.data h)).free v.block,
        { block := h.fresh, headroom := minHeadroom, length := v.length, managed := true, malloced := true }) := by
  have hlen := View.length_data hv
  obtain ⟨⟨cells, hcells, hsize⟩, hcapacity, hcount, hfresh, hothers⟩ := blocks_moved junk hv
    (show minHeadroom + (v.data h).length ≤ capacity by rw [hlen]; exact hroom)
  refine ⟨?_, ⟨?_, ?_⟩, ⟨rfl, hcount⟩, .inr rfl, ?_, hothers⟩
  · conv => rhs; rw [← hcapacity]
    refine toBuf_eq_place hlen.symm ?_
    show slice _ minHeadroom v.length = _
    rw [hcells, ← hlen]
    exact slice_splice_same _ (by omega)
  · exact Nat.lt_of_lt_of_eq (Nat.lt_succ_self _) hfresh.symm
  · exact Nat.le_trans hroom (Nat.le_of_eq hcapacity.symm)
  · exact Nat.le_trans (Nat.le_succ _) (Nat.le_of_eq hfresh.symm)

theorem moved_realloc (hv : v.Inside h) {capacity : Nat} (hroom : v.headroom + v.length ≤ capacity) :
    Moved h v (Buf.place capacity v.headroom (v.toBuf h).data true)
      (((h.alloc junk capacity).2.write h.fresh 0 ((h.blocks v.block).cells.take capacity)).free v.block,
        { v with block := h.fresh, managed := true, malloced := true }) := by
  have hlen := View.length_data hv
  have htake : v.headroom + v.length ≤ ((h.blocks v.block).cells.take capacity).length := by
    have hinside := hv.2
    unfold View.capacity at hinside
    rw [List.length_take]
    omega
  obtain ⟨⟨cells, hcells, -⟩, hcapacity, hcount, hfresh, hothers⟩ := blocks_moved junk hv
    (show 0 + ((h.blocks v.block).cells.take capacity).length ≤ capacity by rw [Nat.zero_add]; exact List.length_take_le ..)
  refine ⟨?_, ⟨?_, ?_⟩, ⟨rfl, hcount⟩, .inr rfl, ?_, hothers⟩
  · conv => rhs; rw [← hcapacity]
    refine toBuf_eq_place hlen.symm ?_
    show slice _ v.headroom v.length = _
    rw [hcells, slice_splice_zero htake, slice_take hroom]
    rfl
  · exact Nat.lt_of_lt_of_eq (Nat.lt_succ_self _) hfresh.symm
  · exact Nat.le_trans hroom (Nat.le_of_eq hcapacity.symm)
  · exact Nat.le_trans (Nat.le_succ _) (Nat.le_of_eq hfresh.symm)

theorem reserve_refines (hv : v.Inside h) (hone : v.Unshared h) {minHeadroom minTailroom : Nat}
    (hsize : v.length + minHeadroom + minTailroom < 2 ^ 32 - 1) :
    Moved h v ((v.toBuf h).reserve minHeadroom minTailroom) (reserve junk h v minHeadroom minTailroom) := by
  have hlen : (v.toBuf h).data.length = v.length := View.length_data hv
  have hinside := hv.2
  have hcapacity := capacity_toBuf hv
  have hhead : (v.toBuf h).headroom = v.headroom := rfl
  have htail : (v.toBuf h).tailroom = v.tailroom h := rfl
  have htail' : v.tailroom h = v.capacity h - v.headroom - v.length := rfl
  unfold reserve Buf.reserve
  rw [hlen, hhead, htail]
  by_cases hfits : minHeadroom ≤ v.headroom ∧ minTailroom ≤ v.tailroom h
  · rw [if_pos hfits, if_pos hfits]
    exact ⟨rfl, hv, hone, .inl rfl, Nat.le_refl _, fun b _ _ => rfl⟩
  rw [if_neg hfits, if_neg hfits]
  by_cases hempty : v.length = 0 ∧ minHeadroom + minTailroom ≤ v.headroom + v.tailroom h
  · rw [if_pos hempty, if_pos hempty]
    exact moved_empty hv hone hempty.1 (by unfold View.capacity at htail' ⊢; unfold View.capacity at hinside; omega)
  rw [if_neg hempty, if_neg hempty]
  unfold reserveSlow Buf.reserveSlow
  rw [hlen, hhead, htail, hcapacity]
  dsimp only
  by_cases hroom : minHeadroom + minTailroom ≤ v.headroom + v.tailroom h
  · rw [if_pos hroom, if_pos hroom, ← hcapacity]
    exact moved_inPlace hv hone (by omega)
  rw [if_neg hroom, if_neg hroom]
  have hexternal : (v.toBuf h).external = true ↔ v.managed = true ∧ v.malloced = true := Bool.and_eq_true_iff
  by_cases hgrow : v.managed ∧ v.malloced ∧ v.length ≠ 0 ∧ minHeadroom ≤ v.headroom ∧ (v.capacity h - v.length) * 2 ≤ v.length
  · have hle := Buf.le_extCapacity (v.length + minHeadroom + minTailroom + (v.headroom - minHeadroom))
    have hcap := extCapacity_eq (n := v.length + minHeadroom + minTailroom + (v.headroom - minHeadroom)) (by omega)
    rw [if_pos hgrow, if_pos ⟨hexternal.2 ⟨hgrow.1, hgrow.2.1⟩, hgrow.2.2⟩, ← hcap]
    exact moved_realloc junk hv (by omega)
  · have hle := Buf.le_extCapacity (v.length + minHeadroom + minTailroom)
    rw [if_neg hgrow, if_neg fun hb => hgrow ⟨(hexternal.1 hb.1).1, (hexternal.1 hb.1).2, hb.2⟩, if_pos hone.1]
    have hcap := extCapacity_eq (n := v.length + minHeadroom + minTailroom) (by omega)
    rw [← hcap]
    exact moved_copy junk hv (by omega)

theorem block_ne_of_unshared {c : Chain} (hc : c.Valid h) (hone : v.Unshared h) {before behind : List View}
    (hviews : c.views = before ++ v :: behind) : ∀ w ∈ before ++ behind, w.block ≠ v.block := by
  intro w hw heq
  have hcounted := hc.counted v (hviews ▸ List.mem_append_right before (List.mem_cons_self ..))
  rw [hone.2, hviews, List.map_append, List.map_cons, List.count_append, List.count_cons_self] at hcounted
  have hpos : 0 < ((before ++ behind).map View.block).count v.block :=
    List.count_pos_iff.2 (heq ▸ List.mem_map_of_mem hw)
  rw [List.map_append, List.count_append] at hpos
  omega

theorem chain_of_moved {c : Chain} (hc : c.Valid h) (hone : v.Unshared h) {before behind : List View}
    (hviews : c.views = before ++ v :: behind) {b : Buf} {r : Heap UInt8 × View} (hr : Moved h v b r) (hdata : b.data = v.data h) :
    ∃ c' : Chain, c'.views = before ++ r.2 :: behind ∧ c'.data r.1 = c.data h ∧ c'.Valid r.1 := by
  have hne := block_ne_of_unshared hc hone hviews
  have hmem : ∀ w ∈ before ++ behind, w ∈ c.views := fun w hw => by
    rw [hviews]
    obtain hw | hw := List.mem_append.1 hw
    · exact List.mem_append_left _ hw
    · exact List.mem_append_right _ (List.mem_cons_of_mem _ hw)
  have hnew : ∀ w ∈ before ++ behind, w.block ≠ h.fresh := fun w hw => Nat.ne_of_lt (hc.inside w (hmem w hw)).1
  have hsame : ∀ w ∈ before ++ behind, r.1.blocks w.block = h.blocks w.block := fun w hw => hr.others _ (hne w hw) (hnew w hw)
  have hmoved : ∀ w ∈ before ++ behind, w.block ≠ r.2.block := fun w hw => by
    obtain heq | heq := hr.block
    · exact heq ▸ hne w hw
    · exact heq ▸ hnew w hw
  obtain ⟨c', hc'⟩ : ∃ c' : Chain, c'.views = before ++ r.2 :: behind := by
    cases before with
    | nil => exact ⟨{ head := r.2, rest := behind }, rfl⟩
    | cons w before => exact ⟨{ head := w, rest := before ++ r.2 :: behind }, rfl⟩
  refine ⟨c', hc', ?_, ⟨fun w hw => ?_, fun w hw => ?_⟩⟩
  · have hpart {vs : List View} (hvs : ∀ w ∈ vs, w ∈ before ++ behind) : vs.flatMap (View.data r.1) = vs.flatMap (View.data h) :=
      List.flatMap_congr fun w hw => View.data_congr (by rw [hsame w (hvs w hw)])
    have hmiddle : r.2.data r.1 = v.data h := (congrArg Buf.data hr.shows).trans hdata
    rw [Chain.data, Chain.data, hc', hviews, List.flatMap_append, List.flatMap_append, List.flatMap_cons, List.flatMap_cons,
      hmiddle, hpart fun w hw => List.mem_append_left _ hw, hpart fun w hw => List.mem_append_right _ hw]
  · rw [hc'] at hw
    obtain rfl | hw := (List.perm_middle.mem_iff.trans List.mem_cons).1 hw
    · exact hr.inside
    · exact View.inside_congr (by rw [hsame w hw]) hr.fresh (hc.inside w (hmem w hw))
  · rw [hc'] at hw ⊢
    rw [(List.perm_middle.map View.block).count_eq, List.map_cons]
    obtain rfl | hw := (List.perm_middle.mem_iff.trans List.mem_cons).1 hw
    · exact Nat.le_of_eq (by rw [List.count_cons_self, View.count_eq_zero hmoved, hr.unshared.2])
    · have hcounted := hc.counted w (hmem w hw)
      rw [hviews, (List.perm_middle.map View.block).count_eq, List.map_cons, List.count_cons_of_ne (hne w hw).symm] at hcounted
      rw [List.count_cons_of_ne (hmoved w hw).symm, hsame w hw]
      exact hcounted

end Reserve

/-! ### Appending and reshaping preserve the data -/

section Data

variable {h : Heap UInt8} {c : Chain}

theorem pushAtMost_mono {growth fuel : Nat} {bytes : List UInt8} {r : Nat × Heap UInt8 × Chain} {h : Heap UInt8} {c : Chain}
    (hpush : pushAtMost junk growth fuel h c bytes = some r) : pushAtMost junk growth (fuel + 1) h c bytes = some r := by
  induction fuel generalizing h c bytes r with
  | zero => cases hpush
  | succ fuel ih =>
    rw [pushAtMost] at hpush ⊢
    dsimp only at hpush ⊢
    by_cases hroom : bytes.length ≤ c.last.tailroom h
    · rwa [if_pos hroom] at hpush ⊢
    rw [if_neg hroom] at hpush ⊢
    by_cases hzero : growth = 0
    · rwa [if_pos hzero] at hpush ⊢
    rw [if_neg hzero] at hpush ⊢
    cases hrec : pushAtMost junk growth fuel _ _ _ with
    | none =>
      rw [hrec] at hpush
      cases hpush
    | some r' =>
      rw [hrec] at hpush
      rw [ih hrec]
      exact hpush

theorem pushAtMost_spec (hc : c.Valid h) (htail : c.TailFree) {growth : Nat} (hpos : 0 < growth) (hgrowth : growth + 31 < 2 ^ 64)
    (bytes : List UInt8) :
    ∃ h' c', (∀ fuel, bytes.length + 2 ≤ fuel → pushAtMost junk growth fuel h c bytes = some (bytes.length, h', c')) ∧
      c'.data h' = c.data h ++ bytes ∧ c'.Valid h' := by
  obtain ⟨hrefines, hvalid⟩ := pushAtMost_refines junk hgrowth (bytes.length + 2) hc htail bytes
  obtain ⟨shown, hpush, hdata⟩ := IOBuf.pushAtMost_spec hpos (bytes.length + 2) (c.toIOBuf h) bytes (by split_ifs <;> omega)
  rw [hpush, Option.map_eq_some_iff] at hrefines
  obtain ⟨⟨copied, h', c'⟩, hrun, heq⟩ := hrefines
  cases heq
  refine ⟨h', c', fun fuel hfuel => ?_, ?_, hvalid _ hrun⟩
  · obtain ⟨more, rfl⟩ := Nat.exists_eq_add_of_le hfuel
    induction more with
    | zero => exact hrun
    | succ more ih => exact pushAtMost_mono junk (ih (by omega))
  · rw [← Chain.data_toIOBuf, hdata, Chain.data_toIOBuf]

theorem ensure_spec (hc : c.Valid h) {growth n : Nat} (hpos : 0 < growth) (hgrowth : growth + 31 < 2 ^ 64) (hn : n + 31 < 2 ^ 64) :
    ∃ h' c', ensure junk growth h c n = .ok (h', c') ∧ n ≤ c'.last.tailroom h' ∧ c'.data h' = c.data h ∧ c'.Valid h' := by
  obtain ⟨h', c', hrun, hshow, hvalid⟩ := ensure_refines junk hc hpos hgrowth hn
  refine ⟨h', c', hrun, ?_, ?_, hvalid⟩
  · rw [← tailroom_toIOBuf, hshow]
    exact IOBuf.le_tailroom_ensure ..
  · rw [← Chain.data_toIOBuf, hshow, IOBuf.data_ensure, Chain.data_toIOBuf]

theorem coalesce_spec (hc : c.Valid h) (hsized : c.Sized h) :
    (coalesce junk h c).2.rest = [] ∧ (coalesce junk h c).2.data (coalesce junk h c).1 = c.data h ∧
    (coalesce junk h c).2.Valid (coalesce junk h c).1 := by
  obtain ⟨hshow, hvalid, hone⟩ := coalesce_refines junk hc hsized
  refine ⟨hone, ?_, hvalid⟩
  rw [← Chain.data_toIOBuf, hshow, IOBuf.data_coalesce, Chain.data_toIOBuf]

theorem reserve_spec (hc : c.Valid h) {v : View} {before behind : List View} (hviews : c.views = before ++ v :: behind)
    (hone : v.Unshared h) {minHeadroom minTailroom : Nat} (hsize : v.length + minHeadroom + minTailroom < 2 ^ 32 - 1) :
    let r := reserve junk h v minHeadroom minTailroom
    r.2.data r.1 = v.data h ∧ minHeadroom ≤ r.2.headroom ∧ minTailroom ≤ r.2.tailroom r.1 ∧
    ∃ c' : Chain, c'.views = before ++ r.2 :: behind ∧ c'.data r.1 = c.data h ∧ c'.Valid r.1 := by
  have hv := hc.inside v (hviews ▸ List.mem_append_right before (List.mem_cons_self ..))
  have hmoved := reserve_refines junk hv hone hsize
  have hdata : ((v.toBuf h).reserve minHeadroom minTailroom).data = v.data h := Buf.data_reserve ..
  refine ⟨?_, ?_, ?_, chain_of_moved hc hone hviews hmoved hdata⟩
  · exact (congrArg Buf.data hmoved.shows).trans hdata
  · exact Nat.le_trans (Buf.le_headroom_reserve ..) (Nat.le_of_eq (congrArg Buf.headroom hmoved.shows).symm)
  · exact Nat.le_trans (Buf.le_tailroom_reserve ..) (Nat.le_of_eq (congrArg Buf.tailroom hmoved.shows).symm)

/-- **Appending and reshaping preserve the data of a chain.** `pushAtMost` needs a tailroom in which no other buffer of the chain has
data; the other operations work on every chain, and `reserve` on an unshared buffer at any place of it. -/
theorem chain_data_preserved (hc : c.Valid h) :
    (∀ growth bytes, 0 < growth → growth + 31 < 2 ^ 64 → c.TailFree →
      ∃ h' c', (∀ fuel, bytes.length + 2 ≤ fuel → pushAtMost junk growth fuel h c bytes = some (bytes.length, h', c')) ∧
        c'.data h' = c.data h ++ bytes ∧ c'.Valid h') ∧
    (∀ growth n, 0 < growth → growth + 31 < 2 ^ 64 → n + 31 < 2 ^ 64 →
      ∃ h' c', ensure junk growth h c n = .ok (h', c') ∧ n ≤ c'.last.tailroom h' ∧ c'.data h' = c.data h ∧ c'.Valid h') ∧
    (c.Sized h → (coalesce junk h c).2.rest = [] ∧ (coalesce junk h c).2.data (coalesce junk h c).1 = c.data h ∧
      (coalesce junk h c).2.Valid (coalesce junk h c).1) ∧
    (c.Sized h → ∀ maxLength, match gather junk h c maxLength with
      | (.ok (), h', c') => c'.data h' = c.data h ∧ c'.Valid h' ∧ (maxLength ≤ c'.head.length ∨ c.rest = [] ∧ c'.rest = [])
      | (.error _, h', c') => h' = h ∧ c' = c ∧ c.rest ≠ [] ∧ (c.data h).length < maxLength) ∧
    (∀ before v behind minHeadroom minTailroom, c.views = before ++ v :: behind → v.Unshared h →
      v.length + minHeadroom + minTailroom < 2 ^ 32 - 1 →
      let r := reserve junk h v minHeadroom minTailroom
      r.2.data r.1 = v.data h ∧ minHeadroom ≤ r.2.headroom ∧ minTailroom ≤ r.2.tailroom r.1 ∧
      ∃ c' : Chain, c'.views = before ++ r.2 :: behind ∧ c'.data r.1 = c.data h ∧ c'.Valid r.1) :=
  ⟨fun _ bytes hpos hgrowth htail => pushAtMost_spec junk hc htail hpos hgrowth bytes,
    fun _ _ hpos hgrowth hn => ensure_spec junk hc hpos hgrowth hn,
    coalesce_spec junk hc,
    gather_spec junk hc,
    fun _ _ _ _ _ hviews hone hsize => reserve_spec junk hc hviews hone hsize⟩

/-- Two buffers in blocks of their own, the second with room for two bytes. -/
def twoBlocks : Heap UInt8 where
  blocks b := if b = 0 then { cells := [104, 105], refcount := 1 } else if b = 1 then { cells := [33, 0, 0], refcount := 1 }
    else { cells := [], refcount := 0 }
  fresh := 2

def twoViews : Chain where
  head := { block := 0, headroom := 0, length := 2, managed := true, malloced := true }
  rest := [{ block := 1, headroom := 0, length := 1, managed := true, malloced := true }]

theorem twoViews_valid : twoViews.Valid twoBlocks := ⟨by decide, by decide⟩

/-- Five bytes behind "hi!", of which three go to a new buffer; then room for the first buffer. -/
theorem chain_data_preserved_two :
    (∃ h' c', (∀ fuel, 7 ≤ fuel → pushAtMost (fun _ _ => 0) 4 fuel twoBlocks twoViews [1, 2, 3, 4, 5] = some (5, h', c')) ∧
      c'.data h' = [104, 105, 33, 1, 2, 3, 4, 5] ∧ c'.Valid h') ∧
    (coalesce (fun _ _ => 0) twoBlocks twoViews).2.data (coalesce (fun _ _ => 0) twoBlocks twoViews).1 = [104, 105, 33] ∧
    8 ≤ (reserve (fun _ _ => 0) twoBlocks twoViews.head 8 16).2.headroom :=
  have hall := chain_data_preserved (fun _ _ => 0) twoViews_valid
  ⟨hall.1 4 [1, 2, 3, 4, 5] (by decide) (by decide) (by decide),
    (hall.2.2.1 (by decide)).2.1,
    (hall.2.2.2.2 [] twoViews.head twoViews.rest 8 16 rfl (by decide) (by decide)).2.1⟩

/-- A block with "hello" that two buffers share: one shows all of it, the last one of the chain "he". -/
def sharedBlock : Heap UInt8 where
  blocks b := if b = 0 then { cells := [104, 101, 108, 108, 111], refcount := 2 } else { cells := [], refcount := 0 }
  fresh := 1

def sharedViews : Chain where
  head := { block := 0, headroom := 0, length := 5, managed := true, malloced := true }
  rest := [{ block := 0, headroom := 0, length := 2, managed := true, malloced := true }]

/-- What is pushed goes to the tailroom of the last buffer, which is data of the first: "hellohe" becomes
"heXYZheXYZ". And a size near `2 ^ 64` wraps, so that nothing is allocated for it. -/
theorem shared_tail_not_preserved :
    goodExtBufferSize (2 ^ 64 - 31) = 0 ∧
    sharedViews.Valid sharedBlock ∧ sharedViews.data sharedBlock = [104, 101, 108, 108, 111, 104, 101] ∧
    ¬ ∃ h' c', pushAtMost (fun _ _ => 0) 16 5 sharedBlock sharedViews [88, 89, 90] = some (3, h', c') ∧
      c'.data h' = sharedViews.data sharedBlock ++ [88, 89, 90] := by
  refine ⟨by decide, ⟨by decide, by decide⟩, by decide, ?_⟩
  rintro ⟨h', c', hpush, hdata⟩
  cases hpush
  exact absurd hdata (by decide)

end Data

end Raster.Memory
