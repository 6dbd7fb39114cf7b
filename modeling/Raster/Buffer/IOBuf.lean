import Mathlib.Algebra.Group.Nat.Defs
import Mathlib.Algebra.GroupWithZero.Nat
import Mathlib.Data.List.Basic
import Mathlib.Tactic.SplitIfs

/-!
# Chains of buffers

`raster/io/IOBuf.h`, `IOBuf.cpp`, `TypedIOBuf.h` and the `Appender` of `Cursor.h`. An `IOBuf` is the
head of a circular chain: here the head and the buffers after it, so that a chain is never empty. A
buffer is a block of memory with headroom, data and tailroom. Buffers are not shared.

The operations are compared through `IOBuf.data`, the data of the whole chain. An appender writes to
the last buffer, and `data_eq` splits the data there.
-/

namespace Raster

/-- One buffer of a chain. -/
structure Buf where
  headroom : Nat := 0
  data : List UInt8 := []
  tailroom : Nat
  /-- Whether the block was allocated apart from the `IOBuf` and is released with `free`. -/
  external : Bool := true
  deriving DecidableEq, Repr

namespace Buf

/-- `sizeof(SharedInfo)`: two pointers and a counter. -/
def sharedInfoSize : Nat := 24

def goodExtBufferSize (minCapacity : Nat) : Nat := (minCapacity + sharedInfoSize + 7) / 8 * 8

/-- The capacity that `allocExtBuffer` and `initExtBuffer` return. -/
def extCapacity (minCapacity : Nat) : Nat := goodExtBufferSize minCapacity - sharedInfoSize

def capacity (b : Buf) : Nat := b.headroom + b.data.length + b.tailroom

/-- `IOBuf::create`: `createCombined` up to 1024 bytes, else `createSeparate`. -/
def create (capacity : Nat) : Buf :=
  if capacity ≤ 1024 then { tailroom := capacity, external := false }
  else { tailroom := extCapacity capacity }

/-- The bytes are written to the tailroom and `append` is called. -/
def append (b : Buf) (bytes : List UInt8) : Buf :=
  { b with data := b.data ++ bytes, tailroom := b.tailroom - bytes.length }

/-- The data of a buffer of `capacity` bytes, `headroom` bytes behind its start. -/
def place (capacity headroom : Nat) (data : List UInt8) (external : Bool) : Buf :=
  { headroom, data, tailroom := capacity - headroom - data.length, external }

def reserveSlow (b : Buf) (minHeadroom minTailroom : Nat) : Buf :=
  let newCapacity := b.data.length + minHeadroom + minTailroom
  if minHeadroom + minTailroom ≤ b.headroom + b.tailroom then
    place b.capacity minHeadroom b.data b.external
  else if b.external ∧ b.data.length ≠ 0 ∧ minHeadroom ≤ b.headroom ∧
      (b.capacity - b.data.length) * 2 ≤ b.data.length then
    place (extCapacity (newCapacity + (b.headroom - minHeadroom))) b.headroom b.data true
  else place (extCapacity newCapacity) minHeadroom b.data true

def reserve (b : Buf) (minHeadroom minTailroom : Nat) : Buf :=
  if minHeadroom ≤ b.headroom ∧ minTailroom ≤ b.tailroom then b
  else if b.data.length = 0 ∧ minHeadroom + minTailroom ≤ b.headroom + b.tailroom then
    place b.capacity minHeadroom b.data b.external
  else b.reserveSlow minHeadroom minTailroom

/-- `TypedIOBuf<T>::push` of one element, whose bytes are given: room is counted in elements. -/
def pushElement (b : Buf) (element : List UInt8) : Buf :=
  let size := element.length
  let b := if b.tailroom / size < 1 then
      b.reserve (b.headroom / size * size) (max 1 (3 + b.data.length / size / 2) * size)
    else b
  b.append element

theorem le_extCapacity (n : Nat) : n ≤ extCapacity n := by
  unfold extCapacity goodExtBufferSize sharedInfoSize
  omega

theorem le_tailroom_create (n : Nat) : n ≤ (create n).tailroom := by
  unfold create
  split_ifs
  · exact Nat.le_refl n
  · exact le_extCapacity n

@[simp] theorem data_create (n : Nat) : (create n).data = [] := by
  unfold create
  split_ifs <;> rfl

@[simp] theorem data_append (b : Buf) (bytes : List UInt8) : (b.append bytes).data = b.data ++ bytes := rfl

@[simp] theorem tailroom_append (b : Buf) (bytes : List UInt8) :
    (b.append bytes).tailroom = b.tailroom - bytes.length := rfl

theorem data_reserve (b : Buf) (minHeadroom minTailroom : Nat) : (b.reserve minHeadroom minTailroom).data = b.data := by
  unfold reserve reserveSlow
  split_ifs <;> rfl

theorem le_headroom_reserve (b : Buf) (minHeadroom minTailroom : Nat) :
    minHeadroom ≤ (b.reserve minHeadroom minTailroom).headroom := by
  unfold reserve reserveSlow
  split_ifs with hfits hempty hroom hrealloc
  · exact hfits.1
  · exact Nat.le_refl minHeadroom
  · exact Nat.le_refl minHeadroom
  · exact hrealloc.2.2.1
  · exact Nat.le_refl minHeadroom

theorem le_tailroom_reserve (b : Buf) (minHeadroom minTailroom : Nat) :
    minTailroom ≤ (b.reserve minHeadroom minTailroom).tailroom := by
  unfold reserve reserveSlow
  split_ifs with hfits hempty hroom hrealloc
  · exact hfits.2
  · simp only [place, capacity]
    omega
  · simp only [place, capacity]
    omega
  · have hle := le_extCapacity (b.data.length + minHeadroom + minTailroom + (b.headroom - minHeadroom))
    simp only [place]
    omega
  · have hle := le_extCapacity (b.data.length + minHeadroom + minTailroom)
    simp only [place]
    omega

theorem data_pushElement (b : Buf) (element : List UInt8) : (b.pushElement element).data = b.data ++ element := by
  simp only [pushElement]
  split_ifs
  · rw [data_append, data_reserve]
  · rw [data_append]

theorem pushElement_of_room (b : Buf) {element : List UInt8} (hpos : 0 < element.length)
    (hroom : element.length ≤ b.tailroom) : b.pushElement element = b.append element := by
  have : 1 ≤ b.tailroom / element.length := (Nat.one_le_div_iff hpos).mpr hroom
  simp only [pushElement]
  rw [if_neg (by omega)]

end Buf

/-- A chain, from its head on. -/
structure IOBuf where
  head : Buf
  rest : List Buf := []
  deriving DecidableEq, Repr

namespace IOBuf

def create (capacity : Nat) : IOBuf := { head := Buf.create capacity }

/-- The buffers, in the order of the chain. -/
def bufs (c : IOBuf) : List Buf := c.head :: c.rest

/-- The data of the chain. -/
def data (c : IOBuf) : List UInt8 := c.bufs.flatMap Buf.data

/-- The data of the buffers after the head. -/
def dataBehind (c : IOBuf) : List UInt8 := c.rest.flatMap Buf.data

/-- `prev()` of the head. -/
def last (c : IOBuf) : Buf := c.rest.getLastD c.head

/-- The chain with its last buffer replaced. -/
def setLast (c : IOBuf) (b : Buf) : IOBuf :=
  match c.rest with
  | [] => { head := b }
  | _ :: _ => { c with rest := c.rest.dropLast ++ [b] }

def isChained (c : IOBuf) : Bool := c.rest ≠ []

def empty (c : IOBuf) : Bool := c.bufs.all fun b => b.data.length = 0

def computeChainDataLength (c : IOBuf) : Nat := (c.bufs.map fun b => b.data.length).sum

/-- Hooks `other` in before the head, which is the end of the chain that starts there. -/
def prependChain (c other : IOBuf) : IOBuf := { c with rest := c.rest ++ other.bufs }

/-- `coalesceAndReallocate` over the whole chain. -/
def coalesceSlow (c : IOBuf) : IOBuf :=
  let newCapacity := c.computeChainDataLength + c.head.headroom + c.last.tailroom
  { head := Buf.place (Buf.extCapacity newCapacity) c.head.headroom c.data true }

def coalesce (c : IOBuf) : IOBuf := if c.isChained then c.coalesceSlow else c

/-! ### The appender -/

/-- `Appender::ensure`. -/
def ensure (c : IOBuf) (growth n : Nat) : IOBuf :=
  if n ≤ c.last.tailroom then c else c.prependChain (create (max n growth))

/-- The bytes are written through the appender and `append` is called. -/
def append (c : IOBuf) (bytes : List UInt8) : IOBuf := c.setLast (c.last.append bytes)

/-- `Appender::pushAtMost` with the number of bytes that were copied; `fuel` bounds the turns of its
loop. -/
def pushAtMost (growth : Nat) : (fuel : Nat) → IOBuf → List UInt8 → Option (Nat × IOBuf)
  | 0, _, _ => none
  | fuel + 1, c, bytes =>
    let available := c.last.tailroom
    if bytes.length ≤ available then some (bytes.length, c.append bytes)
    else
      let c := c.append (bytes.take available)
      if growth = 0 then some (available, c)
      else
        match pushAtMost growth fuel (c.prependChain (create growth)) (bytes.drop available) with
        | none => none
        | some (copied, c) => some (available + copied, c)

/-! ### The data of the chain -/

/-- The data before the last buffer. -/
def before (c : IOBuf) : List UInt8 := c.bufs.dropLast.flatMap Buf.data

theorem bufs_eq (c : IOBuf) : c.bufs = c.bufs.dropLast ++ [c.last] := by
  obtain ⟨head, rest⟩ := c
  have hne : head :: rest ≠ [] := by simp
  rw [show last ⟨head, rest⟩ = (head :: rest).getLast hne from ?_]
  · exact (List.dropLast_append_getLast hne).symm
  · cases rest with
    | nil => rfl
    | cons b bs => simp [last, List.getLastD_eq_getLast?, List.getLast?_eq_some_getLast]

theorem data_eq_head (c : IOBuf) : c.data = c.head.data ++ c.dataBehind := rfl

theorem data_eq (c : IOBuf) : c.data = c.before ++ c.last.data := by
  rw [data, bufs_eq, List.flatMap_append, List.flatMap_singleton]
  rfl

theorem bufs_setLast (c : IOBuf) (b : Buf) : (c.setLast b).bufs = c.bufs.dropLast ++ [b] := by
  obtain ⟨head, rest⟩ := c
  cases rest <;> rfl

@[simp] theorem last_setLast (c : IOBuf) (b : Buf) : (c.setLast b).last = b := by
  have h := bufs_eq (c.setLast b)
  rw [bufs_setLast, List.dropLast_concat] at h
  simpa using h.symm

@[simp] theorem data_append (c : IOBuf) (bytes : List UInt8) : (c.append bytes).data = c.data ++ bytes := by
  rw [append, data, bufs_setLast, List.flatMap_append, List.flatMap_singleton, data_eq c]
  simp [before]

@[simp] theorem last_append (c : IOBuf) (bytes : List UInt8) : (c.append bytes).last = c.last.append bytes :=
  last_setLast ..

@[simp] theorem data_prependChain (c other : IOBuf) : (c.prependChain other).data = c.data ++ other.data := by
  simp [data, prependChain, bufs]

theorem last_prependChain_create (c : IOBuf) (n : Nat) : (c.prependChain (create n)).last = Buf.create n := by
  simp [last, prependChain, create, bufs]

@[simp] theorem data_create (n : Nat) : (create n).data = [] := by
  simp [data, create, bufs]

theorem computeChainDataLength_eq (c : IOBuf) : c.computeChainDataLength = c.data.length := by
  simp [computeChainDataLength, data, List.length_flatMap]

theorem empty_iff (c : IOBuf) : c.empty = true ↔ c.data = [] := by
  simp [empty, data, List.flatMap_eq_nil_iff]

@[simp] theorem data_coalesce (c : IOBuf) : c.coalesce.data = c.data := by
  unfold coalesce
  split_ifs
  · simp [coalesceSlow, data, bufs, Buf.place]
  · rfl

theorem head_data_coalesce (c : IOBuf) : c.coalesce.head.data = c.data := by
  obtain ⟨head, rest⟩ := c
  unfold coalesce
  split_ifs with h
  · rfl
  · have : rest = [] := by simpa [isChained] using h
    simp [data, bufs, this]

@[simp] theorem data_ensure (c : IOBuf) (growth n : Nat) : (c.ensure growth n).data = c.data := by
  unfold ensure
  split_ifs <;> simp

theorem le_tailroom_ensure (c : IOBuf) (growth n : Nat) : n ≤ (c.ensure growth n).last.tailroom := by
  unfold ensure
  split_ifs with h
  · exact h
  · rw [last_prependChain_create]
    exact Nat.le_trans (Nat.le_max_left n growth) (Buf.le_tailroom_create _)

/-- The loop of `pushAtMost` takes at most two turns more than there are bytes, and one turn less when
the last buffer has room. -/
theorem pushAtMost_spec {growth : Nat} (hgrowth : 0 < growth) (fuel : Nat) (c : IOBuf) (bytes : List UInt8)
    (hfuel : bytes.length + (if c.last.tailroom = 0 then 2 else 1) ≤ fuel) :
    ∃ c', pushAtMost growth fuel c bytes = some (bytes.length, c') ∧ c'.data = c.data ++ bytes := by
  induction fuel generalizing c bytes with
  | zero =>
    split_ifs at hfuel <;> omega
  | succ fuel ih =>
    by_cases hroom : bytes.length ≤ c.last.tailroom
    · exact ⟨c.append bytes, by simp only [pushAtMost, if_pos hroom], data_append c bytes⟩
    · have hnew := last_prependChain_create (c.append (bytes.take c.last.tailroom)) growth
      have hpos : 0 < (Buf.create growth).tailroom := Nat.lt_of_lt_of_le hgrowth (Buf.le_tailroom_create growth)
      obtain ⟨c', hpush, hdata⟩ := ih ((c.append (bytes.take c.last.tailroom)).prependChain (create growth))
        (bytes.drop c.last.tailroom) (by
          rw [hnew, if_neg (by omega), List.length_drop]
          split_ifs at hfuel <;> omega)
      refine ⟨c', ?_, ?_⟩
      · simp only [pushAtMost, if_neg hroom, if_neg (Nat.pos_iff_ne_zero.mp hgrowth), hpush,
          List.length_drop, Option.some.injEq, Prod.mk.injEq, and_true]
        omega
      · rw [hdata]
        simp

end IOBuf

end Raster
