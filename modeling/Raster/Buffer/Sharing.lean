import Mathlib.Data.Multiset.Count
import Raster.Buffer.Memory
import Raster.Lib.Machine
import Raster.Lib.Tally

/-!
# Shared blocks

`raster/io/IOBuf.h` and `IOBuf.cpp` with clones: the `IOBuf`s of a program that share their blocks. A program has a number of
`unique_ptr<IOBuf>`s, each the head of a chain or null, and calls the members of the `IOBuf`s in any order. A `SharedInfo` counts
the `IOBuf`s on its block, `kFlagMaybeShared` says that a block was shared at some time, and user memory that was wrapped has no
`SharedInfo`. Who writes has called `unshare` first.

What counts is the multiset of all the `IOBuf`s: every operation is an exchange of some of them for others, and `Counted` says what
each exchange has to keep. The SharedInfo that `takeOwnership` allocates by itself is freed with its block and left out.
-/

namespace Raster.Sharing

open Lib Memory

/-- An `IOBuf` without its links. `capacity_` may be less than the block has. -/
structure Node where
  view : View
  capacity : Nat
  /-- `kFlagMaybeShared`. -/
  maybeShared : Bool := false
  deriving DecidableEq, Repr

/-- The blocks, and those that have been freed. -/
structure Mem where
  heap : Heap UInt8
  freed : List Nat := []

namespace Node

def data (h : Heap UInt8) (n : Node) : List UInt8 := n.view.data h

def tailroom (n : Node) : Nat := n.capacity - n.view.headroom - n.view.length

/-- `isSharedOne`: the answer, and the `IOBuf`, which loses its flag when it is the last one left. -/
def isSharedOne (h : Heap UInt8) (n : Node) : Bool × Node :=
  if n.view.managed = false then (true, n)
  else if n.maybeShared = false then (false, n)
  else if 1 < (h.blocks n.view.block).refcount then (true, n)
  else (false, { n with maybeShared := false })

end Node

variable (junk : Nat → Nat → UInt8)

/-! ### The members of one `IOBuf` -/

def freeExtBuffer (m : Mem) (b : Nat) : Mem := { heap := m.heap.free b, freed := m.freed ++ [b] }

def decrementRefcount (m : Mem) (n : Node) : Mem :=
  if n.view.managed = false then m
  else if 1 < (m.heap.blocks n.view.block).refcount then { m with heap := m.heap.release n.view.block }
  else freeExtBuffer m n.view.block

/-- `cloneOneInto`: the memory and this `IOBuf`, whose fields the clone gets. -/
def cloneOneInto (m : Mem) (n : Node) : Mem × Node :=
  if n.view.managed then ({ m with heap := m.heap.retain n.view.block }, { n with maybeShared := true }) else (m, n)

def unshareOneSlow (m : Mem) (n : Node) : Mem × Node :=
  let (buf, h) := allocExtBuffer junk m.heap n.capacity
  let h := h.write buf n.view.headroom (n.data m.heap)
  (decrementRefcount { m with heap := h } n,
    { n with view := { n.view with block := buf, managed := true, malloced := true }, maybeShared := false })

def unshareOne (m : Mem) (n : Node) : Mem × Node :=
  let (shared, n) := n.isSharedOne m.heap
  if shared then unshareOneSlow junk m n else (m, n)

def makeManagedOne (m : Mem) (n : Node) : Mem × Node :=
  if n.view.managed then (m, n) else unshareOneSlow junk m n

def reserveSlow (m : Mem) (n : Node) (minHeadroom minTailroom : Nat) : Mem × Node :=
  let newCapacity := n.view.length + minHeadroom + minTailroom
  if minHeadroom + minTailroom ≤ n.view.headroom + n.tailroom then
    ({ m with heap := m.heap.write n.view.block minHeadroom (n.data m.heap) },
      { n with view := { n.view with headroom := minHeadroom } })
  else if n.view.managed ∧ n.view.malloced ∧ n.view.length ≠ 0 ∧ minHeadroom ≤ n.view.headroom ∧
      (n.capacity - n.view.length) * 2 ≤ n.view.length then
    let cap := extCapacity (newCapacity + (n.view.headroom - minHeadroom))
    let (newBuffer, h) := allocExtBuffer junk m.heap (newCapacity + (n.view.headroom - minHeadroom))
    -- `realloc` keeps the bytes of the old block, as far as they fit
    let h := h.write newBuffer 0 ((m.heap.blocks n.view.block).cells.take cap)
    (freeExtBuffer { m with heap := h } n.view.block,
      { view := { n.view with block := newBuffer, managed := true, malloced := true }, capacity := cap, maybeShared := false })
  else
    let (newBuffer, h) := allocExtBuffer junk m.heap newCapacity
    let h := h.write newBuffer minHeadroom (n.data m.heap)
    (if n.view.managed then freeExtBuffer { m with heap := h } n.view.block else { m with heap := h },
      { view := { block := newBuffer, headroom := minHeadroom, length := n.view.length, managed := true, malloced := true }
        capacity := extCapacity newCapacity
        maybeShared := false })

def reserve (m : Mem) (n : Node) (minHeadroom minTailroom : Nat) : Mem × Node :=
  if minHeadroom ≤ n.view.headroom ∧ minTailroom ≤ n.tailroom then (m, n)
  else if n.view.length = 0 ∧ minHeadroom + minTailroom ≤ n.view.headroom + n.tailroom then
    (m, { n with view := { n.view with headroom := minHeadroom } })
  else reserveSlow junk m n minHeadroom minTailroom

/-! ### The members of a chain -/

/-- The loop of `isShared` and of `unshareChained`, up to the first that is shared. -/
def anySharedOne (h : Heap UInt8) : List Node → Bool × List Node
  | [] => (false, [])
  | n :: ns =>
    match n.isSharedOne h with
    | (true, n) => (true, n :: ns)
    | (false, n) => ((anySharedOne h ns).1, n :: (anySharedOne h ns).2)

/-- A member of each `IOBuf` of the chain in turn. -/
def forEach (f : Mem → Node → Mem × Node) : Mem → List Node → Mem × List Node
  | m, [] => (m, [])
  | m, n :: ns =>
    let (m, n) := f m n
    let (m, ns) := forEach f m ns
    (m, n :: ns)

/-- `~IOBuf` unlinks and destroys the others before the head. -/
def destroy (m : Mem) : List Node → Mem
  | [] => m
  | n :: ns => decrementRefcount (ns.foldl decrementRefcount m) n

/-- `coalesceAndReallocate`: the buffers become one, the first lets go of its block before the others are destroyed. -/
def coalesceAndReallocate (m : Mem) (merged : List Node) (newHeadroom newLength newTailroom : Nat) : Mem × Node :=
  let newCapacity := (newLength + newHeadroom + newTailroom) % 2 ^ 64
  let (newBuf, h) := allocExtBuffer junk m.heap newCapacity
  let m := { m with heap := copyAll newBuf newHeadroom (merged.map Node.view) h }
  (destroy ((merged.take 1).foldl decrementRefcount m) (merged.drop 1),
    { view := { block := newBuf, headroom := newHeadroom, length := newLength, managed := true, malloced := true }
      capacity := extCapacity newCapacity })

def headroomBefore (ns : List Node) : Nat := (ns.head?.map fun n => n.view.headroom).getD 0

def tailroomBehind (ns : List Node) : Nat := (ns.getLast?.map Node.tailroom).getD 0

/-- `coalesceSlow` over the first buffers of a chain. -/
def coalesceSlow (m : Mem) (merged kept : List Node) : Mem × List Node :=
  let (m, n) := coalesceAndReallocate junk m merged (headroomBefore merged) (sumLength (merged.map Node.view)) (tailroomBehind merged)
  (m, n :: kept)

def isChained (ns : List Node) : Bool := 1 < ns.length

def coalesce (m : Mem) (ns : List Node) : Mem × List Node := if isChained ns then coalesceSlow junk m ns [] else (m, ns)

def unshare (m : Mem) (ns : List Node) : Mem × List Node :=
  if isChained ns then
    let (shared, ns) := anySharedOne m.heap ns
    if shared then coalesceSlow junk m ns [] else (m, ns)
  else forEach (unshareOne junk) m ns

/-- How many buffers `gather` merges: none, or as many as hold `maxLength` bytes; it throws when there are not
so many. -/
def gathered (ns : List Node) (maxLength : Nat) : Option Nat :=
  if isChained ns = false ∨ (ns.head?.map fun n => decide (maxLength ≤ n.view.length)).getD true then some 0
  else countFor maxLength 0 (ns.map Node.view)

def gather (m : Mem) (ns : List Node) (maxLength : Nat) : Mem × List Node :=
  match gathered ns maxLength with
  | none | some 0 => (m, ns)
  | some (k + 1) => coalesceSlow junk m (ns.take (k + 1)) (ns.drop (k + 1))

/-! ### Programs -/

/-- The calls on one `IOBuf`; bytes are written through `writableData`, `writableTail` or in front of the data. -/
inductive Call
  | trimStart (amount : Nat)
  | trimEnd (amount : Nat)
  | clear
  | append (bytes : List UInt8)
  | prepend (bytes : List UInt8)
  | overwrite (offset : Nat) (bytes : List UInt8)
  | advance (amount : Nat)
  | retreat (amount : Nat)
  | reserve (minHeadroom minTailroom : Nat)
  | isSharedOne
  | unshareOne
  | makeManagedOne
  deriving DecidableEq, Repr

/-- The calls of a program on its pointers `a` and `b`, at the `i`-th `IOBuf` of a chain. -/
inductive Op
  | create (a capacity : Nat)
  | wrapBuffer (a block size : Nat)
  | takeOwnership (a : Nat) (bytes : List UInt8) (length : Nat) (malloced : Bool)
  | call (a i : Nat) (c : Call)
  | clone (a b : Nat)
  | cloneOne (a i b : Nat)
  | prependChain (a i b : Nat)
  | separateChain (a i count b : Nat)
  | isShared (a : Nat)
  | unshare (a : Nat)
  | makeManaged (a : Nat)
  | coalesce (a : Nat)
  | gather (a maxLength : Nat)
  | destroy (a : Nat)
  deriving DecidableEq, Repr

structure State where
  mem : Mem
  chains : Nat → List Node

/-- What `malloc` can give. -/
abbrev Fits (size : Nat) : Prop := size < 2 ^ 63

/-- The bytes of some buffers can be put into one. -/
def Sized (ns : List Node) : Prop := Fits ((ns.map fun n => n.view.length).sum + headroomBefore ns + tailroomBehind ns)

instance (ns : List Node) : Decidable (Sized ns) := inferInstanceAs (Decidable (_ < _))

/-- This `IOBuf` may be written to. -/
def Writable (m : Mem) (n : Node) : Prop := (n.isSharedOne m.heap).1 = false

instance (m : Mem) (n : Node) : Decidable (Writable m n) := inferInstanceAs (Decidable (_ = _))

/-- Bytes are written at a place in the buffer, and the data is in another place. -/
def rewrite (m : Mem) (n : Node) (place : Nat) (bytes : List UInt8) (headroom length : Nat) : Mem × Node :=
  ({ m with heap := m.heap.write n.view.block place bytes }, { n with view := { n.view with headroom, length } })

/-- What each call asks of its caller is its guard. -/
def Call.step (m : Mem) (n : Node) : Call → Option (Mem × Node)
  | .trimStart amount =>
    if amount ≤ n.view.length then
      some (m, { n with view := { n.view with headroom := n.view.headroom + amount, length := n.view.length - amount } })
    else none
  | .trimEnd amount =>
    if amount ≤ n.view.length then some (m, { n with view := { n.view with length := n.view.length - amount } }) else none
  | .clear => some (m, { n with view := { n.view with headroom := 0, length := 0 } })
  | .append bytes =>
    if Writable m n ∧ bytes.length ≤ n.tailroom then
      some (rewrite m n (n.view.headroom + n.view.length) bytes n.view.headroom (n.view.length + bytes.length))
    else none
  | .prepend bytes =>
    if Writable m n ∧ bytes.length ≤ n.view.headroom then
      some (rewrite m n (n.view.headroom - bytes.length) bytes (n.view.headroom - bytes.length) (bytes.length + n.view.length))
    else none
  | .overwrite offset bytes =>
    if Writable m n ∧ offset + bytes.length ≤ n.view.length then
      some (rewrite m n (n.view.headroom + offset) bytes n.view.headroom n.view.length)
    else none
  | .advance amount =>
    if Writable m n ∧ amount ≤ n.tailroom then
      some (rewrite m n (n.view.headroom + amount) (n.data m.heap) (n.view.headroom + amount) n.view.length)
    else none
  | .retreat amount =>
    if Writable m n ∧ amount ≤ n.view.headroom then
      some (rewrite m n (n.view.headroom - amount) (n.data m.heap) (n.view.headroom - amount) n.view.length)
    else none
  | .reserve minHeadroom minTailroom =>
    if Writable m n ∧ Fits (n.view.length + n.view.headroom + minHeadroom + minTailroom) then
      some (Sharing.reserve junk m n minHeadroom minTailroom)
    else none
  | .isSharedOne => some (m, (n.isSharedOne m.heap).2)
  | .unshareOne => if Fits n.capacity then some (Sharing.unshareOne junk m n) else none
  | .makeManagedOne => if Fits n.capacity then some (Sharing.makeManagedOne junk m n) else none

variable (N user : Nat)

/-- The pointers that an operation follows. -/
def Op.follows : Op → List Nat
  | .create .. | .wrapBuffer .. | .takeOwnership .. => []
  | .prependChain a _ b => [a, b]
  | .call a .. | .clone a _ | .cloneOne a .. | .separateChain a .. | .isShared a | .unshare a | .makeManaged a | .coalesce a
  | .gather a _ | .destroy a => [a]

/-- The pointers that an operation sets, which are null before. -/
def Op.sets : Op → List Nat
  | .create a _ | .wrapBuffer a .. | .takeOwnership a .. => [a]
  | .clone _ b | .cloneOne _ _ b | .separateChain _ _ _ b => [b]
  | _ => []

/-- An operation, on pointers that are as it needs them. -/
def exec (s : State) : Op → Option State
  | .create a capacity =>
    if Fits capacity then
      let (v, h) := create junk s.mem.heap capacity
      some { mem := { s.mem with heap := h }
             chains := Function.update s.chains a [{ view := v, capacity := v.capacity h }] }
    else none
  | .wrapBuffer a block size =>
    if block < user ∧ size ≤ (s.mem.heap.blocks block).cells.length then
      let v : View := { block, headroom := 0, length := size, managed := false, malloced := false }
      some { s with chains := Function.update s.chains a [{ view := v, capacity := size }] }
    else none
  | .takeOwnership a bytes length malloced =>
    if length ≤ bytes.length then
      let (block, h) := s.mem.heap.alloc junk bytes.length
      let v : View := { block, headroom := 0, length, managed := true, malloced }
      some { mem := { s.mem with heap := h.write block 0 bytes }
             chains := Function.update s.chains a [{ view := v, capacity := bytes.length }] }
    else none
  | .call a i c => do
    let n ← (s.chains a)[i]?
    let (m, n) ← c.step junk s.mem n
    some { mem := m, chains := Function.update s.chains a ((s.chains a).set i n) }
  | .clone a b =>
    let (m, ns) := forEach cloneOneInto s.mem (s.chains a)
    some { mem := m, chains := Function.update (Function.update s.chains b ns) a ns }
  | .cloneOne a i b => do
    let n ← (s.chains a)[i]?
    let (m, n) := cloneOneInto s.mem n
    some { mem := m, chains := Function.update (Function.update s.chains b [n]) a ((s.chains a).set i n) }
  | .prependChain a i b =>
    if a ≠ b ∧ 0 < i ∧ i ≤ (s.chains a).length then
      let ns := (s.chains a).take i ++ s.chains b ++ (s.chains a).drop i
      some { s with chains := Function.update (Function.update s.chains b []) a ns }
    else none
  | .separateChain a i count b =>
    if 0 < i ∧ 0 < count ∧ i + count ≤ (s.chains a).length then
      let ns := (s.chains a).take i ++ (s.chains a).drop (i + count)
      some { s with chains := Function.update (Function.update s.chains b (((s.chains a).drop i).take count)) a ns }
    else none
  | .isShared a => some { s with chains := Function.update s.chains a (anySharedOne s.mem.heap (s.chains a)).2 }
  | .unshare a =>
    if Sized (s.chains a) ∧ ∀ n ∈ s.chains a, Fits n.capacity then
      let (m, ns) := unshare junk s.mem (s.chains a)
      some { mem := m, chains := Function.update s.chains a ns }
    else none
  | .makeManaged a =>
    if ∀ n ∈ s.chains a, Fits n.capacity then
      let (m, ns) := forEach (makeManagedOne junk) s.mem (s.chains a)
      some { mem := m, chains := Function.update s.chains a ns }
    else none
  | .coalesce a =>
    if Sized (s.chains a) then
      let (m, ns) := coalesce junk s.mem (s.chains a)
      some { mem := m, chains := Function.update s.chains a ns }
    else none
  | .gather a maxLength =>
    if ∀ k ∈ gathered (s.chains a) maxLength, Sized ((s.chains a).take k) then
      let (m, ns) := gather junk s.mem (s.chains a) maxLength
      some { mem := m, chains := Function.update s.chains a ns }
    else none
  | .destroy a => some { mem := destroy s.mem (s.chains a), chains := Function.update s.chains a [] }

/-- A program with `N` pointers; the first `user` blocks are its own memory. -/
def step (s : State) (op : Op) : Option State :=
  if (∀ a ∈ op.follows, a < N ∧ s.chains a ≠ []) ∧ ∀ a ∈ op.sets, a < N ∧ s.chains a = [] then exec junk user s op else none

/-- No `IOBuf`s yet; the blocks are the memory of the program. -/
def initial (memory : List (List UInt8)) : State where
  mem := { heap := { blocks := fun b => { cells := memory.getD b [], refcount := 0 }, fresh := memory.length } }
  chains := fun _ => []

/-- All the `IOBuf`s. -/
def State.nodes (s : State) : Multiset Node := tally N s.chains fun ns => (ns : Multiset Node)

/-- How many of some `IOBuf`s are on a block. -/
def users (b : Nat) (M : Multiset Node) : Nat := M.countP fun n => n.view.block = b

/-! ### What is counted -/

/-- What holds of the blocks and of all the `IOBuf`s on them, when the first blocks are `memory`. -/
structure Counted (memory : List (List UInt8)) (m : Mem) (M : Multiset Node) : Prop where
  inside : ∀ n ∈ M, n.view.headroom + n.view.length ≤ n.capacity ∧
    n.capacity ≤ (m.heap.blocks n.view.block).cells.length
  fresh : memory.length ≤ m.heap.fresh ∧ ∀ n ∈ M, n.view.block < m.heap.fresh
  /-- The memory of the program is not managed, and not changed. -/
  managed : ∀ n ∈ M, n.view.managed = true ↔ memory.length ≤ n.view.block
  kept : ∀ b, b < memory.length → (m.heap.blocks b).cells = memory.getD b []
  refcount : ∀ b, (m.heap.blocks b).refcount = if memory.length ≤ b then users b M else 0
  marked : ∀ n ∈ M, n.view.managed = true → n.maybeShared = false → (m.heap.blocks n.view.block).refcount = 1
  released : ∀ b, m.freed.count b + (if (m.heap.blocks b).refcount = 0 then 0 else 1) =
    if memory.length ≤ b ∧ b < m.heap.fresh then 1 else 0

section Users

variable {b : Nat} {n : Node} {M : Multiset Node}

@[simp] theorem users_zero : users b 0 = 0 := Multiset.countP_zero _

@[simp] theorem users_cons : users b (n ::ₘ M) = users b M + if n.view.block = b then 1 else 0 := Multiset.countP_cons _ _ _

theorem users_pos (hn : n ∈ M) : 0 < users n.view.block M := Multiset.countP_pos.2 ⟨n, hn, rfl⟩

theorem users_eq_zero (h : ∀ n ∈ M, n.view.block ≠ b) : users b M = 0 := Multiset.countP_eq_zero.2 h

end Users

/-- The data of some `IOBuf`s did not change. -/
def Same (m m' : Mem) (M : Multiset Node) : Prop := ∀ n ∈ M, n.data m'.heap = n.data m.heap

theorem Same.refl (m : Mem) (M : Multiset Node) : Same m m M := fun _ _ => rfl

theorem Same.trans {m m' m'' : Mem} {M : Multiset Node} (h : Same m m' M) (h' : Same m' m'' M) : Same m m'' M :=
  fun n hn => (h' n hn).trans (h n hn)

theorem Same.mono {m m' : Mem} {M M' : Multiset Node} (h : Same m m' M) (hsub : M' ≤ M) : Same m m' M' :=
  fun n hn => h n (Multiset.mem_of_le hsub hn)

namespace Counted

variable {memory : List (List UInt8)} {m : Mem} {n : Node} {M : Multiset Node}

theorem refcount_of_managed (hI : Counted memory m M) (hn : n ∈ M) (hmanaged : n.view.managed = true) :
    (m.heap.blocks n.view.block).refcount = users n.view.block M := by
  rw [hI.refcount, if_pos ((hI.managed n hn).1 hmanaged)]

theorem block_ne (hI : Counted memory m (n ::ₘ M)) (hmanaged : n.view.managed = true)
    (hone : (m.heap.blocks n.view.block).refcount = 1) : ∀ n' ∈ M, n'.view.block ≠ n.view.block := by
  intro n' hn' heq
  have hcount := hI.refcount_of_managed (Multiset.mem_cons_self n M) hmanaged
  have hpos := users_pos hn'
  rw [users_cons, if_pos rfl] at hcount
  rw [heq] at hpos
  omega

theorem add (hI : Counted memory m M) {h : Heap UInt8} (hfresh : h.fresh = m.heap.fresh + 1)
    (hother : ∀ b, b ≠ m.heap.fresh → h.blocks b = m.heap.blocks b) (hone : (h.blocks m.heap.fresh).refcount = 1)
    (hblock : n.view.block = m.heap.fresh) (hmanaged : n.view.managed = true)
    (hinside : n.view.headroom + n.view.length ≤ n.capacity) (hcapacity : n.capacity ≤ (h.blocks m.heap.fresh).cells.length) :
    Counted memory { m with heap := h } (n ::ₘ M) ∧ Same m { m with heap := h } M := by
  have hne : ∀ n' ∈ M, n'.view.block ≠ m.heap.fresh := fun n' hn' => Nat.ne_of_lt (hI.fresh.2 n' hn')
  have hold : ∀ n' ∈ M, h.blocks n'.view.block = m.heap.blocks n'.view.block := fun n' hn' => hother _ (hne n' hn')
  refine ⟨⟨?_, ⟨?_, ?_⟩, ?_, fun b hb => ?_, fun b => ?_, ?_, fun b => ?_⟩, fun n' hn' => View.data_congr (by rw [hold n' hn'])⟩
  · rw [Multiset.forall_mem_cons]
    refine ⟨⟨hinside, hblock ▸ hcapacity⟩, fun n' hn' => ?_⟩
    rw [hold n' hn']
    exact hI.inside n' hn'
  · show memory.length ≤ h.fresh
    have := hI.fresh.1
    omega
  · rw [Multiset.forall_mem_cons]
    refine ⟨?_, fun n' hn' => ?_⟩
    · show n.view.block < h.fresh
      omega
    · show n'.view.block < h.fresh
      have := hI.fresh.2 n' hn'
      omega
  · rw [Multiset.forall_mem_cons]
    exact ⟨⟨fun _ => hblock ▸ hI.fresh.1, fun _ => hmanaged⟩, hI.managed⟩
  · show (h.blocks b).cells = _
    have := hI.fresh.1
    rw [hother b (by omega)]
    exact hI.kept b hb
  · show (h.blocks b).refcount = _
    by_cases heq : b = m.heap.fresh
    · rw [heq, hone, if_pos hI.fresh.1, users_cons, if_pos hblock, users_eq_zero hne]
    · rw [hother b heq, hI.refcount, users_cons, if_neg (show ¬n.view.block = b from fun h => heq (h ▸ hblock)), Nat.add_zero]
  · rw [Multiset.forall_mem_cons]
    refine ⟨fun _ _ => hblock ▸ hone, fun n' hn' => ?_⟩
    rw [hold n' hn']
    exact hI.marked n' hn'
  · show m.freed.count b + (if (h.blocks b).refcount = 0 then 0 else 1) = if memory.length ≤ b ∧ b < h.fresh then 1 else 0
    have hb := hI.released b
    have hle := hI.fresh.1
    by_cases heq : b = m.heap.fresh
    · subst heq
      rw [if_neg (by omega : ¬(memory.length ≤ m.heap.fresh ∧ m.heap.fresh < m.heap.fresh))] at hb
      rw [hone, hfresh, if_neg Nat.one_ne_zero, if_pos ⟨hle, Nat.lt_succ_self _⟩]
      omega
    · rw [hother b heq, hb, hfresh]
      have hiff : (memory.length ≤ b ∧ b < m.heap.fresh) ↔ (memory.length ≤ b ∧ b < m.heap.fresh + 1) := by omega
      simp only [hiff]

/-- One `IOBuf` is exchanged for another on the same block, and the flag only goes when nobody else is on the block. -/
theorem exchange (hI : Counted memory m (n ::ₘ M)) {n' : Node} (hblock : n'.view.block = n.view.block)
    (hmanaged : n'.view.managed = n.view.managed) (hinside : n'.view.headroom + n'.view.length ≤ n'.capacity)
    (hcapacity : n'.capacity ≤ (m.heap.blocks n.view.block).cells.length)
    (hmarked : n.view.managed = true → n'.maybeShared = false → (m.heap.blocks n.view.block).refcount = 1) :
    Counted memory m (n' ::ₘ M) := by
  have hn := Multiset.mem_cons_self n M
  refine ⟨?_, ⟨hI.fresh.1, ?_⟩, ?_, hI.kept, fun b => ?_, ?_, hI.released⟩
  · exact Multiset.forall_mem_cons.2 ⟨⟨hinside, hblock ▸ hcapacity⟩, (Multiset.forall_mem_cons.1 hI.inside).2⟩
  · exact Multiset.forall_mem_cons.2 ⟨hblock ▸ hI.fresh.2 n hn, (Multiset.forall_mem_cons.1 hI.fresh.2).2⟩
  · exact Multiset.forall_mem_cons.2 ⟨by rw [hblock, hmanaged]; exact hI.managed n hn, (Multiset.forall_mem_cons.1 hI.managed).2⟩
  · rw [hI.refcount, users_cons, users_cons, hblock]
  · exact Multiset.forall_mem_cons.2 ⟨by rw [hblock, hmanaged]; exact hmarked, (Multiset.forall_mem_cons.1 hI.marked).2⟩

theorem wrap (hI : Counted memory m M) (hblock : n.view.block < memory.length) (hmanaged : n.view.managed = false)
    (hinside : n.view.headroom + n.view.length ≤ n.capacity)
    (hcapacity : n.capacity ≤ (m.heap.blocks n.view.block).cells.length) : Counted memory m (n ::ₘ M) := by
  refine ⟨?_, ⟨hI.fresh.1, ?_⟩, ?_, hI.kept, fun b => ?_, ?_, hI.released⟩
  · exact Multiset.forall_mem_cons.2 ⟨⟨hinside, hcapacity⟩, hI.inside⟩
  · exact Multiset.forall_mem_cons.2 ⟨Nat.lt_of_lt_of_le hblock hI.fresh.1, hI.fresh.2⟩
  · exact Multiset.forall_mem_cons.2 ⟨⟨fun h => by simp [hmanaged] at h, fun h => by omega⟩, hI.managed⟩
  · rw [hI.refcount, users_cons]
    split_ifs
    · omega
    · rfl
    · rfl
  · exact Multiset.forall_mem_cons.2 ⟨fun h => by simp [hmanaged] at h, hI.marked⟩

theorem write (hI : Counted memory m (n ::ₘ M)) (hmanaged : n.view.managed = true)
    (hone : (m.heap.blocks n.view.block).refcount = 1) {i : Nat} {bytes : List UInt8} (hfit : i + bytes.length ≤ n.capacity) :
    Counted memory { m with heap := m.heap.write n.view.block i bytes } (n ::ₘ M) ∧
      Same m { m with heap := m.heap.write n.view.block i bytes } M := by
  have hn := Multiset.mem_cons_self n M
  have hle := (hI.inside n hn).2
  have hlen (b : Nat) : ((m.heap.write n.view.block i bytes).blocks b).cells.length = (m.heap.blocks b).cells.length :=
    Heap.length_write m.heap (by omega) b
  have hcount (b : Nat) : ((m.heap.write n.view.block i bytes).blocks b).refcount = (m.heap.blocks b).refcount :=
    Heap.refcount_write m.heap _ _ bytes b
  refine ⟨⟨fun n' hn' => ?_, hI.fresh, hI.managed, fun b hb => ?_, fun b => ?_, fun n' hn' => ?_, fun b => ?_⟩, fun n' hn' => ?_⟩
  · show _ ∧ n'.capacity ≤ ((m.heap.write n.view.block i bytes).blocks n'.view.block).cells.length
    rw [hlen]
    exact hI.inside n' hn'
  · show ((m.heap.write n.view.block i bytes).blocks b).cells = _
    have hge := (hI.managed n hn).1 hmanaged
    rw [Heap.write_of_ne _ (by omega)]
    exact hI.kept b hb
  · exact (hcount b).trans (hI.refcount b)
  · show _ → _ → ((m.heap.write n.view.block i bytes).blocks n'.view.block).refcount = 1
    rw [hcount]
    exact hI.marked n' hn'
  · show m.freed.count b + (if ((m.heap.write n.view.block i bytes).blocks b).refcount = 0 then 0 else 1) = _
    rw [hcount]
    exact hI.released b
  · exact View.data_congr (by rw [Heap.write_of_ne _ (hI.block_ne hmanaged hone n' hn')])

theorem remove (hI : Counted memory m (n ::ₘ M)) :
    Counted memory (decrementRefcount m n) M ∧ Same m (decrementRefcount m n) M := by
  have hn := Multiset.mem_cons_self n M
  have hsub : ∀ n' ∈ M, n' ∈ n ::ₘ M := fun n' hn' => Multiset.mem_cons_of_mem hn'
  unfold decrementRefcount
  split_ifs with hmanaged hshared
  · refine ⟨⟨fun n' hn' => hI.inside n' (hsub n' hn'), ⟨hI.fresh.1, fun n' hn' => hI.fresh.2 n' (hsub n' hn')⟩,
      fun n' hn' => hI.managed n' (hsub n' hn'), hI.kept, fun b => ?_, fun n' hn' => hI.marked n' (hsub n' hn'), hI.released⟩,
      Same.refl m M⟩
    have hlt : ¬memory.length ≤ n.view.block := fun hle => by simp [(hI.managed n hn).2 hle] at hmanaged
    rw [hI.refcount]
    split_ifs with hb
    · rw [users_cons, if_neg (show ¬n.view.block = b from fun h => hlt (h ▸ hb)), Nat.add_zero]
    · rfl
  · rw [Bool.not_eq_false] at hmanaged
    have hself := m.heap.release_self hshared
    have hcells (b : Nat) : ((m.heap.release n.view.block).blocks b).cells = (m.heap.blocks b).cells := by
      by_cases heq : b = n.view.block
      · rw [heq, hself]
      · rw [Heap.release_of_ne _ heq]
    have hcount := hI.refcount_of_managed hn hmanaged
    rw [users_cons, if_pos rfl] at hcount
    refine ⟨⟨fun n' hn' => ?_, ⟨?_, fun n' hn' => ?_⟩, fun n' hn' => hI.managed n' (hsub n' hn'), fun b hb => ?_, fun b => ?_,
      fun n' hn' hm hflag => ?_, fun b => ?_⟩, fun n' hn' => View.data_congr (hcells _)⟩
    · show _ ∧ n'.capacity ≤ ((m.heap.release n.view.block).blocks n'.view.block).cells.length
      rw [hcells]
      exact hI.inside n' (hsub n' hn')
    · show _ ≤ (m.heap.release n.view.block).fresh
      rw [Heap.fresh_release]
      exact hI.fresh.1
    · show _ < (m.heap.release n.view.block).fresh
      rw [Heap.fresh_release]
      exact hI.fresh.2 n' (hsub n' hn')
    · exact (hcells b).trans (hI.kept b hb)
    · show ((m.heap.release n.view.block).blocks b).refcount = _
      by_cases heq : b = n.view.block
      · rw [heq, hself, if_pos ((hI.managed n hn).1 hmanaged)]
        show (m.heap.blocks n.view.block).refcount - 1 = _
        omega
      · rw [Heap.release_of_ne _ heq, hI.refcount, users_cons, if_neg (Ne.symm heq), Nat.add_zero]
    · show ((m.heap.release n.view.block).blocks n'.view.block).refcount = 1
      have hone := hI.marked n' (hsub n' hn') hm hflag
      have hne : n'.view.block ≠ n.view.block := fun heq => by
        rw [heq] at hone
        omega
      rw [Heap.release_of_ne _ hne, hone]
    · show m.freed.count b + (if ((m.heap.release n.view.block).blocks b).refcount = 0 then 0 else 1) =
        if _ ∧ b < (m.heap.release n.view.block).fresh then 1 else 0
      rw [Heap.fresh_release, ← hI.released]
      by_cases heq : b = n.view.block
      · rw [heq, hself, if_neg (by show ¬_ - 1 = 0; omega), if_neg (by omega)]
      · rw [Heap.release_of_ne _ heq]
  · rw [Bool.not_eq_false] at hmanaged
    have hcount := hI.refcount_of_managed hn hmanaged
    rw [users_cons, if_pos rfl] at hcount
    have hone : (m.heap.blocks n.view.block).refcount = 1 := by omega
    have hne := hI.block_ne hmanaged hone
    have hold : ∀ n' ∈ M, (m.heap.free n.view.block).blocks n'.view.block = m.heap.blocks n'.view.block :=
      fun n' hn' => Heap.free_of_ne _ (hne n' hn')
    have hge := (hI.managed n hn).1 hmanaged
    refine ⟨⟨fun n' hn' => ?_, ⟨hI.fresh.1, fun n' hn' => hI.fresh.2 n' (hsub n' hn')⟩, fun n' hn' => hI.managed n' (hsub n' hn'),
      fun b hb => ?_, fun b => ?_, fun n' hn' => ?_, fun b => ?_⟩, fun n' hn' => View.data_congr (by rw [freeExtBuffer, hold n' hn'])⟩
    · show _ ∧ n'.capacity ≤ ((m.heap.free n.view.block).blocks n'.view.block).cells.length
      rw [hold n' hn']
      exact hI.inside n' (hsub n' hn')
    · show ((m.heap.free n.view.block).blocks b).cells = _
      rw [Heap.free_of_ne _ (by omega)]
      exact hI.kept b hb
    · show ((m.heap.free n.view.block).blocks b).refcount = _
      by_cases heq : b = n.view.block
      · rw [heq, Heap.free_self, if_pos hge, users_eq_zero hne]
      · rw [Heap.free_of_ne _ heq, hI.refcount, users_cons, if_neg (Ne.symm heq), Nat.add_zero]
    · show _ → _ → ((m.heap.free n.view.block).blocks n'.view.block).refcount = 1
      rw [hold n' hn']
      exact hI.marked n' (hsub n' hn')
    · refine Eq.trans (b := m.freed.count b + if (m.heap.blocks b).refcount = 0 then 0 else 1) ?_ (hI.released b)
      show (m.freed ++ [n.view.block]).count b + (if ((m.heap.free n.view.block).blocks b).refcount = 0 then 0 else 1) = _
      rw [List.count_append]
      by_cases heq : b = n.view.block
      · rw [heq, Heap.free_self, if_pos rfl, hone, List.count_singleton_self, if_neg Nat.one_ne_zero]
      · rw [Heap.free_of_ne _ heq, List.count_singleton, if_neg (by simpa using Ne.symm heq), Nat.add_zero]

theorem clone (hI : Counted memory m (n ::ₘ M)) :
    Counted memory (cloneOneInto m n).1 ((cloneOneInto m n).2 ::ₘ (cloneOneInto m n).2 ::ₘ M) ∧
      Same m (cloneOneInto m n).1 M ∧ (cloneOneInto m n).2.data (cloneOneInto m n).1.heap = n.data m.heap := by
  have hn := Multiset.mem_cons_self n M
  have hall : ∀ {P : Node → Prop}, P n → (∀ n' ∈ n ::ₘ M, P n') → ∀ n' ∈ n ::ₘ n ::ₘ M, P n' := fun hP hrest =>
    Multiset.forall_mem_cons.2 ⟨hP, hrest⟩
  unfold cloneOneInto
  split_ifs with hmanaged
  · have hcells := m.heap.cells_retain n.view.block
    have hge := (hI.managed n hn).1 hmanaged
    have hcount := hI.refcount_of_managed hn hmanaged
    rw [users_cons, if_pos rfl] at hcount
    refine ⟨⟨?_, ⟨hI.fresh.1, ?_⟩, ?_, fun b hb => ?_, fun b => ?_, ?_, fun b => ?_⟩, fun n' hn' => ?_, ?_⟩
    · show ∀ n' : Node, n' ∈ _ → _ ∧ n'.capacity ≤ ((m.heap.retain n.view.block).blocks n'.view.block).cells.length
      simp only [hcells]
      obtain ⟨hnode, hrest⟩ := Multiset.forall_mem_cons.1 hI.inside
      exact Multiset.forall_mem_cons.2 ⟨hnode, Multiset.forall_mem_cons.2 ⟨hnode, hrest⟩⟩
    · obtain ⟨hnode, hrest⟩ := Multiset.forall_mem_cons.1 hI.fresh.2
      exact Multiset.forall_mem_cons.2 ⟨hnode, Multiset.forall_mem_cons.2 ⟨hnode, hrest⟩⟩
    · obtain ⟨hnode, hrest⟩ := Multiset.forall_mem_cons.1 hI.managed
      exact Multiset.forall_mem_cons.2 ⟨hnode, Multiset.forall_mem_cons.2 ⟨hnode, hrest⟩⟩
    · exact (hcells b).trans (hI.kept b hb)
    · show ((m.heap.retain n.view.block).blocks b).refcount = _
      rw [users_cons, users_cons]
      by_cases heq : b = n.view.block
      · rw [heq, Heap.retain_self, if_pos hge, if_pos rfl]
        show (m.heap.blocks n.view.block).refcount + 1 = _
        omega
      · rw [Heap.retain_of_ne _ heq, hI.refcount, users_cons, if_neg (Ne.symm heq)]
    · refine Multiset.forall_mem_cons.2 ⟨by simp, Multiset.forall_mem_cons.2 ⟨by simp, fun n' hn' hm hflag => ?_⟩⟩
      have hone := hI.marked n' (Multiset.mem_cons_of_mem hn') hm hflag
      have hne : n'.view.block ≠ n.view.block := fun heq => by
        have hpos := users_pos hn'
        rw [heq] at hone hpos
        omega
      show ((m.heap.retain n.view.block).blocks n'.view.block).refcount = 1
      rw [Heap.retain_of_ne _ hne, hone]
    · show m.freed.count b + (if ((m.heap.retain n.view.block).blocks b).refcount = 0 then 0 else 1) = _
      refine Eq.trans ?_ (hI.released b)
      by_cases heq : b = n.view.block
      · rw [heq, Heap.retain_self, if_neg (Nat.succ_ne_zero _), if_neg (by omega)]
      · rw [Heap.retain_of_ne _ heq]
    · exact View.data_congr (hcells _)
    · exact View.data_congr (hcells _)
  · have hlt : ¬memory.length ≤ n.view.block := fun hle => hmanaged ((hI.managed n hn).2 hle)
    refine ⟨⟨?_, ⟨hI.fresh.1, ?_⟩, ?_, hI.kept, fun b => ?_, ?_, hI.released⟩, Same.refl m M, rfl⟩
    · exact hall (hI.inside n hn) hI.inside
    · exact hall (hI.fresh.2 n hn) hI.fresh.2
    · exact hall (hI.managed n hn) hI.managed
    · rw [hI.refcount, users_cons (n := n) (M := n ::ₘ M)]
      split_ifs with hb heq
      · exact absurd (heq ▸ hb) hlt
      · rfl
      · rfl
    · exact hall (hI.marked n hn) hI.marked

end Counted

/-! ### What one `IOBuf` does is not seen by the others -/

section Becomes

variable {memory : List (List UInt8)} {m m' m'' : Mem} {n n' n'' : Node} {f g : List UInt8 → List UInt8}

/-- An `IOBuf` becomes another with `f` of its data; nothing happens to all others. -/
def Becomes (memory : List (List UInt8)) (m : Mem) (n : Node) (f : List UInt8 → List UInt8) (r : Mem × Node) : Prop :=
  ∀ M, Counted memory m (n ::ₘ M) → Counted memory r.1 (r.2 ::ₘ M) ∧ Same m r.1 M ∧ r.2.data r.1.heap = f (n.data m.heap)

theorem Becomes.refl : Becomes memory m n id (m, n) := fun M hI => ⟨hI, Same.refl m M, rfl⟩

theorem Becomes.trans (h : Becomes memory m n f (m', n')) (h' : Becomes memory m' n' g (m'', n'')) :
    Becomes memory m n (g ∘ f) (m'', n'') := by
  intro M hI
  obtain ⟨hI', hsame, hdata⟩ := h M hI
  obtain ⟨hI'', hsame', hdata'⟩ := h' M hI'
  exact ⟨hI'', hsame.trans hsame', hdata'.trans (congrArg g hdata)⟩

/-- **The flag never hides that a block is shared**: who asks `isSharedOne` is told what the count says. -/
theorem isSharedOne_iff {M : Multiset Node} (hI : Counted memory m M) (hn : n ∈ M) :
    (n.isSharedOne m.heap).1 = true ↔ n.view.managed = false ∨ 1 < (m.heap.blocks n.view.block).refcount := by
  unfold Node.isSharedOne
  split_ifs with hmanaged hflag hshared
  · exact ⟨fun _ => .inl hmanaged, fun _ => rfl⟩
  · rw [Bool.not_eq_false] at hmanaged
    have hone := hI.marked n hn hmanaged hflag
    simp [hmanaged, hone]
  · exact ⟨fun _ => .inr hshared, fun _ => rfl⟩
  · simp [hmanaged, hshared]

theorem writable_iff {M : Multiset Node} (hI : Counted memory m M) (hn : n ∈ M) :
    Writable m n ↔ n.view.managed = true ∧ (m.heap.blocks n.view.block).refcount = 1 := by
  have hiff := isSharedOne_iff hI hn
  rw [Writable, ← Bool.not_eq_true, hiff]
  constructor
  · intro h
    have hmanaged : n.view.managed = true := by
      rw [← Bool.not_eq_false]
      exact fun hm => h (.inl hm)
    have hpos := users_pos hn
    rw [← hI.refcount_of_managed hn hmanaged] at hpos
    exact ⟨hmanaged, by have : ¬1 < (m.heap.blocks n.view.block).refcount := fun hs => h (.inr hs); omega⟩
  · rintro ⟨hmanaged, hone⟩
    simp [hmanaged, hone]

theorem isSharedOne_becomes : Becomes memory m n id (m, (n.isSharedOne m.heap).2) := by
  intro M hI
  have hn := Multiset.mem_cons_self n M
  have hinside := hI.inside n hn
  unfold Node.isSharedOne
  split_ifs with hmanaged hflag hshared
  · exact Becomes.refl M hI
  · exact Becomes.refl M hI
  · exact Becomes.refl M hI
  · rw [Bool.not_eq_false] at hmanaged
    have hpos := users_pos hn
    rw [← hI.refcount_of_managed hn hmanaged] at hpos
    exact ⟨hI.exchange rfl rfl hinside.1 hinside.2 fun _ _ => by omega, Same.refl m M, rfl⟩

theorem shorten_becomes {headroom length : Nat} (hinside : headroom + length ≤ n.view.headroom + n.view.length)
    (hdata : ∀ cells : List UInt8, n.view.headroom + n.view.length ≤ cells.length →
      slice cells headroom length = f (slice cells n.view.headroom n.view.length)) :
    Becomes memory m n f (m, { n with view := { n.view with headroom, length } }) := by
  intro M hI
  have hn := Multiset.mem_cons_self n M
  have hle := hI.inside n hn
  refine ⟨hI.exchange rfl rfl ?_ hle.2 (hI.marked n hn), Same.refl m M, hdata _ (Nat.le_trans hle.1 hle.2)⟩
  show headroom + length ≤ n.capacity
  omega

theorem rewrite_becomes (hw : Writable m n) {place : Nat} {bytes : List UInt8} {headroom length : Nat}
    (hfit : place + bytes.length ≤ n.capacity) (hinside : headroom + length ≤ n.capacity)
    (hdata : n.view.headroom + n.view.length ≤ n.capacity → n.capacity ≤ (m.heap.blocks n.view.block).cells.length →
      slice (splice (m.heap.blocks n.view.block).cells place bytes) headroom length = f (n.data m.heap)) :
    Becomes memory m n f (rewrite m n place bytes headroom length) := by
  intro M hI
  have hn := Multiset.mem_cons_self n M
  obtain ⟨hmanaged, hone⟩ := (writable_iff hI hn).1 hw
  obtain ⟨hI', hsame⟩ := hI.write hmanaged hone hfit
  have hcapacity := (hI'.inside n hn).2
  refine ⟨hI'.exchange rfl rfl hinside hcapacity (hI'.marked n hn), hsame, ?_⟩
  show slice ((m.heap.write n.view.block place bytes).blocks n.view.block).cells headroom length = _
  rw [Heap.write_self]
  exact hdata (hI.inside n hn).1 (hI.inside n hn).2

theorem alloc_write (h : Heap UInt8) {size i : Nat} {bytes : List UInt8} (hfit : i + bytes.length ≤ size) :
    let h' := (h.alloc junk size).2.write h.fresh i bytes
    h'.fresh = h.fresh + 1 ∧ (∀ b, b ≠ h.fresh → h'.blocks b = h.blocks b) ∧ (h'.blocks h.fresh).refcount = 1 ∧
      (h'.blocks h.fresh).cells.length = size ∧ ∃ cells, (h'.blocks h.fresh).cells = splice cells i bytes ∧ cells.length = size := by
  intro h'
  obtain ⟨hsize, hone⟩ := h.alloc_new junk size
  refine ⟨rfl, fun b hb => ?_, ?_, ?_, _, congrArg Block.cells (Heap.write_self ..), hsize⟩
  · exact (Heap.write_of_ne _ hb ..).trans (h.alloc_of_ne junk size hb)
  · exact (Heap.refcount_write ..).trans hone
  · exact (Heap.length_write _ (by rw [hsize]; exact hfit) _).trans hsize

theorem move_becomes {size i headroom capacity : Nat} {bytes : List UInt8} {malloced : Bool} (hfit : i + bytes.length ≤ size)
    (hinside : headroom + n.view.length ≤ capacity) (hcapacity : capacity ≤ size)
    (hdata : ∀ cells : List UInt8, cells.length = size → n.view.headroom + n.view.length ≤ (m.heap.blocks n.view.block).cells.length →
      slice (splice cells i bytes) headroom n.view.length = n.data m.heap) :
    Becomes memory m n id (decrementRefcount { m with heap := (m.heap.alloc junk size).2.write m.heap.fresh i bytes } n,
      { view := { block := m.heap.fresh, headroom, length := n.view.length, managed := true, malloced }, capacity }) := by
  intro M hI
  have hn := hI.inside n (Multiset.mem_cons_self n M)
  obtain ⟨hfresh, hother, hone, hsize, cells, hcells, hlen⟩ := alloc_write junk m.heap hfit
  let new : Node := { view := { block := m.heap.fresh, headroom, length := n.view.length, managed := true, malloced }, capacity }
  obtain ⟨hadd, hsame⟩ := hI.add (n := new) hfresh hother hone rfl rfl hinside (Nat.le_trans hcapacity (Nat.le_of_eq hsize.symm))
  rw [Multiset.cons_swap] at hadd
  obtain ⟨hI', hsame'⟩ := hadd.remove
  refine ⟨hI', (hsame.mono (Multiset.le_cons_self M n)).trans (hsame'.mono (Multiset.le_cons_self M _)), ?_⟩
  refine (hsame' _ (Multiset.mem_cons_self _ M)).trans ?_
  show slice (((m.heap.alloc junk size).2.write m.heap.fresh i bytes).blocks m.heap.fresh).cells headroom n.view.length = _
  rw [hcells]
  exact hdata cells hlen (Nat.le_trans hn.1 hn.2)

theorem le_extCapacity (size : Nat) (hfits : size + 31 < 2 ^ 64) : size ≤ extCapacity size := by
  rw [extCapacity_eq hfits]
  exact Buf.le_extCapacity size

theorem unshareOneSlow_becomes (hfits : Fits n.capacity) : Becomes memory m n id (unshareOneSlow junk m n) := by
  intro M hI
  have hn := hI.inside n (Multiset.mem_cons_self n M)
  have hlen : (n.data m.heap).length = n.view.length := length_slice (Nat.le_trans hn.1 hn.2)
  have hsize := le_extCapacity (n.capacity) (by unfold Fits at hfits; omega)
  refine move_becomes junk (by omega) hn.1 hsize (fun cells hcells _ => ?_) M hI
  rw [← hlen]
  exact slice_splice_same _ (by omega)

theorem unshareOne_becomes (hfits : Fits n.capacity) : Becomes memory m n id (unshareOne junk m n) := by
  unfold unshareOne
  have hcapacity : (n.isSharedOne m.heap).2.capacity = n.capacity := by
    unfold Node.isSharedOne
    split_ifs <;> rfl
  have hflag : Becomes memory m n id (m, (n.isSharedOne m.heap).2) := isSharedOne_becomes
  generalize n.isSharedOne m.heap = p at hcapacity hflag
  obtain ⟨shared, n₁⟩ := p
  cases shared with
  | false => exact hflag
  | true => exact hflag.trans (unshareOneSlow_becomes junk (hcapacity ▸ hfits))

theorem makeManagedOne_becomes (hfits : Fits n.capacity) : Becomes memory m n id (makeManagedOne junk m n) := by
  unfold makeManagedOne
  split_ifs
  · exact Becomes.refl
  · exact unshareOneSlow_becomes junk hfits

theorem freeExtBuffer_eq (hmanaged : n.view.managed = true) (hone : (m.heap.blocks n.view.block).refcount = 1) :
    freeExtBuffer m n.view.block = decrementRefcount m n := by
  rw [decrementRefcount, if_neg (by simp [hmanaged]), if_neg (by omega)]

theorem reserveSlow_becomes (hw : Writable m n) {minHeadroom minTailroom : Nat}
    (hfits : Fits (n.view.length + n.view.headroom + minHeadroom + minTailroom)) :
    Becomes memory m n id (reserveSlow junk m n minHeadroom minTailroom) := by
  intro M hI
  have hmem := Multiset.mem_cons_self n M
  have hn := hI.inside n hmem
  have hlen : (n.data m.heap).length = n.view.length := length_slice (Nat.le_trans hn.1 hn.2)
  obtain ⟨hmanaged, hone⟩ := (writable_iff hI hmem).1 hw
  have hlt := hI.fresh.2 n hmem
  -- the old block is still there when the new one is filled
  have hfree {size i : Nat} {bytes : List UInt8} :
      freeExtBuffer { m with heap := (m.heap.alloc junk size).2.write m.heap.fresh i bytes } n.view.block =
        decrementRefcount { m with heap := (m.heap.alloc junk size).2.write m.heap.fresh i bytes } n := by
    refine freeExtBuffer_eq hmanaged ?_
    show (((m.heap.alloc junk size).2.write m.heap.fresh i bytes).blocks n.view.block).refcount = 1
    rw [Heap.refcount_write, Heap.alloc_of_ne _ _ _ (Nat.ne_of_lt hlt), hone]
  unfold Fits at hfits
  unfold reserveSlow
  split_ifs with hroom hrealloc
  · unfold Node.tailroom at hroom
    refine rewrite_becomes hw (by omega) (by omega) (fun _ _ => ?_) M hI
    rw [← hlen]
    exact slice_splice_same _ (by omega)
  · have hsize := le_extCapacity (n.view.length + minHeadroom + minTailroom + (n.view.headroom - minHeadroom)) (by omega)
    have hcopy : (List.take (extCapacity (n.view.length + minHeadroom + minTailroom + (n.view.headroom - minHeadroom)))
        (m.heap.blocks n.view.block).cells).length ≤ _ := List.length_take_le _ _
    dsimp only [allocExtBuffer]
    rw [show (m.heap.alloc junk _).1 = m.heap.fresh from rfl, hfree]
    refine move_becomes junk (by omega) (by omega) (Nat.le_refl _) (fun cells _ hle => ?_) M hI
    rw [slice_splice_zero (by rw [List.length_take]; omega), slice_take (by omega)]
    rfl
  · have hsize := le_extCapacity (n.view.length + minHeadroom + minTailroom) (by omega)
    dsimp only [allocExtBuffer]
    rw [show (m.heap.alloc junk _).1 = m.heap.fresh from rfl, hfree]
    refine move_becomes junk (by omega) (by omega) (Nat.le_refl _) (fun cells _ _ => ?_) M hI
    rw [← hlen]
    exact slice_splice_same _ (by omega)

theorem reserve_becomes (hw : Writable m n) {minHeadroom minTailroom : Nat}
    (hfits : Fits (n.view.length + n.view.headroom + minHeadroom + minTailroom)) :
    Becomes memory m n id (reserve junk m n minHeadroom minTailroom) := by
  unfold reserve
  split_ifs with hroom hempty
  · exact Becomes.refl
  · intro M hI
    have hmem := Multiset.mem_cons_self n M
    have hn := hI.inside n hmem
    have hle := hempty.2
    unfold Node.tailroom at hle
    refine ⟨hI.exchange rfl rfl ?_ hn.2 (hI.marked n hmem), Same.refl m M, ?_⟩
    · show minHeadroom + n.view.length ≤ n.capacity
      omega
    · show slice _ minHeadroom n.view.length = slice _ n.view.headroom n.view.length
      rw [hempty.1, slice_zero, slice_zero]
  · exact reserveSlow_becomes junk hw hfits

/-- What a call does to the data. -/
def Call.shows : Call → List UInt8 → List UInt8
  | .trimStart amount, data => data.drop amount
  | .trimEnd amount, data => data.take (data.length - amount)
  | .clear, _ => []
  | .append bytes, data => data ++ bytes
  | .prepend bytes, data => bytes ++ data
  | .overwrite offset bytes, data => splice data offset bytes
  | _, data => data

theorem Call.step_becomes {c : Call} {r : Mem × Node} (hstep : c.step junk m n = some r) : Becomes memory m n c.shows r := by
  cases c with
  | trimStart amount =>
    obtain ⟨hle, ⟨⟩⟩ := Option.ite_none_right_eq_some.1 hstep
    refine shorten_becomes (by omega) fun cells _ => ?_
    show _ = (slice cells _ _).drop amount
    rw [slice, slice, List.drop_take, List.drop_drop]
  | trimEnd amount =>
    obtain ⟨hle, ⟨⟩⟩ := Option.ite_none_right_eq_some.1 hstep
    refine shorten_becomes (by omega) fun cells hcells => ?_
    show _ = (slice cells _ _).take ((slice cells _ _).length - amount)
    rw [length_slice hcells, slice, slice, List.take_take, Nat.min_eq_left (by omega)]
  | clear =>
    cases hstep
    exact shorten_becomes (by omega) fun cells _ => slice_zero cells 0
  | append bytes =>
    obtain ⟨⟨hw, hroom⟩, ⟨⟩⟩ := Option.ite_none_right_eq_some.1 hstep
    unfold Node.tailroom at hroom
    intro M hI
    have hn := hI.inside n (Multiset.mem_cons_self n M)
    refine rewrite_becomes hw (by omega) (by omega) (fun _ hcells => ?_) M hI
    exact slice_splice_append _ _ _ (by omega)
  | prepend bytes =>
    obtain ⟨⟨hw, hroom⟩, ⟨⟩⟩ := Option.ite_none_right_eq_some.1 hstep
    intro M hI
    have hn := hI.inside n (Multiset.mem_cons_self n M)
    refine rewrite_becomes hw (by omega) (by omega) (fun _ hcells => ?_) M hI
    rw [slice_splice_prepend _ _ _ (by omega), Nat.sub_add_cancel hroom]
    rfl
  | overwrite offset bytes =>
    obtain ⟨⟨hw, hroom⟩, ⟨⟩⟩ := Option.ite_none_right_eq_some.1 hstep
    intro M hI
    have hn := hI.inside n (Multiset.mem_cons_self n M)
    refine rewrite_becomes hw (by omega) (by omega) (fun _ hcells => ?_) M hI
    exact slice_splice_around _ (by omega) (by omega)
  | advance amount =>
    obtain ⟨⟨hw, hroom⟩, ⟨⟩⟩ := Option.ite_none_right_eq_some.1 hstep
    unfold Node.tailroom at hroom
    intro M hI
    have hn := hI.inside n (Multiset.mem_cons_self n M)
    have hlen : (n.data m.heap).length = n.view.length := length_slice (Nat.le_trans hn.1 hn.2)
    refine rewrite_becomes hw (by omega) (by omega) (fun _ hcells => ?_) M hI
    exact hlen ▸ slice_splice_same _ (by omega)
  | retreat amount =>
    obtain ⟨⟨hw, hroom⟩, ⟨⟩⟩ := Option.ite_none_right_eq_some.1 hstep
    intro M hI
    have hn := hI.inside n (Multiset.mem_cons_self n M)
    have hlen : (n.data m.heap).length = n.view.length := length_slice (Nat.le_trans hn.1 hn.2)
    refine rewrite_becomes hw (by omega) (by omega) (fun _ hcells => ?_) M hI
    exact hlen ▸ slice_splice_same _ (by omega)
  | reserve minHeadroom minTailroom =>
    obtain ⟨⟨hw, hfits⟩, ⟨⟩⟩ := Option.ite_none_right_eq_some.1 hstep
    exact reserve_becomes junk hw hfits
  | isSharedOne =>
    cases hstep
    exact isSharedOne_becomes
  | unshareOne =>
    obtain ⟨hfits, ⟨⟩⟩ := Option.ite_none_right_eq_some.1 hstep
    exact unshareOne_becomes junk hfits
  | makeManagedOne =>
    obtain ⟨hfits, ⟨⟩⟩ := Option.ite_none_right_eq_some.1 hstep
    exact makeManagedOne_becomes junk hfits

end Becomes

end Raster.Sharing
