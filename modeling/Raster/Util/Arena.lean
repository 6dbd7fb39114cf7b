import Mathlib.Algebra.Group.Nat.Defs
import Mathlib.Algebra.GroupWithZero.Nat
import Mathlib.Data.List.Nodup
import Mathlib.Tactic.SplitIfs

/-!
# `Arena`

`raster/util/Arena.h` and `Arena.cpp`: memory is handed out piece by piece from blocks of `malloc`, and given back all at once.
Lengths and addresses are those of a machine of 64 bits.
-/

namespace Raster

namespace Arena

/-- The addresses from `start` on. -/
structure Region where
  start : Nat
  length : Nat
  deriving DecidableEq, Repr

namespace Region

def stop (r : Region) : Nat := r.start + r.length

def Within (r s : Region) : Prop := s.start ≤ r.start ∧ r.stop ≤ s.stop

/-- No address is in both; an empty region has none. -/
def Apart (r s : Region) : Prop := ∀ a, ¬(r.start ≤ a ∧ a < r.stop ∧ s.start ≤ a ∧ a < s.stop)

theorem Apart.symm {r s : Region} (h : r.Apart s) : s.Apart r := fun a ha => h a ⟨ha.2.2.1, ha.2.2.2, ha.1, ha.2.1⟩

theorem Apart.within {r r' s s' : Region} (h : r.Apart s) (hr : r'.Within r) (hs : s'.Within s) : r'.Apart s' :=
  fun a ha => h a ⟨Nat.le_trans hr.1 ha.1, Nat.lt_of_lt_of_le ha.2.1 hr.2, Nat.le_trans hs.1 ha.2.2.1,
    Nat.lt_of_lt_of_le ha.2.2.2 hs.2⟩

theorem Apart.of_empty {r : Region} (h : r.length = 0) (s : Region) : r.Apart s := by
  rintro a ⟨hle, hlt, -⟩
  rw [stop, h] at hlt
  exact absurd hle (Nat.not_le.2 hlt)

theorem Within.trans {r s t : Region} (h : r.Within s) (h' : s.Within t) : r.Within t :=
  ⟨Nat.le_trans h'.1 h.1, Nat.le_trans h.2 h'.2⟩

end Region

/-- `sizeof(Block)`: one pointer, aligned to 16 bytes. -/
def blockOverhead : Nat := 16

/-- A block, by where `malloc` has put it and the size behind its head. -/
structure Block where
  mem : Nat
  size : Nat
  deriving DecidableEq, Repr

namespace Block

def start (b : Block) : Nat := b.mem + blockOverhead

/-- What `malloc` is asked for. -/
def asked (size : Nat) : Nat := (blockOverhead + size) % 2 ^ 64

/-- What `malloc` has given. -/
def given (b : Block) : Region := ⟨b.mem, asked b.size⟩

/-- What is behind the head. -/
def room (b : Block) : Region := ⟨b.start, b.size⟩

end Block

end Arena

structure Arena where
  blocks : List Arena.Block := []
  ptr : Nat := 0
  endPtr : Nat := 0
  totalAllocatedSize : Nat := 0
  bytesUsed : Nat := 0
  minBlockSize : Nat

namespace Arena

/-- `(size + 15) & ~15`. -/
def roundUp (size : Nat) : Nat := (size + 15) % 2 ^ 64 / 16 * 16

/-- The size of the block that is allocated for a size that is rounded up. -/
def blockSize (size : Nat) (a : Arena) : Nat := if a.minBlockSize < size then size else a.minBlockSize

/-- `allocateSlow`, from the answer of `malloc`; `none` is thrown on, as `bad_alloc`. -/
def allocateSlow (size : Nat) (answer : Option Nat) (a : Arena) : Option Nat × Arena :=
  match answer with
  | none => (none, a)
  | some mem =>
    let b : Block := ⟨mem, a.blockSize size⟩
    let a :=
      if a.minBlockSize < size then { a with blocks := a.blocks ++ [b] }
      else { a with blocks := b :: a.blocks, ptr := b.start + size, endPtr := b.start + b.size }
    (some b.start, { a with totalAllocatedSize := (a.totalAllocatedSize + (b.size + blockOverhead)) % 2 ^ 64 })

def allocate (size : Nat) (answer : Option Nat) (a : Arena) : Option Nat × Arena :=
  let size := roundUp size
  let a := { a with bytesUsed := (a.bytesUsed + size) % 2 ^ 64 }
  if size ≤ a.endPtr - a.ptr then (some a.ptr, { a with ptr := a.ptr + size }) else a.allocateSlow size answer

/-- What `malloc` may answer: memory that no other block has, aligned to 16 bytes. -/
def Fresh (a : Arena) (size mem : Nat) : Prop :=
  mem % 16 = 0 ∧ ∀ b ∈ a.blocks, b.given.Apart ⟨mem, Block.asked size⟩

/-- The sizes that may be asked for: neither rounding up nor adding the head of a block is beyond `size_t`. -/
def maxSize : Nat := 2 ^ 64 - 32

/-- A run, and what it has handed out. -/
inductive Run (minBlockSize : Nat) : Arena → List Region → Prop
  | start : Run minBlockSize { minBlockSize } []
  | allocate {a : Arena} {log : List Region} {size : Nat} {answer : Option Nat} (h : Run minBlockSize a log)
      (hsize : size ≤ maxSize) (hanswer : ∀ mem, answer = some mem → a.Fresh (a.blockSize (roundUp size)) mem) :
      Run minBlockSize (a.allocate size answer).2 ((a.allocate size answer).1.toList.map (⟨·, size⟩) ++ log)

theorem roundUp_le {size : Nat} (h : size ≤ maxSize) : size ≤ roundUp size ∧ roundUp size ≤ maxSize ∧ roundUp size % 16 = 0 := by
  unfold maxSize roundUp at *
  omega

/-- The part of the newest block that is not handed out. -/
def free (a : Arena) : Region := ⟨a.ptr, a.endPtr - a.ptr⟩

structure Inv (a : Arena) (log : List Region) : Prop where
  minBlockSize : a.minBlockSize ≤ maxSize
  blocks : ∀ b ∈ a.blocks, b.mem % 16 = 0 ∧ b.size ≤ maxSize
  apart : a.blocks.Pairwise fun b c => b.given.Apart c.given
  ptr : a.ptr ≤ a.endPtr ∧ a.ptr % 16 = 0
  free : 0 < a.free.length → ∃ b ∈ a.blocks, a.free.Within b.room
  logs : ∀ r ∈ log, r.start % 16 = 0 ∧ (0 < r.length → ∃ b ∈ a.blocks, r.Within b.room)
  logFree : ∀ r ∈ log, r.Apart a.free
  logApart : log.Pairwise Region.Apart

theorem room_within {b : Block} (h : b.size ≤ maxSize) : b.room.Within b.given := by
  simp only [Region.Within, Region.stop, Block.room, Block.given, Block.start, Block.asked, blockOverhead]
  unfold maxSize at h
  omega

variable {a : Arena} {log : List Region}

theorem blockSize_le (h : Inv a log) {size : Nat} (hsize : size ≤ maxSize) :
    size ≤ a.blockSize size ∧ a.blockSize size ≤ maxSize := by
  have hmin := h.minBlockSize
  unfold blockSize
  split_ifs with hlt
  · exact ⟨Nat.le_refl _, hsize⟩
  · exact ⟨Nat.not_lt.1 hlt, hmin⟩

theorem Fresh.apart (h : Inv a log) {size mem : Nat} (hfresh : a.Fresh size mem) (hsize : size ≤ maxSize)
    {r s : Region} (hr : 0 < r.length → ∃ b ∈ a.blocks, r.Within b.room) (hs : s.Within (Block.room ⟨mem, size⟩)) : r.Apart s := by
  obtain hempty | hpos := Nat.eq_zero_or_pos r.length
  · exact .of_empty hempty s
  · obtain ⟨b, hb, hwithin⟩ := hr hpos
    have hold := hwithin.trans (room_within (h.blocks b hb).2)
    exact (hfresh.2 b hb).within hold (hs.trans (room_within hsize))

theorem Inv.fast (h : Inv a log) {size rounded : Nat} (hle : size ≤ rounded) (hmod : rounded % 16 = 0)
    (hroom : rounded ≤ a.endPtr - a.ptr) : Inv { a with ptr := a.ptr + rounded } (⟨a.ptr, size⟩ :: log) := by
  have hptr := h.ptr
  have hpiece : Region.Within ⟨a.ptr, size⟩ a.free := by
    simp only [Region.Within, Region.stop, Arena.free]
    omega
  have hrest : Region.Within (Arena.free { a with ptr := a.ptr + rounded }) a.free := by
    simp only [Region.Within, Region.stop, Arena.free]
    omega
  have hsplit : Region.Apart ⟨a.ptr, size⟩ (Arena.free { a with ptr := a.ptr + rounded }) := by
    intro x
    simp only [Region.stop, Arena.free]
    omega
  have hself (r : Region) : r.Within r := ⟨Nat.le_refl _, Nat.le_refl _⟩
  have hinside {r : Region} (hr : r.Within a.free) (hpos : 0 < r.length) : ∃ b ∈ a.blocks, r.Within b.room := by
    have hfree : 0 < a.free.length := by
      obtain ⟨hstart, hstop⟩ := hr
      simp only [Region.stop] at hstop
      omega
    obtain ⟨b, hb, hwithin⟩ := h.free hfree
    exact ⟨b, hb, hr.trans hwithin⟩
  refine ⟨h.minBlockSize, h.blocks, h.apart, ?_, hinside hrest, ?_, ?_, ?_⟩
  · dsimp only
    omega
  · exact List.forall_mem_cons.2 ⟨⟨hptr.2, hinside hpiece⟩, h.logs⟩
  · exact List.forall_mem_cons.2 ⟨hsplit, fun r hr => (h.logFree r hr).within (hself r) hrest⟩
  · exact List.pairwise_cons.2 ⟨fun r hr => ((h.logFree r hr).within (hself r) hpiece).symm, h.logApart⟩

theorem Inv.slow (h : Inv a log) {size rounded mem : Nat} (hle : size ≤ rounded) (hmod : rounded % 16 = 0)
    (hmax : rounded ≤ maxSize) (hfresh : a.Fresh (a.blockSize rounded) mem) :
    Inv (a.allocateSlow rounded (some mem)).2 (⟨mem + blockOverhead, size⟩ :: log) := by
  obtain ⟨hfit, hsize⟩ := blockSize_le h hmax
  have hstart : (mem + blockOverhead) % 16 = 0 := by
    have hmem := hfresh.1
    unfold blockOverhead
    omega
  have hpiece : Region.Within ⟨mem + blockOverhead, size⟩ (Block.room ⟨mem, a.blockSize rounded⟩) := by
    simp only [Region.Within, Region.stop, Block.room, Block.start]
    omega
  have hnew {r s : Region} (hr : 0 < r.length → ∃ b ∈ a.blocks, r.Within b.room)
      (hs : s.Within (Block.room ⟨mem, a.blockSize rounded⟩)) : r.Apart s := hfresh.apart h hsize hr hs
  have hold {r : Region} (hr : r ∈ log) : r.Apart ⟨mem + blockOverhead, size⟩ := hnew (h.logs r hr).2 hpiece
  have hlogApart : (⟨mem + blockOverhead, size⟩ :: log).Pairwise Region.Apart :=
    List.pairwise_cons.2 ⟨fun r hr => (hold hr).symm, h.logApart⟩
  have hgiven : ∀ b ∈ a.blocks, b.given.Apart (Block.given ⟨mem, a.blockSize rounded⟩) := hfresh.2
  have hlogs {bs : List Block} (hsub : ∀ b ∈ a.blocks, b ∈ bs) (hmem : (⟨mem, a.blockSize rounded⟩ : Block) ∈ bs) :
      ∀ r ∈ (⟨mem + blockOverhead, size⟩ :: log : List Region), r.start % 16 = 0 ∧ (0 < r.length → ∃ b ∈ bs, r.Within b.room) := by
    refine List.forall_mem_cons.2 ⟨⟨hstart, fun _ => ⟨_, hmem, hpiece⟩⟩, fun r hr => ⟨(h.logs r hr).1, fun hpos => ?_⟩⟩
    obtain ⟨b, hb, hwithin⟩ := (h.logs r hr).2 hpos
    exact ⟨b, hsub b hb, hwithin⟩
  unfold allocateSlow
  dsimp only
  split_ifs with hlarge
  · -- a block of its own, which leaves the free part as it is
    have hsub : ∀ b ∈ a.blocks, b ∈ a.blocks ++ [⟨mem, a.blockSize rounded⟩] := fun b hb => List.mem_append_left _ hb
    have hmem : (⟨mem, a.blockSize rounded⟩ : Block) ∈ a.blocks ++ [⟨mem, a.blockSize rounded⟩] := by simp
    refine ⟨h.minBlockSize, ?_, ?_, h.ptr, fun hpos => ?_, hlogs hsub hmem, ?_, hlogApart⟩
    · intro b hb
      obtain hb | hb := List.mem_append.1 hb
      · exact h.blocks b hb
      · rw [List.mem_singleton.1 hb]
        exact ⟨hfresh.1, hsize⟩
    · refine List.pairwise_append.2 ⟨h.apart, List.pairwise_singleton _ _, fun b hb c hc => ?_⟩
      rw [List.mem_singleton.1 hc]
      exact hgiven b hb
    · obtain ⟨b, hb, hwithin⟩ := h.free hpos
      exact ⟨b, hsub b hb, hwithin⟩
    · exact List.forall_mem_cons.2 ⟨(hnew h.free hpiece).symm, h.logFree⟩
  · -- the rest of the new block is free, and that of the block before is lost
    let a' : Arena := { a with
      blocks := ⟨mem, a.blockSize rounded⟩ :: a.blocks
      ptr := mem + blockOverhead + rounded
      endPtr := mem + blockOverhead + a.blockSize rounded }
    have hrest : a'.free.Within (Block.room ⟨mem, a.blockSize rounded⟩) := by
      simp only [a', Arena.free, Region.Within, Region.stop, Block.room, Block.start]
      omega
    have hsplit : Region.Apart ⟨mem + blockOverhead, size⟩ a'.free := by
      intro x
      simp only [a', Arena.free, Region.stop]
      omega
    refine ⟨h.minBlockSize, List.forall_mem_cons.2 ⟨⟨hfresh.1, hsize⟩, h.blocks⟩, ?_, ?_, fun _ => ⟨_, List.mem_cons_self, hrest⟩,
      hlogs (fun b hb => List.mem_cons_of_mem _ hb) List.mem_cons_self, ?_, hlogApart⟩
    · exact List.pairwise_cons.2 ⟨fun b hb => (hgiven b hb).symm, h.apart⟩
    · simp only [Block.start]
      omega
    · exact List.forall_mem_cons.2 ⟨hsplit, fun r hr => hnew (h.logs r hr).2 hrest⟩

theorem Inv.allocate (h : Inv a log) {size : Nat} {answer : Option Nat} (hsize : size ≤ maxSize)
    (hanswer : ∀ mem, answer = some mem → a.Fresh (a.blockSize (roundUp size)) mem) :
    Inv (a.allocate size answer).2 ((a.allocate size answer).1.toList.map (⟨·, size⟩) ++ log) := by
  obtain ⟨hle, hmax, hmod⟩ := roundUp_le hsize
  -- the number of bytes is not read
  have hused (used : Nat) : Inv { a with bytesUsed := used } log :=
    ⟨h.minBlockSize, h.blocks, h.apart, h.ptr, h.free, h.logs, h.logFree, h.logApart⟩
  unfold Arena.allocate
  dsimp only
  split_ifs with hroom
  · exact (hused ((a.bytesUsed + roundUp size) % 2 ^ 64)).fast hle hmod hroom
  · cases answer with
    | none => exact hused _
    | some mem => exact (hused ((a.bytesUsed + roundUp size) % 2 ^ 64)).slow hle hmod hmax (hanswer mem rfl)

/-- **What is handed out is apart**, within the blocks, behind their heads, and aligned to 16 bytes, after every run. -/
theorem run_apart {minBlockSize : Nat} (hmin : minBlockSize ≤ maxSize) (h : Run minBlockSize a log) :
    log.Pairwise Region.Apart ∧ (∀ r ∈ log, r.start % 16 = 0 ∧ (0 < r.length → ∃ b ∈ a.blocks, r.Within b.room)) ∧
    a.blocks.Pairwise fun b c => b.given.Apart c.given := by
  have hinv : Inv a log := by
    induction h with
    | start =>
      refine ⟨hmin, nofun, .nil, ⟨Nat.le_refl _, rfl⟩, fun hpos => absurd hpos (Nat.lt_irrefl 0), nofun, nofun, .nil⟩
    | allocate _ hsize hanswer ih => exact ih.allocate hsize hanswer
  exact ⟨hinv.logApart, hinv.logs, hinv.apart⟩

/-- After 8 bytes from a first block at 4096. -/
def eightBytes : Arena where
  blocks := [⟨4096, 64⟩]
  ptr := 4128
  endPtr := 4176
  totalAllocatedSize := 80
  bytesUsed := 16
  minBlockSize := 64

theorem run_apart_two : Region.Apart ⟨4128, 20⟩ ⟨4112, 8⟩ := by
  have hmalloc : ∀ mem, some 4096 = some mem → Fresh { minBlockSize := 64 } 64 mem := by
    rintro mem ⟨⟩
    exact ⟨rfl, nofun⟩
  have hone : Run 64 eightBytes [⟨4112, 8⟩] := @Run.allocate 64 _ _ 8 (some 4096) .start (by decide) hmalloc
  have htwo : Run 64 _ [⟨4128, 20⟩, ⟨4112, 8⟩] := @Run.allocate 64 _ _ 20 none hone (by decide) nofun
  exact (List.pairwise_cons.1 (run_apart (by decide) htwo).1).1 _ List.mem_cons_self

/-- Of the sizes beyond `maxSize` the largest are rounded up to nothing: the answer is a pointer without memory
behind it. -/
theorem allocate_overflow {size : Nat} (hlow : 2 ^ 64 - 16 < size) (hhigh : size < 2 ^ 64) (answer : Option Nat) (a : Arena) :
    (a.allocate size answer).1 = some a.ptr ∧ (a.allocate size answer).2.ptr = a.ptr := by
  have hzero : roundUp size = 0 := by
    unfold roundUp
    omega
  unfold allocate
  rw [hzero, if_pos (Nat.zero_le _)]
  exact ⟨rfl, rfl⟩

end Arena

end Raster
