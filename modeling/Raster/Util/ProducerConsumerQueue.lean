import Mathlib.Data.Nat.ModEq
import Mathlib.Logic.Function.Basic
import Raster.Lib.Machine

/-!
# `ProducerConsumerQueue`

`raster/util/ProducerConsumerQueue.h`: a ring of records between one producer and one consumer without a lock. Each of them stores
one of the two indices, with `release`, and loads the other one, with `acquire`. A load need not return the last value that was
stored, only one that is not older than what the thread has seen before: the history of an index keeps all its values, and the load
takes one of them.

The records are objects in raw memory: `write` builds one in a slot that has none, and `read` destroys it. `FlumeClient` calls
`write` only after `isFull`, and `read` only after `isEmpty`, and does not look at what they return.
-/

namespace Raster

variable {α : Type}

/-- Where the producer is. -/
inductive QueueProducer (α : Type)
  | idle
  /-- At the load of `readIndex_` in `isFull`. -/
  | checking
  /-- At the load of `readIndex_` in `write`. -/
  | loading (record : α)
  /-- At the placement `new`. -/
  | building (currentWrite nextRecord : Nat) (record : α)
  /-- At the store of `writeIndex_`. -/
  | storing (nextRecord : Nat)
  deriving DecidableEq, Repr

/-- Where the consumer is. -/
inductive QueueConsumer
  | idle
  /-- At the load of `writeIndex_` in `isEmpty` or `frontPtr`. -/
  | checking
  /-- At the load of `writeIndex_` in `read` or `popFront`. -/
  | loading
  /-- At the move from the record, and its destructor. -/
  | taking (currentRead nextRecord : Nat)
  /-- At the store of `readIndex_`. -/
  | storing (nextRecord : Nat)
  deriving DecidableEq, Repr

structure ProducerConsumerQueue (α : Type) where
  /-- `size_`. -/
  size : Nat
  records : Nat → Option α := fun _ => none
  /-- What was stored in `readIndex_` and in `writeIndex_`. -/
  readIndex : List Nat := [0]
  writeIndex : List Nat := [0]
  producer : QueueProducer α := .idle
  consumer : QueueConsumer := .idle
  /-- The places, in the histories, of what the threads have seen of each other. -/
  seenRead : Nat := 0
  seenWrite : Nat := 0
  /-- `isFull` or `isEmpty` has returned `false`, and nothing was written or read since. -/
  notFull : Bool := false
  notEmpty : Bool := false
  /-- The records that were built, and those that were read. -/
  written : List α := []
  got : List α := []
  /-- A record was built over another one or taken from where there was none, or `write` or `read` has failed
  after the check. -/
  failed : Bool := false

namespace ProducerConsumerQueue

inductive Label (α : Type)
  | isFull
  | write (record : α)
  /-- The next access of the producer; a load takes the value at `k` of the history. -/
  | producer (k : Nat)
  | isEmpty
  | read
  /-- The next access of the consumer. -/
  | consumer (k : Nat)

def nextIndex (size i : Nat) : Nat := if i + 1 = size then 0 else i + 1

/-- The thread's own index. -/
def ownWrite (s : ProducerConsumerQueue α) : Nat := s.writeIndex.getLastD 0

def ownRead (s : ProducerConsumerQueue α) : Nat := s.readIndex.getLastD 0

def producerStep (s : ProducerConsumerQueue α) (k : Nat) : Option (ProducerConsumerQueue α) :=
  match s.producer with
  | .idle => none
  | .checking =>
    if s.seenRead ≤ k then s.readIndex[k]?.map fun readIndex =>
      { s with producer := .idle, seenRead := k, notFull := nextIndex s.size s.ownWrite ≠ readIndex }
    else none
  | .loading record =>
    if s.seenRead ≤ k then s.readIndex[k]?.map fun readIndex =>
      let nextRecord := nextIndex s.size s.ownWrite
      if nextRecord ≠ readIndex then
        { s with producer := .building s.ownWrite nextRecord record, seenRead := k, notFull := false }
      else { s with producer := .idle, seenRead := k, notFull := false, failed := s.failed || s.notFull }
    else none
  | .building currentWrite nextRecord record =>
    some { s with
      records := Function.update s.records currentWrite (some record)
      producer := .storing nextRecord
      written := s.written ++ [record]
      failed := s.failed || (s.records currentWrite).isSome }
  | .storing nextRecord => some { s with writeIndex := s.writeIndex ++ [nextRecord], producer := .idle }

def consumerStep (s : ProducerConsumerQueue α) (k : Nat) : Option (ProducerConsumerQueue α) :=
  match s.consumer with
  | .idle => none
  | .checking =>
    if s.seenWrite ≤ k then s.writeIndex[k]?.map fun writeIndex =>
      { s with consumer := .idle, seenWrite := k, notEmpty := s.ownRead ≠ writeIndex }
    else none
  | .loading =>
    if s.seenWrite ≤ k then s.writeIndex[k]?.map fun writeIndex =>
      if s.ownRead = writeIndex then
        { s with consumer := .idle, seenWrite := k, notEmpty := false, failed := s.failed || s.notEmpty }
      else { s with consumer := .taking s.ownRead (nextIndex s.size s.ownRead), seenWrite := k, notEmpty := false }
    else none
  | .taking currentRead nextRecord =>
    some { s with
      records := Function.update s.records currentRead none
      consumer := .storing nextRecord
      got := s.got ++ (s.records currentRead).toList
      failed := s.failed || (s.records currentRead).isNone }
  | .storing nextRecord => some { s with readIndex := s.readIndex ++ [nextRecord], consumer := .idle }

def step (s : ProducerConsumerQueue α) (l : Label α) : Option (ProducerConsumerQueue α) :=
  if s.failed then none
  else match l with
    | .isFull => match s.producer with
      | .idle => some { s with producer := .checking }
      | _ => none
    | .write record => match s.producer with
      | .idle => some { s with producer := .loading record }
      | _ => none
    | .producer k => s.producerStep k
    | .isEmpty => if s.consumer = .idle then some { s with consumer := .checking } else none
    | .read => if s.consumer = .idle then some { s with consumer := .loading } else none
    | .consumer k => s.consumerStep k

/-! ### The ring -/

variable {s s' : ProducerConsumerQueue α} {l : Label α} {ls : List (Label α)} {size : Nat}

theorem nextIndex_mod {i : Nat} (hsize : 0 < size) : nextIndex size (i % size) = (i + 1) % size := by
  have hlt := Nat.mod_lt i hsize
  rw [nextIndex, ← Nat.mod_add_mod i size 1]
  split_ifs with hwrap
  · rw [hwrap, Nat.mod_self]
  · exact (Nat.mod_eq_of_lt (by omega)).symm

theorem mod_inj {i j : Nat} (hij : i ≤ j) (hlt : j < i + size) (heq : i % size = j % size) : i = j := by
  have hdvd : size ∣ j - i := (Nat.modEq_iff_dvd' hij).mp heq
  rcases Nat.eq_zero_or_pos (j - i) with hzero | hpos
  · omega
  · have hle := Nat.le_of_dvd hpos hdvd
    omega

theorem slots_tail {records : Nat → Option α} {written : List α} {r : Nat} (hroom : written.length < r + size + 1)
    (hslots : ∀ i, r ≤ i → i < r + size → records (i % size) = written[i]?) :
    ∀ i, r + 1 ≤ i → i < r + 1 + size → Function.update records (r % size) none (i % size) = written[i]? := by
  intro i hi hlt
  by_cases heq : i = r + size
  · rw [heq, Nat.add_mod_right, Function.update_self, List.getElem?_eq_none (by omega)]
  · rw [Function.update_of_ne, hslots i (by omega) (by omega)]
    intro hmod
    have := mod_inj (by omega) (by omega) hmod.symm
    omega

/-- The writes and the reads that were stored. -/
def writes (s : ProducerConsumerQueue α) : Nat := s.writeIndex.length - 1

def reads (s : ProducerConsumerQueue α) : Nat := s.readIndex.length - 1

/-- Where the producer is, the record that it has built is one more than it has stored. -/
def ProducerAt (s : ProducerConsumerQueue α) : QueueProducer α → Prop
  | .building currentWrite nextRecord _ =>
    s.written.length = s.writes ∧ currentWrite = s.writes % s.size ∧ nextRecord = (s.writes + 1) % s.size ∧
      s.writes + 1 < s.seenRead + s.size ∧ s.notFull = false
  | .storing nextRecord => s.written.length = s.writes + 1 ∧ nextRecord = (s.writes + 1) % s.size ∧ s.notFull = false
  | _ => s.written.length = s.writes

/-- The consumer has taken one record more than it has stored. -/
def ConsumerAt (s : ProducerConsumerQueue α) : QueueConsumer → Prop
  | .taking currentRead nextRecord =>
    s.got.length = s.reads ∧ currentRead = s.reads % s.size ∧ nextRecord = (s.reads + 1) % s.size ∧ s.reads < s.seenWrite ∧
      s.notEmpty = false
  | .storing nextRecord => s.got.length = s.reads + 1 ∧ nextRecord = (s.reads + 1) % s.size ∧ s.notEmpty = false
  | _ => s.got.length = s.reads

/-- The histories count up through the ring; the slots from the first record that was not read hold the others,
in order. -/
structure Inv (size : Nat) (s : ProducerConsumerQueue α) : Prop where
  failed : s.failed = false
  size_eq : s.size = size
  size_ge : 2 ≤ s.size
  writeIndex : s.writeIndex = (List.range (s.writes + 1)).map (· % s.size)
  readIndex : s.readIndex = (List.range (s.reads + 1)).map (· % s.size)
  producer : s.ProducerAt s.producer
  consumer : s.ConsumerAt s.consumer
  seenRead : s.seenRead ≤ s.reads
  seenWrite : s.seenWrite ≤ s.writes
  seen : s.got.length ≤ s.seenWrite
  room : s.written.length < s.seenRead + s.size
  order : s.got <+: s.written
  slots : ∀ i, s.got.length ≤ i → i < s.got.length + s.size → s.records (i % s.size) = s.written[i]?
  notFull : s.notFull = true → s.writes + 1 < s.seenRead + s.size
  notEmpty : s.notEmpty = true → s.reads < s.seenWrite

theorem inv_init (hsize : 2 ≤ size) : Inv size ({ size } : ProducerConsumerQueue α) := by
  refine ⟨rfl, rfl, hsize, rfl, rfl, rfl, rfl, Nat.le_refl 0, Nat.le_refl 0, Nat.le_refl 0, ?_, List.nil_prefix, ?_, ?_, ?_⟩
  · show 0 < 0 + size
    omega
  · intro i _ _
    rfl
  · intro h
    cases h
  · intro h
    cases h

theorem history_append {size n : Nat} {hist : List Nat} (h : hist = (List.range (n + 1)).map (· % size)) :
    hist ++ [(n + 1) % size] = (List.range (n + 1 + 1)).map (· % size) := by
  rw [h, List.range_succ (n := n + 1), List.map_append]
  rfl

theorem getElem?_history {size n k v : Nat} {hist : List Nat} (h : hist = (List.range (n + 1)).map (· % size))
    (hk : hist[k]? = some v) : k ≤ n ∧ v = k % size := by
  rw [h, List.getElem?_map, Option.map_eq_some_iff] at hk
  obtain ⟨i, hi, rfl⟩ := hk
  obtain ⟨hlt, heq⟩ := List.getElem?_eq_some_iff.mp hi
  rw [List.length_range] at hlt
  rw [List.getElem_range] at heq
  exact ⟨by omega, by rw [heq]⟩

theorem Inv.ownWrite_eq (h : s.Inv size) : s.ownWrite = s.writes % s.size := by
  rw [ownWrite, h.writeIndex, List.range_succ, List.map_append, List.getLastD_eq_getLast?, List.getLast?_append]
  rfl

theorem Inv.ownRead_eq (h : s.Inv size) : s.ownRead = s.reads % s.size := by
  rw [ownRead, h.readIndex, List.range_succ, List.map_append, List.getLastD_eq_getLast?, List.getLast?_append]
  rfl

theorem Inv.reads_le (h : s.Inv size) : s.reads ≤ s.got.length := by
  have hat := h.consumer
  cases hplace : s.consumer <;> rw [hplace] at hat <;> simp only [ConsumerAt] at hat <;> omega

theorem Inv.writes_le (h : s.Inv size) : s.writes ≤ s.written.length := by
  have hat := h.producer
  cases hplace : s.producer <;> rw [hplace] at hat <;> simp only [ProducerAt] at hat <;> omega

theorem Inv.room_iff (h : s.Inv size) {k v : Nat} (hseen : s.seenRead ≤ k) (hk : s.readIndex[k]? = some v)
    (hlen : s.written.length = s.writes) :
    k ≤ s.reads ∧ (nextIndex s.size s.ownWrite ≠ v ↔ s.writes + 1 < k + s.size) := by
  obtain ⟨hle, rfl⟩ := getElem?_history h.readIndex hk
  have hsize := h.size_ge
  have hroom := h.room
  have hreads := h.reads_le
  have hgot := h.seen
  have hseenWrite := h.seenWrite
  rw [h.ownWrite_eq, nextIndex_mod (by omega)]
  refine ⟨hle, fun hne => ?_, fun hlt heq => ?_⟩
  · by_contra hfull
    rw [show s.writes + 1 = k + s.size by omega, Nat.add_mod_right] at hne
    exact hne rfl
  · have := mod_inj (by omega) hlt heq.symm
    omega

theorem Inv.some_iff (h : s.Inv size) {k v : Nat} (hseen : s.seenWrite ≤ k) (hk : s.writeIndex[k]? = some v)
    (hlen : s.got.length = s.reads) : k ≤ s.writes ∧ (s.ownRead ≠ v ↔ s.reads < k) := by
  obtain ⟨hle, rfl⟩ := getElem?_history h.writeIndex hk
  have hroom := h.room
  have hgot := h.seen
  have hseenRead := h.seenRead
  have hwrites := h.writes_le
  rw [h.ownRead_eq]
  refine ⟨hle, fun hne => ?_, fun hlt heq => ?_⟩
  · by_contra hempty
    exact hne (by rw [show s.reads = k by omega])
  · have := mod_inj (by omega) (by omega) heq
    omega

theorem length_history {size n : Nat} {hist : List Nat} (h : hist = (List.range (n + 1)).map (· % size)) : hist.length = n + 1 := by
  rw [h, List.length_map, List.length_range]

theorem Inv.producerStep {k : Nat} (h : s.Inv size) (hs : s.producerStep k = some s') : s'.Inv size := by
  have hat := h.producer
  have hreads := h.reads_le
  have hseen := h.seen
  have hroom := h.room
  have hseenWrite := h.seenWrite
  unfold ProducerConsumerQueue.producerStep at hs
  cases hplace : s.producer with
  | idle => simp only [hplace, reduceCtorEq] at hs
  | checking =>
    simp only [hplace] at hs hat
    split_ifs at hs with hk
    obtain ⟨v, hv, rfl⟩ := Option.map_eq_some_iff.mp hs
    obtain ⟨hle, hiff⟩ := h.room_iff hk hv hat
    refine { h with producer := hat, seenRead := hle, room := ?_, notFull := fun hnot => ?_ }
    · show s.written.length < k + s.size
      omega
    · exact hiff.mp (of_decide_eq_true hnot)
  | loading record =>
    simp only [hplace] at hs hat
    split_ifs at hs with hk
    obtain ⟨v, hv, rfl⟩ := Option.map_eq_some_iff.mp hs
    obtain ⟨hle, hiff⟩ := h.room_iff hk hv hat
    have hroom' : s.written.length < k + s.size := by omega
    split_ifs with hfree
    · refine { h with producer := ⟨hat, h.ownWrite_eq, ?_, hiff.mp hfree, rfl⟩, seenRead := hle, room := hroom', notFull := by simp }
      show nextIndex s.size s.ownWrite = (s.writes + 1) % s.size
      rw [h.ownWrite_eq, nextIndex_mod (by have := h.size_ge; omega)]
    · refine { h with failed := ?_, producer := hat, seenRead := hle, room := hroom', notFull := by simp }
      -- an earlier look at an older value has found room
      have hnot : s.notFull = false := by
        by_contra hne
        have hlt := h.notFull (by simpa using hne)
        exact hfree (hiff.mpr (by omega))
      show (s.failed || s.notFull) = false
      rw [h.failed, hnot]
      rfl
  | building currentWrite nextRecord record =>
    simp only [hplace] at hs hat
    cases hs
    obtain ⟨hlen, rfl, rfl, hlt, hnot⟩ := hat
    have hseenRead := h.seenRead
    refine { h with failed := ?_, producer := ⟨?_, rfl, hnot⟩, room := ?_, order := ?_, slots := ?_ }
    · have hslot := h.slots s.writes (by omega) (by omega)
      show (s.failed || (s.records (s.writes % s.size)).isSome) = false
      rw [hslot, List.getElem?_eq_none (by omega), h.failed]
      rfl
    · show (s.written ++ [record]).length = s.writes + 1
      rw [List.length_append, hlen]
      rfl
    · show (s.written ++ [record]).length < s.seenRead + s.size
      rw [List.length_append, List.length_singleton]
      omega
    · exact h.order.trans (List.prefix_append ..)
    · intro i hi hlt'
      show Function.update s.records (s.writes % s.size) (some record) (i % s.size) = (s.written ++ [record])[i]?
      have hi' : s.got.length ≤ i := hi
      replace hlt' : i < s.got.length + s.size := hlt'
      by_cases heq : i = s.writes
      · rw [heq, Function.update_self, ← hlen, List.getElem?_concat_length]
      · rw [Function.update_of_ne, h.slots i hi' hlt']
        · rcases Nat.lt_or_gt_of_ne heq with hless | hmore
          · rw [List.getElem?_append_left (by omega)]
          · rw [List.getElem?_eq_none (by omega), List.getElem?_eq_none (by rw [List.length_append, List.length_singleton]; omega)]
        · intro hmod
          rcases Nat.lt_or_gt_of_ne heq with hless | hmore
          · exact heq (mod_inj (by omega) (by omega) hmod)
          · exact heq (mod_inj (by omega) (by omega) hmod.symm).symm
  | storing nextRecord =>
    simp only [hplace] at hs hat
    cases hs
    obtain ⟨hlen, rfl, hnot⟩ := hat
    have hwrites : (s.writeIndex ++ [(s.writes + 1) % s.size]).length - 1 = s.writes + 1 := by
      rw [List.length_append, length_history h.writeIndex]
      rfl
    refine { h with writeIndex := ?_, producer := ?_, seenWrite := ?_, notFull := fun hfull => ?_ }
    · show s.writeIndex ++ [_] = (List.range ((s.writeIndex ++ [(s.writes + 1) % s.size]).length - 1 + 1)).map (· % s.size)
      rw [hwrites]
      exact history_append h.writeIndex
    · exact hlen.trans hwrites.symm
    · show s.seenWrite ≤ (s.writeIndex ++ [(s.writes + 1) % s.size]).length - 1
      omega
    · exact absurd (hnot.symm.trans hfull) Bool.false_ne_true

theorem Inv.consumerStep {k : Nat} (h : s.Inv size) (hs : s.consumerStep k = some s') : s'.Inv size := by
  have hat := h.consumer
  have hwritten := h.writes_le
  have hseen := h.seen
  have hroom := h.room
  have hseenRead := h.seenRead
  unfold ProducerConsumerQueue.consumerStep at hs
  cases hplace : s.consumer with
  | idle => simp only [hplace, reduceCtorEq] at hs
  | checking =>
    simp only [hplace] at hs hat
    split_ifs at hs with hk
    obtain ⟨v, hv, rfl⟩ := Option.map_eq_some_iff.mp hs
    obtain ⟨hle, hiff⟩ := h.some_iff hk hv hat
    exact { h with
      consumer := hat
      seenWrite := hle
      seen := hseen.trans hk
      notEmpty := fun hnot => hiff.mp (of_decide_eq_true hnot) }
  | loading =>
    simp only [hplace] at hs hat
    split_ifs at hs with hk
    obtain ⟨v, hv, rfl⟩ := Option.map_eq_some_iff.mp hs
    obtain ⟨hle, hiff⟩ := h.some_iff hk hv hat
    split_ifs with hempty
    · refine { h with failed := ?_, consumer := hat, seenWrite := hle, seen := hseen.trans hk, notEmpty := by simp }
      have hnot : s.notEmpty = false := by
        by_contra hne
        have hlt := h.notEmpty (by simpa using hne)
        exact hiff.mpr (by omega) hempty
      show (s.failed || s.notEmpty) = false
      rw [h.failed, hnot]
      rfl
    · refine { h with consumer := ⟨hat, h.ownRead_eq, ?_, hiff.mp hempty, rfl⟩, seenWrite := hle, seen := hseen.trans hk, notEmpty := by simp }
      show nextIndex s.size s.ownRead = (s.reads + 1) % s.size
      rw [h.ownRead_eq, nextIndex_mod (by have := h.size_ge; omega)]
  | taking currentRead nextRecord =>
    simp only [hplace] at hs hat
    cases hs
    obtain ⟨hlen, rfl, rfl, hlt, hnot⟩ := hat
    have hseenWrite := h.seenWrite
    have hslot := h.slots s.reads (by omega) (by omega)
    obtain ⟨rest, hrest⟩ := h.order
    cases rest with
    | nil =>
      rw [List.append_nil] at hrest
      have := congrArg List.length hrest
      omega
    | cons record rest =>
      rw [← hrest, ← hlen, List.getElem?_append_right (Nat.le_refl _), Nat.sub_self] at hslot
      change s.records _ = some record at hslot
      rw [hlen] at hslot
      refine { h with failed := ?_, consumer := ⟨?_, rfl, hnot⟩, seen := ?_, order := ⟨rest, ?_⟩, slots := ?_ }
      · show (s.failed || (s.records (s.reads % s.size)).isNone) = false
        rw [hslot, h.failed]
        rfl
      · show (s.got ++ (s.records (s.reads % s.size)).toList).length = s.reads + 1
        rw [hslot, List.length_append, hlen]
        rfl
      · show (s.got ++ (s.records (s.reads % s.size)).toList).length ≤ s.seenWrite
        rw [hslot, List.length_append, hlen]
        exact hlt
      · show s.got ++ (s.records (s.reads % s.size)).toList ++ rest = s.written
        rw [hslot, ← hrest, List.append_assoc]
        rfl
      · show ∀ i, (s.got ++ (s.records (s.reads % s.size)).toList).length ≤ i →
          i < (s.got ++ (s.records (s.reads % s.size)).toList).length + s.size →
          Function.update s.records (s.reads % s.size) none (i % s.size) = s.written[i]?
        rw [hslot, List.length_append, hlen]
        exact slots_tail (by omega) (hlen ▸ h.slots)
  | storing nextRecord =>
    simp only [hplace] at hs hat
    cases hs
    obtain ⟨hlen, rfl, hnot⟩ := hat
    have hreads : (s.readIndex ++ [(s.reads + 1) % s.size]).length - 1 = s.reads + 1 := by
      rw [List.length_append, length_history h.readIndex]
      rfl
    refine { h with readIndex := ?_, consumer := ?_, seenRead := ?_, notEmpty := fun hempty => ?_ }
    · show s.readIndex ++ [_] = (List.range ((s.readIndex ++ [(s.reads + 1) % s.size]).length - 1 + 1)).map (· % s.size)
      rw [hreads]
      exact history_append h.readIndex
    · exact hlen.trans hreads.symm
    · show s.seenRead ≤ (s.readIndex ++ [(s.reads + 1) % s.size]).length - 1
      omega
    · exact absurd (hnot.symm.trans hempty) Bool.false_ne_true

/-- **No step goes wrong**, whatever values the loads return that are not older than what the thread has seen. -/
theorem Inv.step (h : s.Inv size) (hs : s.step l = some s') : s'.Inv size := by
  unfold ProducerConsumerQueue.step at hs
  rw [if_neg (by rw [h.failed]; exact Bool.false_ne_true)] at hs
  cases l with
  | isFull =>
    cases hplace : s.producer with
    | idle =>
      simp only [hplace] at hs
      cases hs
      have hat := h.producer
      rw [hplace] at hat
      exact { h with producer := hat }
    | _ => simp only [hplace, reduceCtorEq] at hs
  | write record =>
    cases hplace : s.producer with
    | idle =>
      simp only [hplace] at hs
      cases hs
      have hat := h.producer
      rw [hplace] at hat
      exact { h with producer := hat }
    | _ => simp only [hplace, reduceCtorEq] at hs
  | producer k => exact h.producerStep hs
  | isEmpty =>
    simp only at hs
    split_ifs at hs with hidle
    cases hs
    have hat := h.consumer
    rw [hidle] at hat
    exact { h with consumer := hat }
  | read =>
    simp only at hs
    split_ifs at hs with hidle
    cases hs
    have hat := h.consumer
    rw [hidle] at hat
    exact { h with consumer := hat }
  | consumer k => exact h.consumerStep hs

/-! ### Runs -/

theorem run_inv (hsize : 2 ≤ size) (hrun : Lib.run step ({ size } : ProducerConsumerQueue α) ls = some s) : s.Inv size :=
  Lib.run_invariant (fun _ _ _ h hs => Inv.step h hs) (inv_init hsize) hrun


/-- **In every run, what was read is what was written, in order**, and the rest is in the ring, at most
`size_ - 1` records: a record is never built over another one, and `write` and `read` do what `isFull` and
`isEmpty` have said. -/
theorem run_fifo (hsize : 2 ≤ size) (hrun : Lib.run step ({ size } : ProducerConsumerQueue α) ls = some s) :
    s.failed = false ∧ s.got <+: s.written ∧ s.written.length < s.got.length + size ∧
    ∀ i, s.got.length ≤ i → i < s.got.length + size → s.records (i % size) = s.written[i]? := by
  have h := run_inv hsize hrun
  have hseenRead := h.seenRead
  have hreads := h.reads_le
  have hroom := h.room
  obtain rfl := h.size_eq
  exact ⟨h.failed, h.order, by omega, h.slots⟩

/-! ### The destructor -/

/-- The loop of the destructor, with the records that it destroys; `fuel` bounds its turns. -/
def destroyFrom (size endIndex : Nat) : (fuel : Nat) → (records : Nat → Option α) → (readIndex : Nat) →
    Option (List (Option α) × (Nat → Option α))
  | 0, _, _ => none
  | fuel + 1, records, readIndex =>
    if readIndex = endIndex then some ([], records)
    else (destroyFrom size endIndex fuel (Function.update records readIndex none) (nextIndex size readIndex)).map
      fun (destroyed, rest) => (records readIndex :: destroyed, rest)

/-- `~ProducerConsumerQueue`. -/
def destroy (s : ProducerConsumerQueue α) : Option (List (Option α) × (Nat → Option α)) :=
  destroyFrom s.size s.ownWrite (s.size + 1) s.records s.ownRead

theorem exists_place {i : Nat} (r : Nat) (hi : i < size) : ∃ j, r ≤ j ∧ j < r + size ∧ j % size = i := by
  have hr := Nat.div_add_mod r size
  have hlt := Nat.mod_lt r (Nat.zero_lt_of_lt hi)
  by_cases hle : r % size ≤ i
  · refine ⟨size * (r / size) + i, by omega, by omega, ?_⟩
    rw [Nat.mul_add_mod, Nat.mod_eq_of_lt hi]
  · refine ⟨size * (r / size) + (size + i), by omega, by omega, ?_⟩
    rw [Nat.mul_add_mod, Nat.add_mod_left, Nat.mod_eq_of_lt hi]

theorem destroyFrom_spec {records : Nat → Option α} {written : List α} {r : Nat} (fuel : Nat) (hsize : 0 < size)
    (hfuel : written.length < r + fuel) (hr : r ≤ written.length) (hroom : written.length < r + size)
    (hslots : ∀ i, r ≤ i → i < r + size → records (i % size) = written[i]?) :
    ∃ rest, destroyFrom size (written.length % size) fuel records (r % size) = some ((written.drop r).map some, rest) ∧
      ∀ i, i < size → rest i = none := by
  induction fuel generalizing records r with
  | zero => omega
  | succ fuel ih =>
    rw [destroyFrom]
    split_ifs with hend
    · have hall : r = written.length := mod_inj hr hroom hend
      refine ⟨records, ?_, fun i hi => ?_⟩
      · rw [hall, List.drop_length]
        rfl
      · obtain ⟨j, hj, hjlt, rfl⟩ := exists_place r hi
        rw [hslots j hj hjlt, List.getElem?_eq_none (by omega)]
    · have hless : r < written.length := by
        refine Nat.lt_of_le_of_ne hr fun heq => hend ?_
        rw [heq]
      obtain ⟨rest, hrest, hnone⟩ := ih (by omega) hless (by omega) (slots_tail (by omega) hslots)
      refine ⟨rest, ?_, hnone⟩
      rw [nextIndex_mod hsize, hrest, hslots r (Nat.le_refl r) (by omega), List.drop_eq_getElem_cons hless,
        List.getElem?_eq_getElem hless]
      rfl

/-- **When both threads are done, the destructor ends**; it destroys the records that were not read, each once,
and nothing is left. -/
theorem run_destroy (hsize : 2 ≤ size) (hrun : Lib.run step ({ size } : ProducerConsumerQueue α) ls = some s)
    (hproducer : s.producer = .idle) (hconsumer : s.consumer = .idle) :
    ∃ rest, s.destroy = some ((s.written.drop s.got.length).map some, rest) ∧ ∀ i, i < size → rest i = none := by
  have h := run_inv hsize hrun
  have hwritten := h.producer
  have hgot := h.consumer
  have hroom := h.room
  have hseenRead := h.seenRead
  rw [hproducer] at hwritten
  rw [hconsumer] at hgot
  obtain rfl := h.size_eq
  change s.written.length = s.writes at hwritten
  change s.got.length = s.reads at hgot
  have hle := h.order.length_le
  rw [destroy, h.ownWrite_eq, h.ownRead_eq, ← hwritten, ← hgot]
  exact destroyFrom_spec _ (by omega) (by omega) hle (by omega) h.slots

/-! ### The size -/

/-- `sizeGuess`, with what it loads: the difference of two `unsigned int`s, as an `int`, which the sum with
`size_` makes unsigned again. -/
def sizeGuess (size writeIndex readIndex : Nat) : Nat :=
  let ret := BitVec.ofNat 32 writeIndex - BitVec.ofNat 32 readIndex
  let ret := if ret.toInt < 0 then ret + BitVec.ofNat 32 size else ret
  (ret.signExtend 64).toNat

theorem toNat_signExtend {x : BitVec 32} (hx : x.toNat < 2 ^ 31) : (x.signExtend 64).toNat = x.toNat := by
  rw [BitVec.signExtend_eq_setWidth_of_msb_false, BitVec.toNat_setWidth, Nat.mod_eq_of_lt (by omega)]
  rw [BitVec.msb_eq_decide]
  exact decide_eq_false (by omega)

theorem sizeGuess_eq {a b : Nat} (hsize : size < 2 ^ 31) (hab : a ≤ b) (hlt : b < a + size) :
    sizeGuess size (b % size) (a % size) = b - a := by
  have ha := Nat.mod_lt a (show 0 < size by omega)
  have hb := Nat.mod_lt b (show 0 < size by omega)
  have hmod : b % size = a % size + (b - a) ∨ b % size + size = a % size + (b - a) := by
    have heq : b % size = (a % size + (b - a)) % size := by rw [Nat.mod_add_mod, Nat.add_sub_cancel' hab]
    rcases Nat.lt_or_ge (a % size + (b - a)) size with hless | hmore
    · rw [Nat.mod_eq_of_lt hless] at heq
      exact Or.inl heq
    · rw [Nat.mod_eq_sub_mod hmore, Nat.mod_eq_of_lt (show a % size + (b - a) - size < size by omega)] at heq
      exact Or.inr (by omega)
  have hdiff : (BitVec.ofNat 32 (b % size) - BitVec.ofNat 32 (a % size)).toNat = (2 ^ 32 - a % size + b % size) % 2 ^ 32 := by
    rw [BitVec.toNat_sub, BitVec.toNat_ofNat, BitVec.toNat_ofNat, Nat.mod_eq_of_lt (a := a % size) (by omega),
      Nat.mod_eq_of_lt (a := b % size) (by omega)]
  rw [sizeGuess]
  simp only [BitVec.toInt_neg_iff, hdiff]
  split_ifs with hneg
  · have hsum : (BitVec.ofNat 32 (b % size) - BitVec.ofNat 32 (a % size) + BitVec.ofNat 32 size).toNat = b - a := by
      rw [BitVec.toNat_add, hdiff, BitVec.toNat_ofNat]
      omega
    rw [toNat_signExtend (by omega), hsum]
  · rw [toNat_signExtend (by omega), hdiff]
    omega

/-- **`sizeGuess` errs on one side only**: what the consumer loads gives it no more than the number of records,
and what the producer loads no less. -/
theorem run_sizeGuess (hsize : 2 ≤ size) (hlt : size < 2 ^ 31)
    (hrun : Lib.run step ({ size } : ProducerConsumerQueue α) ls = some s) :
    (∀ k v, s.seenWrite ≤ k → s.writeIndex[k]? = some v → s.consumer = .idle →
      sizeGuess size v s.ownRead ≤ s.written.length - s.got.length) ∧
    (∀ k v, s.seenRead ≤ k → s.readIndex[k]? = some v → s.producer = .idle →
      s.written.length - s.got.length ≤ sizeGuess size s.ownWrite v ∧ sizeGuess size s.ownWrite v < size) := by
  have h := run_inv hsize hrun
  have hroom := h.room
  have hseen := h.seen
  have hseenRead := h.seenRead
  have hseenWrite := h.seenWrite
  have hreads := h.reads_le
  have hwrites := h.writes_le
  obtain rfl := h.size_eq
  refine ⟨fun k v hk hv hidle => ?_, fun k v hk hv hidle => ?_⟩
  · obtain ⟨hle, rfl⟩ := getElem?_history h.writeIndex hv
    have hgot := h.consumer
    rw [hidle] at hgot
    change s.got.length = s.reads at hgot
    rw [h.ownRead_eq, sizeGuess_eq hlt (by omega) (by omega)]
    omega
  · obtain ⟨hle, rfl⟩ := getElem?_history h.readIndex hv
    have hwritten := h.producer
    rw [hidle] at hwritten
    change s.written.length = s.writes at hwritten
    rw [h.ownWrite_eq, sizeGuess_eq hlt (by omega) (by omega)]
    omega

/-! ### Two records in a ring of two slots -/

/-- The producer finds the ring full until it sees that the first record was read. -/
def twoLabels : List (Label Nat) :=
  [.write 7, .producer 0, .producer 0, .producer 0, .read, .consumer 1, .consumer 0, .consumer 0, .isFull, .producer 0, .isFull,
    .producer 1, .write 8, .producer 1, .producer 0, .producer 0]

theorem run_fifo_two : ∃ s, Lib.run step ({ size := 2 } : ProducerConsumerQueue Nat) twoLabels = some s ∧ s.got = [7] ∧
    s.written = [7, 8] ∧ s.failed = false := by
  obtain ⟨s, hs⟩ : ∃ s, Lib.run step ({ size := 2 } : ProducerConsumerQueue Nat) twoLabels = some s := ⟨_, rfl⟩
  have hghost : s.got = [7] ∧ s.written = [7, 8] := by
    cases hs
    decide
  exact ⟨s, hs, hghost.1, hghost.2, (run_fifo (by decide) hs).1⟩

theorem run_destroy_two : ∃ s rest, Lib.run step ({ size := 2 } : ProducerConsumerQueue Nat) twoLabels = some s ∧
    s.destroy = some ([some 8], rest) := by
  obtain ⟨s, hs⟩ : ∃ s, Lib.run step ({ size := 2 } : ProducerConsumerQueue Nat) twoLabels = some s := ⟨_, rfl⟩
  have hghost : s.got = [7] ∧ s.written = [7, 8] ∧ s.producer = .idle ∧ s.consumer = .idle := by
    cases hs
    decide
  obtain ⟨hgot, hwritten, hproducer, hconsumer⟩ := hghost
  obtain ⟨rest, hrest, -⟩ := run_destroy (by decide) hs hproducer hconsumer
  rw [hgot, hwritten] at hrest
  exact ⟨s, rest, hs, hrest⟩

/-- The producer has not seen that the record was read. -/
theorem run_sizeGuess_two : ∃ s, Lib.run step ({ size := 2 } : ProducerConsumerQueue Nat) (twoLabels.take 8) = some s ∧
    s.written.length - s.got.length = 0 ∧ 0 ≤ sizeGuess 2 s.ownWrite 0 ∧ sizeGuess 2 s.ownWrite 0 < 2 := by
  obtain ⟨s, hs⟩ : ∃ s, Lib.run step ({ size := 2 } : ProducerConsumerQueue Nat) (twoLabels.take 8) = some s := ⟨_, rfl⟩
  have hghost : s.written.length - s.got.length = 0 ∧ s.seenRead = 0 ∧ s.readIndex[0]? = some 0 ∧ s.producer = .idle := by
    cases hs
    decide
  obtain ⟨hempty, hseen, hload, hidle⟩ := hghost
  obtain ⟨-, hproducer⟩ := run_sizeGuess (by decide) (by decide) hs
  obtain ⟨hle, hless⟩ := hproducer 0 0 (by omega) hload hidle
  exact ⟨s, hs, hempty, hempty ▸ hle, hless⟩

end ProducerConsumerQueue

end Raster
