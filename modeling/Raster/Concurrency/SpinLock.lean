import Mathlib.Data.BitVec
import Raster.Concurrency.ThreadPool
import Raster.Lib.Tally

/-!
# `RWSpinLock`

`raster/util/RWSpinLock.h`: the lock behind `threadsLock_` and `observersLock_`, a word of 32 bits that counts a writer as 1 and a
reader as 2. `try_lock` exchanges 0 for 1. `try_lock_shared` adds 2 at once, and subtracts it again when there was a writer, so the
word may count threads that hold nothing. `lock` and `lock_shared` try until they succeed.

The steps of the threads are their accesses to the word, in any order. The pools take and release their lock in one step each:
`SharedLock` is that lock, and what the threads acquire and release is a run of it.
-/

namespace Raster

/-! ### The lock of the pools -/

/-- A lock for one writer or any number of readers. -/
structure SharedLock where
  writer : Bool := false
  readers : Nat := 0
  deriving DecidableEq, Repr

namespace SharedLock

inductive Label
  | lock
  | lockShared
  | unlock
  | unlockShared
  deriving DecidableEq, Repr

def step (s : SharedLock) : Label → Option SharedLock
  | .lock => if s.writer ∨ s.readers ≠ 0 then none else some { s with writer := true }
  | .lockShared => if s.writer then none else some { s with readers := s.readers + 1 }
  | .unlock => if s.writer then some { s with writer := false } else none
  | .unlockShared => if s.readers = 0 then none else some { s with readers := s.readers - 1 }

end SharedLock

/-- The side of the lock that a function of the pool takes. -/
def Call.locks : Call → SharedLock.Label
  | .addObserver _ => .lockShared
  | .removeObserver _ => .lockShared
  | _ => .lock

theorem Pool.lock_eq (p : Pool) (call : Call) :
    (p.lock call).map (fun q => (⟨q.writer, q.readers⟩ : SharedLock)) = SharedLock.step ⟨p.writer, p.readers⟩ call.locks := by
  cases call <;> simp only [Pool.lock, Call.locks, SharedLock.step] <;> split_ifs <;> rfl

/-! ### The word and the threads -/

/-- What a thread has of the lock. -/
inductive LockPlace
  | idle
  /-- In `try_lock_shared`, before the second `fetch_add`. -/
  | backing
  | reading
  | writing
  deriving DecidableEq, Repr

structure RWSpinLock where
  bits : BitVec 32 := 0
  threads : Nat → LockPlace := fun _ => .idle

namespace RWSpinLock

inductive Label
  /-- `compare_exchange_strong`, in `try_lock`. -/
  | tryLock (t : Nat)
  /-- The first `fetch_add` of `try_lock_shared`. -/
  | tryLockShared (t : Nat)
  /-- The second one. -/
  | backOut (t : Nat)
  | unlock (t : Nat)
  | unlockShared (t : Nat)
  deriving DecidableEq, Repr

def reader : BitVec 32 := 2

def writer : BitVec 32 := 1

def move (s : RWSpinLock) (bits : BitVec 32) (t : Nat) (place : LockPlace) : RWSpinLock :=
  { bits, threads := Function.update s.threads t place }

/-- The steps of `n` threads, which release what they hold. -/
def step (n : Nat) (s : RWSpinLock) : Label → Option RWSpinLock
  | .tryLock t =>
    if t < n ∧ s.threads t = .idle then some (if s.bits = 0 then s.move writer t .writing else s) else none
  | .tryLockShared t =>
    if t < n ∧ s.threads t = .idle then
      some (s.move (s.bits + reader) t (if s.bits &&& writer ≠ 0 then .backing else .reading))
    else none
  | .backOut t => if t < n ∧ s.threads t = .backing then some (s.move (s.bits - reader) t .idle) else none
  | .unlock t => if t < n ∧ s.threads t = .writing then some (s.move (s.bits - writer) t .idle) else none
  | .unlockShared t => if t < n ∧ s.threads t = .reading then some (s.move (s.bits - reader) t .idle) else none

/-! ### What the word counts -/

def writes : LockPlace → Nat
  | .writing => 1
  | _ => 0

def reads : LockPlace → Nat
  | .reading => 1
  | _ => 0

def backs : LockPlace → Nat
  | .backing => 1
  | _ => 0

/-- The lock that the threads see. -/
def abs (n : Nat) (s : RWSpinLock) : SharedLock :=
  { writer := Lib.tally n s.threads writes ≠ 0, readers := Lib.tally n s.threads reads }

/-- The word counts the readers, those that back out, and the writer; a writer is alone. -/
structure Inv (n : Nat) (s : RWSpinLock) : Prop where
  idle : ∀ t, n ≤ t → s.threads t = .idle
  bits : s.bits = BitVec.ofNat 32 (2 * (Lib.tally n s.threads reads + Lib.tally n s.threads backs) + Lib.tally n s.threads writes)
  alone : Lib.tally n s.threads writes = 0 ∨ Lib.tally n s.threads writes = 1 ∧ Lib.tally n s.threads reads = 0

variable {n : Nat} {s s' : RWSpinLock} {l : Label} {ls : List Label}

theorem inv_init (n : Nat) : Inv n {} := by
  have hzero : ∀ w : LockPlace → Nat, w .idle = 0 → Lib.tally n (fun _ => .idle) w = 0 :=
    fun w hw => Lib.tally_eq_zero fun _ _ => hw
  refine ⟨fun _ _ => rfl, ?_, Or.inl (hzero writes rfl)⟩
  rw [hzero reads rfl, hzero backs rfl, hzero writes rfl]
  rfl

theorem users_le (n : Nat) (threads : Nat → LockPlace) :
    Lib.tally n threads reads + Lib.tally n threads backs + Lib.tally n threads writes ≤ n := by
  rw [← Lib.tally_add, ← Lib.tally_add]
  refine Lib.tally_le fun t _ => ?_
  cases threads t <;> decide

theorem and_writer_eq_zero (m : Nat) : BitVec.ofNat 32 m &&& writer = 0 ↔ m % 2 = 0 := by
  rw [BitVec.toNat_eq, BitVec.toNat_and, show writer.toNat = 1 from rfl, Nat.and_one_is_mod, BitVec.toNat_ofNat,
    Nat.mod_mod_of_dvd _ (by decide)]
  rfl

theorem Inv.bits_eq_zero_iff (hn : n < 2 ^ 31) (h : s.Inv n) : s.bits = 0 ↔ ∀ t, s.threads t = .idle := by
  have hle := users_le n s.threads
  rw [h.bits, BitVec.toNat_eq, BitVec.toNat_ofNat, Nat.mod_eq_of_lt (by omega)]
  constructor
  · intro hzero t
    replace hzero : 2 * (Lib.tally n s.threads reads + Lib.tally n s.threads backs) + Lib.tally n s.threads writes = 0 := hzero
    by_cases ht : t < n
    · have hreads := Lib.le_tally (f := s.threads) (w := reads) ht
      have hbacks := Lib.le_tally (f := s.threads) (w := backs) ht
      have hwrites := Lib.le_tally (f := s.threads) (w := writes) ht
      cases hplace : s.threads t with
      | idle => rfl
      | backing => rw [hplace, backs] at hbacks; omega
      | reading => rw [hplace, reads] at hreads; omega
      | writing => rw [hplace, writes] at hwrites; omega
    · exact h.idle t (by omega)
  · intro hidle
    have hzero : ∀ w : LockPlace → Nat, w .idle = 0 → Lib.tally n s.threads w = 0 :=
      fun w hw => Lib.tally_eq_zero fun t _ => by rw [hidle t, hw]
    rw [hzero reads rfl, hzero backs rfl, hzero writes rfl]
    rfl

theorem Inv.and_writer_eq_zero_iff (h : s.Inv n) : s.bits &&& writer = 0 ↔ Lib.tally n s.threads writes = 0 := by
  rw [h.bits, and_writer_eq_zero]
  have := h.alone
  omega

theorem add_reader {a b : Nat} (h : a + 2 = b) : BitVec.ofNat 32 a + reader = BitVec.ofNat 32 b :=
  h ▸ (BitVec.ofNat_add a 2).symm

theorem sub_reader {a b : Nat} (h : b + 2 = a) : BitVec.ofNat 32 a - reader = BitVec.ofNat 32 b := by
  rw [← add_reader h, BitVec.add_sub_cancel]

theorem sub_writer {a b : Nat} (h : b + 1 = a) : BitVec.ofNat 32 a - writer = BitVec.ofNat 32 b := by
  subst h
  rw [BitVec.ofNat_add b 1]
  exact BitVec.add_sub_cancel ..

theorem tally_move (s : RWSpinLock) {t : Nat} (ht : t < n) (bits : BitVec 32) (place : LockPlace) :
    Lib.tally n (s.move bits t place).threads reads + reads (s.threads t) = Lib.tally n s.threads reads + reads place ∧
    Lib.tally n (s.move bits t place).threads backs + backs (s.threads t) = Lib.tally n s.threads backs + backs place ∧
    Lib.tally n (s.move bits t place).threads writes + writes (s.threads t) = Lib.tally n s.threads writes + writes place :=
  ⟨Lib.tally_update ht place, Lib.tally_update ht place, Lib.tally_update ht place⟩

theorem idle_move {t : Nat} (h : s.Inv n) (ht : t < n) (bits : BitVec 32) (place : LockPlace) :
    ∀ u, n ≤ u → (s.move bits t place).threads u = .idle := fun u hu => by
  show Function.update s.threads t place u = .idle
  rw [Function.update_of_ne (by omega)]
  exact h.idle u hu

/-- What an access does to the lock that the threads see. -/
def acts (s : RWSpinLock) : Label → List SharedLock.Label
  | .tryLock _ => if s.bits = 0 then [.lock] else []
  | .tryLockShared _ => if s.bits &&& writer ≠ 0 then [] else [.lockShared]
  | .backOut _ => []
  | .unlock _ => [.unlock]
  | .unlockShared _ => [.unlockShared]

/-- **Each access to the word** keeps the invariant, and does to the lock what the thread acquires or releases. -/
theorem step_spec (hn : n < 2 ^ 31) (h : s.Inv n) (hs : s.step n l = some s') :
    s'.Inv n ∧ Lib.run SharedLock.step (s.abs n) (s.acts l) = some (s'.abs n) := by
  have halone := h.alone
  have hle := users_le n s.threads
  cases l with
  | tryLock t =>
    simp only [step] at hs
    split_ifs at hs with hen hzero <;> cases hs
    · obtain ⟨ht, hidle⟩ := hen
      have hnone := (h.bits_eq_zero_iff hn).mp hzero
      have hall : ∀ w : LockPlace → Nat, w .idle = 0 → Lib.tally n s.threads w = 0 :=
        fun w hw => Lib.tally_eq_zero fun t _ => by rw [hnone t, hw]
      obtain ⟨hr, hb, hw⟩ := tally_move s ht writer .writing
      rw [hidle, hall reads rfl] at hr
      rw [hidle, hall backs rfl] at hb
      rw [hidle, hall writes rfl] at hw
      simp only [reads, backs, writes, Nat.add_zero, Nat.zero_add] at hr hb hw
      refine ⟨⟨idle_move h ht _ _, ?_, Or.inr ⟨hw, hr⟩⟩, ?_⟩
      · rw [hr, hb, hw]
        rfl
      · rw [acts, if_pos hzero, abs, abs, hr, hw, hall reads rfl, hall writes rfl]
        rfl
    · rw [acts, if_neg hzero]
      exact ⟨h, rfl⟩
  | tryLockShared t =>
    simp only [step] at hs
    split_ifs at hs with hen hwriter <;> obtain ⟨ht, hidle⟩ := hen <;> cases hs
    · obtain ⟨hr, hb, hw⟩ := tally_move s ht (s.bits + reader) .backing
      rw [hidle] at hr hb hw
      simp only [reads, backs, writes, Nat.add_zero] at hr hb hw
      refine ⟨⟨idle_move h ht _ _, ?_, hr ▸ hw ▸ halone⟩, ?_⟩
      · exact (congrArg (· + reader) h.bits).trans (add_reader (by omega))
      · rw [acts, if_pos hwriter, Lib.run_nil, abs, abs, hr, hw]
    · have hnone := h.and_writer_eq_zero_iff.mp (not_not.mp hwriter)
      obtain ⟨hr, hb, hw⟩ := tally_move s ht (s.bits + reader) .reading
      rw [hidle] at hr hb hw
      simp only [reads, backs, writes, Nat.add_zero] at hr hb hw
      refine ⟨⟨idle_move h ht _ _, ?_, Or.inl (hw.trans hnone)⟩, ?_⟩
      · exact (congrArg (· + reader) h.bits).trans (add_reader (by omega))
      · rw [acts, if_neg hwriter, Lib.run_cons, abs, abs, hr, hw, hnone]
        rfl
  | backOut t =>
    simp only [step] at hs
    split_ifs at hs with hen
    obtain ⟨ht, hbacking⟩ := hen
    cases hs
    obtain ⟨hr, hb, hw⟩ := tally_move s ht (s.bits - reader) .idle
    rw [hbacking] at hr hb hw
    simp only [reads, backs, writes, Nat.add_zero] at hr hb hw
    refine ⟨⟨idle_move h ht _ _, ?_, hr ▸ hw ▸ halone⟩, ?_⟩
    · exact (congrArg (· - reader) h.bits).trans (sub_reader (by omega))
    · rw [acts, Lib.run_nil, abs, abs, hr, hw]
  | unlock t =>
    simp only [step] at hs
    split_ifs at hs with hen
    obtain ⟨ht, hwriting⟩ := hen
    cases hs
    obtain ⟨hr, hb, hw⟩ := tally_move s ht (s.bits - writer) .idle
    rw [hwriting] at hr hb hw
    simp only [reads, backs, writes, Nat.add_zero] at hr hb hw
    have hzero : Lib.tally n (s.move (s.bits - writer) t .idle).threads writes = 0 := by omega
    refine ⟨⟨idle_move h ht _ _, ?_, Or.inl hzero⟩, ?_⟩
    · exact (congrArg (· - writer) h.bits).trans (sub_writer (by omega))
    · rw [acts, Lib.run_cons, abs, abs, hr, hzero, ← hw, hzero]
      rfl
  | unlockShared t =>
    simp only [step] at hs
    split_ifs at hs with hen
    obtain ⟨ht, hreading⟩ := hen
    cases hs
    obtain ⟨hr, hb, hw⟩ := tally_move s ht (s.bits - reader) .idle
    rw [hreading] at hr hb hw
    simp only [reads, backs, writes, Nat.add_zero] at hr hb hw
    refine ⟨⟨idle_move h ht _ _, ?_, by omega⟩, ?_⟩
    · exact (congrArg (· - reader) h.bits).trans (sub_reader (by omega))
    · rw [acts, Lib.run_cons, abs, abs, hw, ← hr]
      rfl

/-! ### Runs -/

theorem run_inv (hn : n < 2 ^ 31) (hrun : Lib.run (step n) {} ls = some s) : s.Inv n :=
  Lib.run_invariant (fun _ _ _ h hs => (step_spec hn h hs).1) (inv_init n) hrun

/-- **What the threads acquire and release is a run of the lock that the pools assume**, whatever the order of
their accesses. -/
theorem run_refines_shared_lock (hn : n < 2 ^ 31) (hrun : Lib.run (step n) {} ls = some s) :
    Lib.run SharedLock.step {} (Lib.trace (step n) acts {} ls) = some (s.abs n) := by
  have hstart : abs n {} = {} := by
    have hzero : ∀ w : LockPlace → Nat, w .idle = 0 → Lib.tally n (fun _ => .idle) w = 0 :=
      fun w hw => Lib.tally_eq_zero fun _ _ => hw
    rw [abs, hzero reads rfl, hzero writes rfl]
    rfl
  rw [← hstart]
  exact Lib.run_trace (fun _ _ _ => step_spec hn) (inv_init n) hrun

theorem Inv.exclusive (h : s.Inv n) {t u : Nat} (ht : s.threads t = .writing) (hne : u ≠ t) :
    s.threads u ≠ .writing ∧ s.threads u ≠ .reading := by
  have htn : t < n := by
    by_contra hge
    rw [h.idle t (by omega)] at ht
    cases ht
  by_cases hun : u < n
  · have hwrites := Lib.add_le_tally (f := s.threads) (w := writes) htn hun (Ne.symm hne)
    have hreads := Lib.le_tally (f := s.threads) (w := reads) hun
    have halone := h.alone
    rw [ht] at hwrites
    refine ⟨fun hu => ?_, fun hu => ?_⟩
    · rw [hu, writes] at hwrites
      omega
    · have hwriter : 1 ≤ Lib.tally n s.threads writes := (Nat.le_add_right ..).trans hwrites
      rw [hu, reads] at hreads
      omega
  · rw [h.idle u (by omega)]
    decide

theorem Inv.no_writer_iff (h : s.Inv n) : Lib.tally n s.threads writes = 0 ↔ ∀ u, s.threads u ≠ .writing := by
  refine ⟨fun hzero u hu => ?_, fun hall => Lib.tally_eq_zero fun t _ => ?_⟩
  · have hun : u < n := by
      by_contra hge
      rw [h.idle u (by omega)] at hu
      cases hu
    have hle := Lib.le_tally (f := s.threads) (w := writes) hun
    rw [hu, writes] at hle
    omega
  · cases hplace : s.threads t with
    | writing => exact absurd hplace (hall t)
    | _ => rfl

/-- **A writer is alone**, and a thread gets the lock exactly when it is free for it: `try_lock` succeeds when
no thread is in the lock or backs out, and `try_lock_shared` when there is no writer. -/
theorem run_exclusive (hn : n < 2 ^ 31) (hrun : Lib.run (step n) {} ls = some s) :
    (∀ t u, s.threads t = .writing → u ≠ t → s.threads u ≠ .writing ∧ s.threads u ≠ .reading) ∧
    (∀ t s', s.step n (.tryLock t) = some s' → (s'.threads t = .writing ↔ ∀ u, s.threads u = .idle)) ∧
    ∀ t s', s.step n (.tryLockShared t) = some s' → (s'.threads t = .reading ↔ ∀ u, s.threads u ≠ .writing) := by
  have h := run_inv hn hrun
  refine ⟨fun t u => h.exclusive, fun t s' hs => ?_, fun t s' hs => ?_⟩
  · rw [← h.bits_eq_zero_iff hn]
    simp only [step] at hs
    split_ifs at hs with hen hzero <;> cases hs
    · exact iff_of_true (Function.update_self ..) hzero
    · refine iff_of_false (fun hw => ?_) hzero
      rw [hen.2] at hw
      cases hw
  · rw [← h.no_writer_iff, ← h.and_writer_eq_zero_iff]
    simp only [step] at hs
    split_ifs at hs with hen hwriter <;> cases hs
    · refine iff_of_false (fun hr => ?_) hwriter
      cases (Function.update_self ..).symm.trans hr
    · exact iff_of_true (Function.update_self ..) (not_not.mp hwriter)

/-- A reader has to back out because of a writer. -/
def backOutLabels : List Label := [.tryLock 0, .tryLockShared 1, .unlock 0]

/-- Until it has, the lock is free and cannot be had for writing. -/
theorem run_exclusive_backOut :
    ∃ s s', Lib.run (step 3) {} backOutLabels = some s ∧ s.abs 3 = {} ∧ s.step 3 (.tryLock 2) = some s' ∧
      s'.threads 2 ≠ .writing := by
  obtain ⟨s, hs⟩ : ∃ s, Lib.run (step 3) {} backOutLabels = some s := ⟨_, rfl⟩
  have hplace : s.abs 3 = {} ∧ s.threads 1 = .backing ∧ (s.step 3 (.tryLock 2)).isSome := by
    cases hs
    decide
  obtain ⟨habs, hbacking, hstep⟩ := hplace
  obtain ⟨s', hs'⟩ := Option.isSome_iff_exists.mp hstep
  obtain ⟨-, hlock, -⟩ := run_exclusive (by decide) hs
  refine ⟨s, s', hs, habs, hs', fun hwriting => ?_⟩
  have hidle := (hlock 2 s' hs').mp hwriting 1
  rw [hbacking] at hidle
  cases hidle

theorem run_refines_shared_lock_backOut :
    Lib.run SharedLock.step {} (Lib.trace (step 3) acts {} backOutLabels) = some {} ∧
      Lib.trace (step 3) acts {} backOutLabels = [.lock, .unlock] := by
  obtain ⟨s, hs⟩ : ∃ s, Lib.run (step 3) {} backOutLabels = some s := ⟨_, rfl⟩
  have hrefines := run_refines_shared_lock (by decide) hs
  have habs : s.abs 3 = {} := by
    cases hs
    decide
  exact ⟨habs ▸ hrefines, by decide⟩

end RWSpinLock

end Raster
