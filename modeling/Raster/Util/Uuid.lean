import Mathlib.Data.List.Nodup
import Mathlib.Data.List.Sort
import Mathlib.Data.Nat.Bitwise

/-!
# Ids made from the clock

`getClock`, `internalUuidGenerateTime` and `uuidGenerateTime` of `raster/util/Uuid.cpp`, in one thread. The readings of
`gettimeofday` are a list of microseconds since the epoch that the calls use up. An id holds the microsecond and an
adjustment that counts the ids of one microsecond, as one number of units of a tenth of a microsecond; the adjustment
goes up to `10`, and `10` tenths are the next microsecond.

`uuidGenerateTime` passes no `num`, for nothing ever sets its own, so that neither the reserve of ids nor the branch of
`getClock` for it is used.
-/

namespace Raster

/-- `struct timeval`. -/
structure Timeval where
  sec : Int
  usec : Int
  deriving DecidableEq, Repr

/-- What `gettimeofday` gives in the microsecond `t` after the epoch. -/
def gettimeofday (t : Nat) : Timeval := ⟨t / 1000000, t % 1000000⟩

def MAX_ADJUSTMENT : Nat := 10

/-- The variables of `getClock` that are kept for the thread. -/
structure Clock where
  adjustment : Nat := 0
  last : Timeval := ⟨0, 0⟩
  clockSeq : Nat := 0
  deriving DecidableEq, Repr

/-- `struct uuid`. -/
structure Uuid where
  timeLow : Nat
  timeMid : Nat
  timeHiAndVersion : Nat
  clockSeq : Nat
  node : List UInt8
  deriving DecidableEq, Repr

namespace Clock

/-- From `try_again` on: the reading that is used, and what is left of them. -/
def tryAgain (c : Clock) : List Nat → Option (Timeval × Clock × List Nat)
  | [] => none
  | t :: readings =>
    let tv := gettimeofday t
    if tv.sec < c.last.sec ∨ tv.sec = c.last.sec ∧ tv.usec < c.last.usec then
      some (tv, { clockSeq := (c.clockSeq + 1) &&& 0x3FFF, adjustment := 0, last := tv }, readings)
    else if tv.sec = c.last.sec ∧ tv.usec = c.last.usec then
      if MAX_ADJUSTMENT ≤ c.adjustment then tryAgain c readings
      else some (tv, { c with adjustment := c.adjustment + 1 }, readings)
    else some (tv, { c with adjustment := 0, last := tv }, readings)

/-- The first use: the sequence is random, and the last time is one second ago. -/
def start (c : Clock) (random : Nat) : List Nat → Option (Clock × List Nat)
  | [] => none
  | t :: readings =>
    let last := gettimeofday t
    some ({ c with clockSeq := random &&& 0x3FFF, last := { last with sec := last.sec - 1 } }, readings)

def clockReg (tv : Timeval) (adjustment : Nat) : Nat :=
  ((tv.usec * 10 + adjustment + tv.sec * 10000000 + 0x01B21DD213814000) % 2 ^ 64).toNat

/-- `clock_reg`, and the clock after the call. -/
def getClock (c : Clock) (random : Nat) (readings : List Nat) : Option (Nat × Clock × List Nat) := do
  let (c, readings) ← if c.last.sec = 0 ∧ c.last.usec = 0 then c.start random readings else some (c, readings)
  let (tv, c, readings) ← c.tryAgain readings
  some (clockReg tv c.adjustment, c, readings)

end Clock

def uuidPack (uu : Uuid) : List UInt8 :=
  [UInt8.ofNat (uu.timeLow >>> 24), UInt8.ofNat (uu.timeLow >>> 16), UInt8.ofNat (uu.timeLow >>> 8), UInt8.ofNat uu.timeLow,
    UInt8.ofNat (uu.timeMid >>> 8), UInt8.ofNat uu.timeMid,
    UInt8.ofNat (uu.timeHiAndVersion >>> 8), UInt8.ofNat uu.timeHiAndVersion,
    UInt8.ofNat (uu.clockSeq >>> 8), UInt8.ofNat uu.clockSeq] ++ uu.node

/-- The id of `clock_reg`. -/
def Uuid.ofReg (clockReg clockSeq : Nat) (node : List UInt8) : Uuid where
  timeLow := clockReg % 2 ^ 32
  timeMid := (clockReg >>> 32) % 2 ^ 16
  timeHiAndVersion := (clockReg >>> 32 >>> 16 &&& 0x0FFF) ||| 0x1000
  clockSeq := clockSeq ||| 0x8000
  node

def internalUuidGenerateTime (node : List UInt8) (random : Nat) (c : Clock) (readings : List Nat) :
    Option (List UInt8 × Clock × List Nat) := do
  let (clockReg, c, readings) ← c.getClock random readings
  some (uuidPack (Uuid.ofReg clockReg c.clockSeq node), c, readings)

/-- `hexValues[n]`. -/
def hexValue (n : Nat) : UInt8 :=
  [48, 49, 50, 51, 52, 53, 54, 55, 56, 57, 97, 98, 99, 100, 101, 102].getD n 0

def hexlify (input : List UInt8) : List UInt8 :=
  input.flatMap fun ch => [hexValue (ch.toNat / 16), hexValue (ch.toNat % 16)]

/-- The text of an id, with its dashes. -/
def uuidText (uu : List UInt8) : List UInt8 :=
  hexlify (uu.take 4) ++ 45 :: (hexlify ((uu.drop 4).take 2) ++ 45 :: (hexlify ((uu.drop 6).take 2) ++
    45 :: (hexlify ((uu.drop 8).take 2) ++ 45 :: hexlify (uu.drop 10))))

def uuidGenerateTime (node : List UInt8) (random : Nat) (c : Clock) (readings : List Nat) :
    Option (List UInt8 × Clock × List Nat) := do
  let (uu, c, readings) ← internalUuidGenerateTime node random c readings
  some (uuidText uu, c, readings)

/-- What `n` calls return, as far as the readings last. -/
def generated (node : List UInt8) (random : Nat → Nat) : Nat → Clock → List Nat → List (List UInt8)
  | 0, _, _ => []
  | n + 1, c, readings =>
    match uuidGenerateTime node (random n) c readings with
    | none => []
    | some (id, c, readings) => id :: generated node random n c readings

/-! ### The bytes of an id -/

theorem hexValue_inj {m n : Nat} (hm : m < 16) (hn : n < 16) (h : hexValue m = hexValue n) : m = n := by
  have hall : ∀ m < 16, ∀ n < 16, hexValue m = hexValue n → m = n := by decide
  exact hall m hm n hn h

theorem hexlify_inj {l l' : List UInt8} (h : hexlify l = hexlify l') : l = l' := by
  induction l generalizing l' with
  | nil =>
    cases l' with
    | nil => rfl
    | cons b' l' => cases h
  | cons b l ih =>
    cases l' with
    | nil => cases h
    | cons b' l' =>
      have hb := b.toNat_lt
      have hb' := b'.toNat_lt
      have hcons : hexValue (b.toNat / 16) :: hexValue (b.toNat % 16) :: hexlify l =
        hexValue (b'.toNat / 16) :: hexValue (b'.toNat % 16) :: hexlify l' := h
      obtain ⟨hhigh, hrest⟩ := List.cons.inj hcons
      obtain ⟨hlow, htail⟩ := List.cons.inj hrest
      have hdiv := hexValue_inj (by omega) (by omega) hhigh
      have hmod := hexValue_inj (by omega) (by omega) hlow
      rw [ih htail, UInt8.toNat_inj.mp (show b.toNat = b'.toNat by omega)]

theorem length_hexlify (l : List UInt8) : (hexlify l).length = 2 * l.length := by
  unfold hexlify
  rw [List.length_flatMap]
  simp [Nat.mul_comm]

theorem hexlify_append_inj {l l' r r' : List UInt8} (hlength : l.length = l'.length)
    (h : hexlify l ++ 45 :: r = hexlify l' ++ 45 :: r') : l = l' ∧ r = r' := by
  obtain ⟨hhex, hrest⟩ := List.append_inj h (by rw [length_hexlify, length_hexlify, hlength])
  exact ⟨hexlify_inj hhex, (List.cons.inj hrest).2⟩

theorem uuidText_inj {uu uu' : List UInt8} (hlength : uu.length = uu'.length) (h : uuidText uu = uuidText uu') :
    uu = uu' := by
  unfold uuidText at h
  obtain ⟨h4, h⟩ := hexlify_append_inj (by simp [hlength]) h
  obtain ⟨h6, h⟩ := hexlify_append_inj (by simp [hlength]) h
  obtain ⟨h8, h⟩ := hexlify_append_inj (by simp [hlength]) h
  obtain ⟨h10, h⟩ := hexlify_append_inj (by simp [hlength]) h
  have hrest := hexlify_inj h
  have hsplit : ∀ l : List UInt8,
      l = l.take 4 ++ ((l.drop 4).take 2 ++ ((l.drop 6).take 2 ++ ((l.drop 8).take 2 ++ l.drop 10))) := by
    intro l
    have h8 : l.drop 8 = (l.drop 8).take 2 ++ l.drop 10 := by rw [← List.drop_drop (i := 2) (j := 8), List.take_append_drop]
    have h6 : l.drop 6 = (l.drop 6).take 2 ++ l.drop 8 := by rw [← List.drop_drop (i := 2) (j := 6), List.take_append_drop]
    have h4 : l.drop 4 = (l.drop 4).take 2 ++ l.drop 6 := by rw [← List.drop_drop (i := 2) (j := 4), List.take_append_drop]
    rw [← h8, ← h6, ← h4, List.take_append_drop]
  rw [hsplit uu, hsplit uu', h4, h6, h8, h10, hrest]

theorem ofNat_eq_iff {m n : Nat} : UInt8.ofNat m = UInt8.ofNat n ↔ m % 256 = n % 256 := by
  rw [← UInt8.toNat_inj, UInt8.toNat_ofNat', UInt8.toNat_ofNat']

theorem timeHiAndVersion_eq (high : Nat) : (high >>> 16 &&& 0x0FFF) ||| 0x1000 = high / 2 ^ 16 % 2 ^ 12 + 2 ^ 12 := by
  have hand : high >>> 16 &&& 0x0FFF = high / 2 ^ 16 % 2 ^ 12 := by
    rw [Nat.shiftRight_eq_div_pow]
    exact Nat.and_two_pow_sub_one_eq_mod _ 12
  have hlt : high / 2 ^ 16 % 2 ^ 12 < 2 ^ 12 := Nat.mod_lt _ (by decide)
  rw [hand, Nat.lor_comm, Nat.add_comm]
  exact (Nat.two_pow_add_eq_or_of_lt hlt 1).symm

theorem bytes16_eq_iff {n n' : Nat} (hn : n < 2 ^ 16) (hn' : n' < 2 ^ 16) :
    UInt8.ofNat (n >>> 8) = UInt8.ofNat (n' >>> 8) ∧ UInt8.ofNat n = UInt8.ofNat n' ↔ n = n' := by
  simp only [ofNat_eq_iff, Nat.shiftRight_eq_div_pow]
  omega

theorem bytes32_eq_iff {n n' : Nat} (hn : n < 2 ^ 32) (hn' : n' < 2 ^ 32) :
    UInt8.ofNat (n >>> 24) = UInt8.ofNat (n' >>> 24) ∧ UInt8.ofNat (n >>> 16) = UInt8.ofNat (n' >>> 16) ∧
      UInt8.ofNat (n >>> 8) = UInt8.ofNat (n' >>> 8) ∧ UInt8.ofNat n = UInt8.ofNat n' ↔ n = n' := by
  simp only [ofNat_eq_iff, Nat.shiftRight_eq_div_pow]
  omega

theorem uuidPack_ofReg_eq_iff (reg reg' clockSeq : Nat) (node : List UInt8) :
    uuidPack (Uuid.ofReg reg clockSeq node) = uuidPack (Uuid.ofReg reg' clockSeq node) ↔ reg % 2 ^ 60 = reg' % 2 ^ 60 := by
  have hlow := bytes32_eq_iff (Nat.mod_lt reg (show 0 < 2 ^ 32 by decide)) (Nat.mod_lt reg' (show 0 < 2 ^ 32 by decide))
  have hmid := bytes16_eq_iff (Nat.mod_lt (reg >>> 32) (show 0 < 2 ^ 16 by decide))
    (Nat.mod_lt (reg' >>> 32) (show 0 < 2 ^ 16 by decide))
  have hhi := bytes16_eq_iff (show reg >>> 32 / 2 ^ 16 % 2 ^ 12 + 2 ^ 12 < 2 ^ 16 by omega)
    (show reg' >>> 32 / 2 ^ 16 % 2 ^ 12 + 2 ^ 12 < 2 ^ 16 by omega)
  have hparts : uuidPack (Uuid.ofReg reg clockSeq node) = uuidPack (Uuid.ofReg reg' clockSeq node) ↔
      reg % 2 ^ 32 = reg' % 2 ^ 32 ∧ (reg >>> 32) % 2 ^ 16 = (reg' >>> 32) % 2 ^ 16 ∧
        reg >>> 32 / 2 ^ 16 % 2 ^ 12 + 2 ^ 12 = reg' >>> 32 / 2 ^ 16 % 2 ^ 12 + 2 ^ 12 := by
    rw [← hlow, ← hmid, ← hhi]
    simp only [uuidPack, Uuid.ofReg, timeHiAndVersion_eq, List.append_cancel_right_eq, List.cons.injEq, and_true, and_assoc]
  rw [hparts, Nat.shiftRight_eq_div_pow, Nat.shiftRight_eq_div_pow]
  omega

/-! ### The times of the ids -/

/-- The microseconds and adjustments of the ids, when the last one is the microsecond `t` with the adjustment `a`. -/
def stamps (t a : Nat) : List Nat → List (Nat × Nat)
  | [] => []
  | t' :: readings =>
    if t' = t then
      if MAX_ADJUSTMENT ≤ a then stamps t a readings else (t, a + 1) :: stamps t (a + 1) readings
    else (t', 0) :: stamps t' 0 readings

/-- Those of the readings after the first one. -/
def firstStamps : List Nat → List (Nat × Nat)
  | [] => []
  | t :: readings => (t, 0) :: stamps t 0 readings

/-- The text of the id of a time. -/
def idAt (node : List UInt8) (clockSeq : Nat) (stamp : Nat × Nat) : List UInt8 :=
  uuidText (uuidPack (Uuid.ofReg (Clock.clockReg (gettimeofday stamp.1) stamp.2) clockSeq node))

theorem mem_stamps {t a : Nat} {readings : List Nat} (hsorted : (t :: readings).Pairwise (· ≤ ·))
    (ha : a ≤ MAX_ADJUSTMENT) (stamp : Nat × Nat) :
    stamp ∈ stamps t a readings ↔
      stamp.1 = t ∧ a < stamp.2 ∧ stamp.2 ≤ 10 ∧ stamp.2 ≤ a + readings.count t ∨
        stamp.1 ≠ t ∧ stamp.2 ≤ 10 ∧ stamp.2 < readings.count stamp.1 := by
  obtain ⟨u, b⟩ := stamp
  induction readings generalizing t a with
  | nil =>
    simp only [stamps, List.not_mem_nil, List.count_nil, false_iff]
    omega
  | cons t' readings ih =>
    obtain ⟨hle, hrest⟩ := List.pairwise_cons.mp hsorted
    unfold stamps
    by_cases ht : t' = t
    · subst ht
      rw [if_pos rfl, List.count_cons_self]
      have hother : u ≠ t' → (t' :: readings).count u = readings.count u := fun hu => List.count_cons_of_ne (Ne.symm hu)
      by_cases hfull : MAX_ADJUSTMENT ≤ a
      · rw [if_pos hfull, ih hrest ha]
        unfold MAX_ADJUSTMENT at hfull
        by_cases hu : u = t'
        · simp only [hu, true_and, ne_eq, not_true_eq_false, false_and, or_false]
          omega
        · simp only [hu, false_and, false_or, ne_eq, not_false_eq_true, true_and, hother hu]
      · rw [if_neg hfull, List.mem_cons, ih hrest (by omega), Prod.mk.injEq]
        unfold MAX_ADJUSTMENT at hfull
        by_cases hu : u = t'
        · simp only [hu, true_and, ne_eq, not_true_eq_false, false_and, or_false]
          omega
        · simp only [hu, false_and, false_or, ne_eq, not_false_eq_true, true_and, hother hu]
    · have hlt : t < t' := lt_of_le_of_ne (hle t' List.mem_cons_self) (Ne.symm ht)
      have habsent : ∀ v, v < t' → (t' :: readings).count v = 0 := by
        intro v hv
        refine List.count_eq_zero.mpr fun hmem => ?_
        rcases List.mem_cons.mp hmem with rfl | hmem
        · exact lt_irrefl _ hv
        · exact absurd ((List.pairwise_cons.mp hrest).1 v hmem) (by omega)
      rw [if_neg ht, List.mem_cons, ih hrest (Nat.zero_le _), Prod.mk.injEq, habsent t hlt]
      by_cases hu : u = t'
      · subst hu
        simp only [true_and, ne_eq, not_true_eq_false, false_and, or_false, ht, not_false_eq_true, false_or,
          List.count_cons_self]
        omega
      · rw [List.count_cons_of_ne (Ne.symm hu)]
        by_cases hut : u = t
        · subst hut
          have hzero := habsent u hlt
          rw [List.count_cons_of_ne (Ne.symm hu)] at hzero
          simp only [hzero, hu, false_and, false_or, ne_eq, not_false_eq_true, true_and, not_true_eq_false, or_false]
          omega
        · simp only [hu, hut, false_and, false_or, ne_eq, not_false_eq_true, true_and]

theorem nodup_stamps {t a : Nat} {readings : List Nat} (hsorted : (t :: readings).Pairwise (· ≤ ·))
    (ha : a ≤ MAX_ADJUSTMENT) : (stamps t a readings).Nodup := by
  induction readings generalizing t a with
  | nil => exact List.nodup_nil
  | cons t' readings ih =>
    have hrest := (List.pairwise_cons.mp hsorted).2
    unfold stamps
    split_ifs with ht hfull
    · subst ht
      exact ih hrest ha
    · subst ht
      refine List.nodup_cons.mpr ⟨fun hmem => ?_, ih hrest (by omega)⟩
      rcases (mem_stamps hrest (by omega) _).mp hmem with ⟨-, hlt, -⟩ | ⟨hne, -⟩
      · exact lt_irrefl _ hlt
      · exact hne rfl
    · refine List.nodup_cons.mpr ⟨fun hmem => ?_, ih hrest (Nat.zero_le _)⟩
      rcases (mem_stamps hrest (Nat.zero_le _) _).mp hmem with ⟨-, hlt, -⟩ | ⟨hne, -⟩
      · exact lt_irrefl _ hlt
      · exact hne rfl

theorem mem_firstStamps {readings : List Nat} (hsorted : readings.Pairwise (· ≤ ·)) (stamp : Nat × Nat) :
    stamp ∈ firstStamps readings ↔ stamp.2 ≤ 10 ∧ stamp.2 < readings.count stamp.1 := by
  cases readings with
  | nil => simp [firstStamps]
  | cons t readings =>
    obtain ⟨u, b⟩ := stamp
    unfold firstStamps
    rw [List.mem_cons, mem_stamps hsorted (Nat.zero_le _), Prod.mk.injEq]
    by_cases hu : u = t
    · subst hu
      simp only [true_and, ne_eq, not_true_eq_false, false_and, or_false, List.count_cons_self]
      omega
    · simp only [hu, false_and, false_or, ne_eq, not_false_eq_true, true_and, List.count_cons_of_ne (Ne.symm hu)]

theorem nodup_firstStamps {readings : List Nat} (hsorted : readings.Pairwise (· ≤ ·)) : (firstStamps readings).Nodup := by
  cases readings with
  | nil => exact List.nodup_nil
  | cons t readings =>
    refine List.nodup_cons.mpr ⟨fun hmem => ?_, nodup_stamps hsorted (Nat.zero_le _)⟩
    rcases (mem_stamps hsorted (Nat.zero_le _) _).mp hmem with ⟨-, hlt, -⟩ | ⟨hne, -⟩
    · exact lt_irrefl _ hlt
    · exact hne rfl

/-! ### The ids of a thread -/

theorem gettimeofday_inj {t t' : Nat} (hsec : (gettimeofday t).sec = (gettimeofday t').sec)
    (husec : (gettimeofday t).usec = (gettimeofday t').usec) : t = t' := by
  simp only [gettimeofday] at hsec husec
  omega

theorem gettimeofday_not_lt {t t' : Nat} (h : t ≤ t') :
    ¬ ((gettimeofday t').sec < (gettimeofday t).sec ∨
      (gettimeofday t').sec = (gettimeofday t).sec ∧ (gettimeofday t').usec < (gettimeofday t).usec) := by
  simp only [gettimeofday]
  omega

theorem tryAgain_spec {c : Clock} {t : Nat} {readings : List Nat} (hsorted : (t :: readings).Pairwise (· ≤ ·))
    (hlast : c.last = gettimeofday t) :
    stamps t c.adjustment readings = [] ∧ c.tryAgain readings = none ∨
      ∃ t' a' rest, stamps t c.adjustment readings = (t', a') :: stamps t' a' rest ∧ (t' :: rest).Pairwise (· ≤ ·) ∧
        t ≤ t' ∧ c.tryAgain readings =
          some (gettimeofday t', { c with adjustment := a', last := gettimeofday t' }, rest) := by
  induction readings with
  | nil => exact Or.inl ⟨rfl, rfl⟩
  | cons t' readings ih =>
    obtain ⟨hle, hrest⟩ := List.pairwise_cons.mp hsorted
    have hnot := gettimeofday_not_lt (hle t' List.mem_cons_self)
    rw [← hlast] at hnot
    by_cases ht : t' = t
    · subst ht
      have hsame : (gettimeofday t').sec = c.last.sec ∧ (gettimeofday t').usec = c.last.usec := by
        rw [hlast]
        exact ⟨rfl, rfl⟩
      by_cases hfull : MAX_ADJUSTMENT ≤ c.adjustment
      · simp only [stamps, Clock.tryAgain, if_true, if_pos hfull, if_neg hnot, if_pos hsame]
        exact ih hrest
      · refine Or.inr ⟨t', c.adjustment + 1, readings, ?_, hrest, le_refl _, ?_⟩
        · simp only [stamps, if_true, if_neg hfull]
        · simp only [Clock.tryAgain, if_neg hfull, if_neg hnot, if_pos hsame]
          rw [hlast]
    · have hother : ¬ ((gettimeofday t').sec = c.last.sec ∧ (gettimeofday t').usec = c.last.usec) := by
        rw [hlast]
        exact fun hsame => ht (gettimeofday_inj hsame.1 hsame.2)
      refine Or.inr ⟨t', 0, readings, ?_, hrest, hle t' List.mem_cons_self, ?_⟩
      · simp only [stamps, if_neg ht]
      · simp only [Clock.tryAgain, if_neg hnot, if_neg hother]

theorem gettimeofday_ne_zero {t : Nat} (ht : 0 < t) : ¬ ((gettimeofday t).sec = 0 ∧ (gettimeofday t).usec = 0) := by
  simp only [gettimeofday]
  omega

theorem generated_eq (node : List UInt8) (random : Nat → Nat) (n : Nat) {c : Clock} {t : Nat} {readings : List Nat}
    (hsorted : (t :: readings).Pairwise (· ≤ ·)) (hpos : 0 < t) (hlast : c.last = gettimeofday t) :
    generated node random n c readings = ((stamps t c.adjustment readings).take n).map (idAt node c.clockSeq) := by
  induction n generalizing c t readings with
  | zero => rfl
  | succ n ih =>
    have hstarted : ¬ (c.last.sec = 0 ∧ c.last.usec = 0) := hlast ▸ gettimeofday_ne_zero hpos
    unfold generated uuidGenerateTime internalUuidGenerateTime Clock.getClock
    rw [if_neg hstarted]
    rcases tryAgain_spec hsorted hlast with ⟨hstamps, htry⟩ | ⟨t', a', rest, hstamps, hsorted', hle, htry⟩
    · rw [hstamps]
      simp [htry]
    · rw [hstamps]
      simp only [Option.bind_eq_bind, Option.bind_some, htry, List.take_succ_cons, List.map_cons]
      rw [ih hsorted' (by omega) rfl]
      rfl

/-- **The ids of the first calls of a thread.** -/
theorem generated_init (node : List UInt8) (random : Nat → Nat) (n : Nat) {t : Nat} {readings : List Nat}
    (hsorted : (t :: readings).Pairwise (· ≤ ·)) (hpos : 0 < t) :
    ∃ clockSeq, generated node random n {} (t :: readings) = ((firstStamps readings).take n).map (idAt node clockSeq) := by
  cases n with
  | zero => exact ⟨0, rfl⟩
  | succ n =>
    refine ⟨random n &&& 0x3FFF, ?_⟩
    cases readings with
    | nil => rfl
    | cons r readings =>
      obtain ⟨hle, hrest⟩ := List.pairwise_cons.mp hsorted
      have hr := hle r List.mem_cons_self
      have hnot : ¬ ((gettimeofday r).sec < (gettimeofday t).sec - 1 ∨
          (gettimeofday r).sec = (gettimeofday t).sec - 1 ∧ (gettimeofday r).usec < (gettimeofday t).usec) := by
        simp only [gettimeofday]
        omega
      have hother : ¬ ((gettimeofday r).sec = (gettimeofday t).sec - 1 ∧ (gettimeofday r).usec = (gettimeofday t).usec) := by
        simp only [gettimeofday]
        omega
      have hfirst : uuidGenerateTime node (random n) {} (t :: r :: readings) =
          some (idAt node (random n &&& 0x3FFF) (r, 0),
            { adjustment := 0, last := gettimeofday r, clockSeq := random n &&& 0x3FFF }, readings) := by
        simp only [uuidGenerateTime, internalUuidGenerateTime, Clock.getClock, Clock.start, Clock.tryAgain, and_self, if_true,
          Option.bind_eq_bind, Option.bind_some, if_neg hnot, if_neg hother]
        rfl
      unfold generated
      rw [hfirst]
      simp only [firstStamps, List.take_succ_cons, List.map_cons]
      rw [generated_eq node random n hrest (by omega) rfl]

/-! ### When the ids are distinct -/

theorem clockReg_mod (t a : Nat) : Clock.clockReg (gettimeofday t) a % 2 ^ 60 = (10 * t + a + 0x01B21DD213814000) % 2 ^ 60 := by
  simp only [Clock.clockReg, gettimeofday]
  omega

theorem Uuid.node_ofReg (reg clockSeq : Nat) (node : List UInt8) : (Uuid.ofReg reg clockSeq node).node = node := rfl

theorem length_uuidPack (uu : Uuid) : (uuidPack uu).length = 10 + uu.node.length := by
  unfold uuidPack
  rw [List.length_append]
  rfl

theorem idAt_eq_iff (node : List UInt8) (clockSeq : Nat) (x y : Nat × Nat) :
    idAt node clockSeq x = idAt node clockSeq y ↔ (10 * x.1 + x.2) % 2 ^ 60 = (10 * y.1 + y.2) % 2 ^ 60 := by
  have htext : idAt node clockSeq x = idAt node clockSeq y ↔
      uuidPack (Uuid.ofReg (Clock.clockReg (gettimeofday x.1) x.2) clockSeq node) =
        uuidPack (Uuid.ofReg (Clock.clockReg (gettimeofday y.1) y.2) clockSeq node) :=
    ⟨uuidText_inj (by rw [length_uuidPack, length_uuidPack, Uuid.node_ofReg, Uuid.node_ofReg]), congrArg uuidText⟩
  rw [htext, uuidPack_ofReg_eq_iff, clockReg_mod, clockReg_mod]
  omega

/-- A microsecond that is read more than ten times is not followed by a reading of the next one, and no two readings are
so far apart that their times agree in `60` bits. -/
structure NoClash (readings : List Nat) : Prop where
  next : ∀ t, 11 ≤ readings.count t → t + 1 ∉ readings
  wrap : ∀ t t' a a' k, 1 ≤ k → a ≤ 10 → a < readings.count t → a' ≤ 10 → a' < readings.count t' →
    10 * t' + a' ≠ 10 * t + a + k * 2 ^ 60

theorem NoClash.eq_of_le {readings : List Nat} (h : NoClash readings) {t a t' a' : Nat} (ha : a ≤ 10)
    (hcount : a < readings.count t) (ha' : a' ≤ 10) (hcount' : a' < readings.count t')
    (hmod : (10 * t + a) % 2 ^ 60 = (10 * t' + a') % 2 ^ 60) (hle : 10 * t + a ≤ 10 * t' + a') : (t, a) = (t', a') := by
  obtain ⟨k, hk⟩ : ∃ k, 10 * t' + a' = 10 * t + a + k * 2 ^ 60 :=
    ⟨(10 * t' + a') / 2 ^ 60 - (10 * t + a) / 2 ^ 60, by omega⟩
  cases k with
  | succ k => exact absurd hk (h.wrap t t' a a' (k + 1) (by omega) ha hcount ha' hcount')
  | zero =>
    by_cases ht : t = t'
    · subst ht
      rw [Prod.mk.injEq]
      omega
    · -- Ten tenths of one microsecond are the start of the other.
      exfalso
      rcases Nat.lt_or_gt_of_ne ht with hlt | hgt
      · obtain rfl : t' = t + 1 := by omega
        exact h.next t (by omega) (List.count_pos_iff.mp (by omega))
      · obtain rfl : t = t' + 1 := by omega
        exact h.next t' (by omega) (List.count_pos_iff.mp (by omega))

/-- **The ids of a thread are pairwise different exactly when the readings do not clash**, for a clock that does not go
back; the first reading is only used for the time before the first id. -/
theorem generated_nodup_iff (node : List UInt8) (random : Nat → Nat) (t : Nat) (readings : List Nat)
    (hsorted : (t :: readings).Pairwise (· ≤ ·)) (hpos : 0 < t) :
    (∀ n, (generated node random n {} (t :: readings)).Nodup) ↔ NoClash readings := by
  have hrest := (List.pairwise_cons.mp hsorted).2
  have hmem := mem_firstStamps hrest
  constructor
  · intro hnodup
    obtain ⟨clockSeq, heq⟩ := generated_init node random (firstStamps readings).length hsorted hpos
    have hall := hnodup (firstStamps readings).length
    rw [heq, List.take_length] at hall
    have hinj : ∀ x ∈ firstStamps readings, ∀ y ∈ firstStamps readings,
        (10 * x.1 + x.2) % 2 ^ 60 = (10 * y.1 + y.2) % 2 ^ 60 → x = y := fun x hx y hy hmod =>
      List.inj_on_of_nodup_map hall hx hy ((idAt_eq_iff node clockSeq x y).mpr hmod)
    refine ⟨fun t hcount hnext => ?_, fun t t' a a' k hk ha hcount ha' hcount' heq => ?_⟩
    · have hcontra := hinj (t, 10) ((hmem _).mpr ⟨le_refl 10, hcount⟩) (t + 1, 0)
        ((hmem _).mpr ⟨Nat.zero_le _, List.count_pos_iff.mpr hnext⟩) (by omega)
      simp at hcontra
    · have hsame := hinj (t, a) ((hmem _).mpr ⟨ha, hcount⟩) (t', a') ((hmem _).mpr ⟨ha', hcount'⟩) (by omega)
      rw [Prod.mk.injEq] at hsame
      omega
  · intro hno n
    obtain ⟨clockSeq, heq⟩ := generated_init node random n hsorted hpos
    rw [heq]
    have hnodup : ((firstStamps readings).take n).Nodup := (nodup_firstStamps hrest).sublist (List.take_sublist _ _)
    refine (List.nodup_map_iff_inj_on hnodup).mpr fun x hx y hy hid => ?_
    obtain ⟨hx10, hxcount⟩ := (hmem x).mp (List.mem_of_mem_take hx)
    obtain ⟨hy10, hycount⟩ := (hmem y).mp (List.mem_of_mem_take hy)
    have hmod := (idAt_eq_iff node clockSeq x y).mp hid
    rcases Nat.le_total (10 * x.1 + x.2) (10 * y.1 + y.2) with hle | hle
    · exact hno.eq_of_le hx10 hxcount hy10 hycount hmod hle
    · exact (hno.eq_of_le hy10 hycount hx10 hxcount hmod.symm hle).symm

end Raster
