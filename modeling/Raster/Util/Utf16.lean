import Mathlib.Data.List.Induction
import Raster.Util.CodePoint

/-!
# Offsets in UTF-16 units

`u16::distance` and the two forms of `u16::advance` of `raster/util/Unicode.h`, on a text that starts at `first = 0`. They go
over a text with `Utf8Iterator`, and read the code points unchecked. `n` is counted down by one or two without a check, so that
it wraps around in the middle of a surrogate pair.
-/

namespace Raster.Utf8

/-! ### The iterator -/

/-- `U8_COUNT_TRAIL_BYTES_UNSAFE`. -/
def countTrailBytesUnsafe (c : UInt8) : Nat :=
  (if 0xc0 ≤ c then 1 else 0) + (if 0xe0 ≤ c then 1 else 0) + (if 0xf0 ≤ c then 1 else 0)

def utf8CodePointLength (text : List UInt8) (p : Nat) : Option Nat := text[p]?.map fun c => 1 + countTrailBytesUnsafe c

/-- `p + 1 + U8_COUNT_TRAIL_BYTES_UNSAFE((uint8_t)*p)`, `none` when it reads behind the text. -/
def utf8ForwardCodePoint (text : List UInt8) (p : Nat) : Option Nat := (utf8CodePointLength text p).map (p + ·)

theorem lt_utf8ForwardCodePoint {text : List UInt8} {p p' : Nat} (h : utf8ForwardCodePoint text p = some p') :
    p < p' ∧ p < text.length := by
  unfold utf8ForwardCodePoint utf8CodePointLength at h
  cases hp : text[p]? with
  | none => simp [hp] at h
  | some c =>
    have hlt := (List.getElem?_eq_some_iff.1 hp).1
    simp only [hp, Option.map_some, Option.some.injEq] at h
    omega

/-- The loop of `utf8BackCodePointSafe`, which leaves `p` at the last byte that is not a trail byte, or at `begin`. -/
def backLoop (text : List UInt8) : Nat → Nat
  | 0 => 0
  | p + 1 => if isTrail (text.getD p 0) then backLoop text p else p

def utf8BackCodePointSafe (text : List UInt8) (p : Nat) : Option Nat :=
  if isTrail (text.getD (backLoop text p) 0) then none else some (backLoop text p)

def utf8StringEnd (text : List UInt8) (e : Nat) : Nat :=
  if e = 0 then e
  else match utf8BackCodePointSafe text e with
    | none => e
    | some p => if utf8CodePointLength text p = some (e - p) then e else p

/-! ### Counting units -/

/-- The step of `n` and of `d`, `(*it > 0xFFFF) ? 2 : 1`. -/
def step (cp : UInt32) : UInt64 := if 0xffff < cp then 2 else 1

/-- `u16::advance(first, n)` from `it` on, `none` when it reads behind the text. -/
def advance (text : List UInt8) (it : Nat) (n : UInt64) : Option Nat :=
  if n = 0 then some it
  else match utf8ToCodePointUnsafe text it with
    | none => none
    | some cp =>
      match _h : utf8ForwardCodePoint text it with
      | none => none
      | some it' => advance text it' (n - step cp)
  termination_by text.length - it
  decreasing_by
    have := lt_utf8ForwardCodePoint _h
    omega

/-- The loop of `u16::advance(first, n, last)`. -/
def advanceLoop (text : List UInt8) (e it : Nat) (n : UInt64) : Option Nat :=
  if n = 0 ∨ it = e then some it
  else match utf8ToCodePointUnsafe text it with
    | none => none
    | some cp =>
      match _h : utf8ForwardCodePoint text it with
      | none => none
      | some it' => advanceLoop text e it' (n - step cp)
  termination_by text.length - it
  decreasing_by
    have := lt_utf8ForwardCodePoint _h
    omega

/-- `u16::advance(first, n, last)`. -/
def advanceTo (text : List UInt8) (n : UInt64) (last : Nat) : Option Nat := advanceLoop text (utf8StringEnd text last) 0 n

/-- The loop of `u16::distance`. -/
def distanceLoop (text : List UInt8) (e it : Nat) (d : UInt64) : Option UInt64 :=
  if it = e then some d
  else match utf8ToCodePointUnsafe text it with
    | none => none
    | some cp =>
      match _h : utf8ForwardCodePoint text it with
      | none => none
      | some it' => distanceLoop text e it' (d + step cp)
  termination_by text.length - it
  decreasing_by
    have := lt_utf8ForwardCodePoint _h
    omega

/-- `u16::distance(first, last)`. -/
def distance (text : List UInt8) (last : Nat) : Option UInt64 := distanceLoop text (utf8StringEnd text last) 0 0

/-- The UTF-16 units of a text. -/
def units (cs : List Char) : Nat := (cs.map fun c => if 0xffff < c.val.toNat then 2 else 1).sum

/-! ### The shape of an encoding -/

theorem isTrail_trailByte {a : Nat} (ha : a < 64) : isTrail (trailByte a) = true := by
  rw [isTrail, (trailByte_facts ha).1]
  rfl

theorem codePointToUtf8_shape (c : Char) :
    ∃ b trails, codePointToUtf8 c.val = b :: trails ∧ isTrail b = false ∧ (∀ x ∈ trails, isTrail x = true) ∧
      trails.length = countTrailBytesUnsafe b := by
  have hvalid := toNat_val_cases c
  by_cases h1 : c.val.toNat < 0x80
  · have hall : ∀ n : Fin 128, isTrail (UInt8.ofNat n) = false ∧ countTrailBytesUnsafe (UInt8.ofNat n) = 0 := by decide +kernel
    obtain ⟨hlead, hcount⟩ := hall ⟨c.val.toNat, h1⟩
    exact ⟨_, [], codePointToUtf8_one h1, hlead, by simp, hcount.symm⟩
  by_cases h2 : c.val.toNat < 0x800
  · have hall : ∀ n : Fin 32, isTrail (lead2 n) = false ∧ countTrailBytesUnsafe (lead2 n) = 1 := by decide +kernel
    obtain ⟨hlead, hcount⟩ := hall ⟨c.val.toNat / 64, by omega⟩
    refine ⟨_, _, codePointToUtf8_two (Nat.not_lt.1 h1) h2, hlead, ?_, hcount.symm⟩
    simp only [List.mem_cons, List.not_mem_nil, or_false, forall_eq]
    exact isTrail_trailByte (by omega)
  by_cases h3 : c.val.toNat < 0x10000
  · have hall : ∀ n : Fin 16, isTrail (lead3 n) = false ∧ countTrailBytesUnsafe (lead3 n) = 2 := by decide +kernel
    obtain ⟨hlead, hcount⟩ := hall ⟨c.val.toNat / 4096, by omega⟩
    refine ⟨_, _, codePointToUtf8_three (Nat.not_lt.1 h2) h3, hlead, ?_, hcount.symm⟩
    simp only [List.mem_cons, List.not_mem_nil, or_false, forall_eq_or_imp, forall_eq]
    exact ⟨isTrail_trailByte (by omega), isTrail_trailByte (by omega)⟩
  · have hall : ∀ n : Fin 8, isTrail (lead4 n) = false ∧ countTrailBytesUnsafe (lead4 n) = 3 := by decide +kernel
    obtain ⟨hlead, hcount⟩ := hall ⟨c.val.toNat / 262144, by omega⟩
    refine ⟨_, _, codePointToUtf8_four (Nat.not_lt.1 h3) (by omega), hlead, ?_, hcount.symm⟩
    simp only [List.mem_cons, List.not_mem_nil, or_false, forall_eq_or_imp, forall_eq]
    exact ⟨isTrail_trailByte (by omega), isTrail_trailByte (by omega), isTrail_trailByte (by omega)⟩

theorem utf8CodePointLength_encoded (before rest : List UInt8) (c : Char) :
    utf8CodePointLength (before ++ (codePointToUtf8 c.val ++ rest)) before.length = some (codePointToUtf8 c.val).length := by
  obtain ⟨b, trails, henc, -, -, hcount⟩ := codePointToUtf8_shape c
  have hb : (before ++ (codePointToUtf8 c.val ++ rest))[before.length]? = some b := by
    rw [henc]
    exact getElem?_behind before _ 0
  rw [utf8CodePointLength, hb, henc, Option.map_some, List.length_cons, hcount, Nat.add_comm]

theorem utf8ForwardCodePoint_encoded (before rest : List UInt8) (c : Char) :
    utf8ForwardCodePoint (before ++ (codePointToUtf8 c.val ++ rest)) before.length =
      some (before ++ codePointToUtf8 c.val).length := by
  rw [utf8ForwardCodePoint, utf8CodePointLength_encoded, List.length_append]
  rfl

/-! ### The end of a text -/

theorem backLoop_trails (before trails rest : List UInt8) {b : UInt8} (hb : isTrail b = false)
    (htrails : ∀ x ∈ trails, isTrail x = true) :
    backLoop (before ++ (b :: trails ++ rest)) (before.length + (trails.length + 1)) = before.length := by
  induction trails using List.reverseRecOn generalizing rest with
  | nil =>
    have hget : (before ++ ([b] ++ rest)).getD before.length 0 = b := getD_behind before ([b] ++ rest) 0
    rw [List.length_nil, backLoop, hget, if_neg (by simp [hb])]
  | append_singleton trails x ih =>
    have hget : (before ++ (b :: (trails ++ [x]) ++ rest)).getD (before.length + (trails.length + 1)) 0 = x := by
      rw [getD_behind]
      simp
    rw [List.length_append, List.length_singleton, ← Nat.add_assoc, backLoop, hget, if_pos (htrails x (by simp)),
      show b :: (trails ++ [x]) ++ rest = b :: trails ++ (x :: rest) by simp]
    exact ih (x :: rest) fun y hy => htrails y (List.mem_append_left [x] hy)

theorem utf8StringEnd_behind (before rest : List UInt8) (c : Char) :
    utf8StringEnd (before ++ (codePointToUtf8 c.val ++ rest)) (before ++ codePointToUtf8 c.val).length =
      (before ++ codePointToUtf8 c.val).length := by
  have hlen := utf8CodePointLength_encoded before rest c
  obtain ⟨b, trails, henc, hb, htrails, -⟩ := codePointToUtf8_shape c
  have hback : backLoop (before ++ (codePointToUtf8 c.val ++ rest)) (before ++ codePointToUtf8 c.val).length = before.length := by
    rw [henc, List.length_append]
    exact backLoop_trails before trails rest hb htrails
  have hget : (before ++ (codePointToUtf8 c.val ++ rest)).getD before.length 0 = b := by
    rw [henc]
    exact getD_behind before _ 0
  have hsafe : utf8BackCodePointSafe (before ++ (codePointToUtf8 c.val ++ rest)) (before ++ codePointToUtf8 c.val).length =
      some before.length := by
    rw [utf8BackCodePointSafe, hback, hget, if_neg (by simp [hb])]
  have hpos := codePointToUtf8_length_pos c
  rw [utf8StringEnd, if_neg (by rw [List.length_append]; omega), hsafe]
  simp only
  rw [if_pos]
  rw [hlen, List.length_append, Nat.add_sub_cancel_left]

theorem utf8StringEnd_boundary (cs ds : List Char) :
    utf8StringEnd (encode (cs ++ ds)) (encode cs).length = (encode cs).length := by
  induction cs using List.reverseRecOn with
  | nil => rfl
  | append_singleton cs c _ =>
    have henc : encode (cs ++ [c]) = encode cs ++ codePointToUtf8 c.val := by
      rw [encode_append, encode_cons]
      simp [encode]
    rw [encode_append, henc, List.append_assoc]
    exact utf8StringEnd_behind (encode cs) (encode ds) c

/-! ### One code point of a loop -/

/-- The units of one code point. -/
def unit (c : Char) : Nat := if 0xffff < c.val.toNat then 2 else 1

theorem units_cons (c : Char) (cs : List Char) : units (c :: cs) = unit c + units cs := by
  rw [units, List.map_cons, List.sum_cons]
  rfl

theorem units_append (cs ds : List Char) : units (cs ++ ds) = units cs + units ds := by
  rw [units, List.map_append, List.sum_append]
  rfl

theorem unit_pos (c : Char) : 0 < unit c := by
  unfold unit
  split_ifs <;> omega

theorem unit_le_two (c : Char) : unit c ≤ 2 := by
  unfold unit
  split_ifs <;> omega

theorem toNat_step (c : Char) : (step c.val).toNat = unit c := by
  have hiff : 0xffff < c.val ↔ 0xffff < c.val.toNat := UInt32.lt_iff_toNat_lt
  unfold step unit
  by_cases h : 0xffff < c.val
  · rw [if_pos h, if_pos (hiff.1 h)]
    rfl
  · rw [if_neg h, if_neg (mt hiff.2 h)]
    rfl

section Loops

variable (before rest : List UInt8) (c : Char)

theorem advance_encoded {n : UInt64} (hn : n ≠ 0) :
    advance (before ++ (codePointToUtf8 c.val ++ rest)) before.length n =
      advance (before ++ codePointToUtf8 c.val ++ rest) (before ++ codePointToUtf8 c.val).length (n - step c.val) := by
  rw [advance, if_neg hn, utf8ToCodePointUnsafe_encoded, List.append_assoc]
  simp only
  split
  · next h => rw [utf8ForwardCodePoint_encoded] at h; cases h
  · next it' h =>
    rw [utf8ForwardCodePoint_encoded] at h
    cases h
    rfl

theorem advanceLoop_encoded {n : UInt64} {e : Nat} (hn : n ≠ 0) (he : before.length ≠ e) :
    advanceLoop (before ++ (codePointToUtf8 c.val ++ rest)) e before.length n =
      advanceLoop (before ++ codePointToUtf8 c.val ++ rest) e (before ++ codePointToUtf8 c.val).length (n - step c.val) := by
  rw [advanceLoop, if_neg (not_or.2 ⟨hn, he⟩), utf8ToCodePointUnsafe_encoded, List.append_assoc]
  simp only
  split
  · next h => rw [utf8ForwardCodePoint_encoded] at h; cases h
  · next it' h =>
    rw [utf8ForwardCodePoint_encoded] at h
    cases h
    rfl

theorem distanceLoop_encoded (d : UInt64) {e : Nat} (he : before.length ≠ e) :
    distanceLoop (before ++ (codePointToUtf8 c.val ++ rest)) e before.length d =
      distanceLoop (before ++ codePointToUtf8 c.val ++ rest) e (before ++ codePointToUtf8 c.val).length (d + step c.val) := by
  rw [distanceLoop, if_neg he, utf8ToCodePointUnsafe_encoded, List.append_assoc]
  simp only
  split
  · next h => rw [utf8ForwardCodePoint_encoded] at h; cases h
  · next it' h =>
    rw [utf8ForwardCodePoint_encoded] at h
    cases h
    rfl

end Loops

/-! ### Whole loops -/

theorem toNat_sub_step {c : Char} {n : UInt64} (hn : unit c ≤ n.toNat) : (n - step c.val).toNat = n.toNat - unit c := by
  rw [UInt64.toNat_sub_of_le _ _ (UInt64.le_iff_toNat_le.2 (by rw [toNat_step]; exact hn)), toNat_step]

theorem ne_zero_of_toNat_pos {n : UInt64} (h : 0 < n.toNat) : n ≠ 0 := by
  rintro rfl
  exact absurd h (by decide)

theorem boundary_succ (c : Char) (cs : List Char) (k : Nat) :
    boundary (c :: cs) (k + 1) = (codePointToUtf8 c.val).length + boundary cs k := by
  rw [boundary, List.take_succ_cons, encode_cons, List.length_append]
  rfl

theorem advance_boundary (before : List UInt8) (cs : List Char) {k : Nat} (hk : k ≤ cs.length) {n : UInt64}
    (hn : n.toNat = units (cs.take k)) : advance (before ++ encode cs) before.length n = some (before.length + boundary cs k) := by
  induction cs generalizing before k n with
  | nil =>
    have hzero : n = 0 := UInt64.toNat_inj.1 (by rw [hn, List.take_nil]; rfl)
    rw [advance, if_pos hzero]
    simp [boundary, encode]
  | cons c cs ih =>
    cases k with
    | zero =>
      have hzero : n = 0 := UInt64.toNat_inj.1 hn
      rw [advance, if_pos hzero]
      rfl
    | succ k =>
      rw [List.take_succ_cons, units_cons] at hn
      have hpos := unit_pos c
      have hsub := toNat_sub_step (c := c) (n := n) (by omega)
      rw [encode_cons, advance_encoded before (encode cs) c (ne_zero_of_toNat_pos (by omega)),
        ih _ (Nat.le_of_succ_le_succ hk) (by omega), boundary_succ, List.length_append, Nat.add_assoc]

theorem advanceLoop_boundary (before : List UInt8) (cs : List Char) {k : Nat} (hk : k ≤ cs.length) {n : UInt64}
    (hn : n.toNat = units (cs.take k)) :
    advanceLoop (before ++ encode cs) (before ++ encode cs).length before.length n = some (before.length + boundary cs k) := by
  induction cs generalizing before k n with
  | nil =>
    have hzero : n = 0 := UInt64.toNat_inj.1 (by rw [hn, List.take_nil]; rfl)
    rw [advanceLoop, if_pos (.inl hzero)]
    simp [boundary, encode]
  | cons c cs ih =>
    cases k with
    | zero =>
      have hzero : n = 0 := UInt64.toNat_inj.1 hn
      rw [advanceLoop, if_pos (.inl hzero)]
      rfl
    | succ k =>
      rw [List.take_succ_cons, units_cons] at hn
      have hpos := unit_pos c
      have hlen := codePointToUtf8_length_pos c
      have hsub := toNat_sub_step (c := c) (n := n) (by omega)
      rw [encode_cons, advanceLoop_encoded before (encode cs) c (ne_zero_of_toNat_pos (by omega))
        (by simp only [List.length_append]; omega), ← List.append_assoc, ih _ (Nat.le_of_succ_le_succ hk) (by omega),
        boundary_succ,
        List.length_append, Nat.add_assoc]

/-- Once the counter misses a boundary, it is not zero before the end of the text: it wraps around in a
surrogate pair. -/
theorem advance_inside (before : List UInt8) (cs : List Char) (hunits : units cs < 2 ^ 64) {n : UInt64}
    (hn : ∀ k ≤ cs.length, n.toNat ≠ units (cs.take k)) : advance (before ++ encode cs) before.length n = none := by
  induction cs generalizing before n with
  | nil =>
    have hne : n ≠ 0 := fun h => hn 0 (Nat.le_refl 0) (by rw [h]; rfl)
    rw [advance, if_neg hne]
    have houtside : utf8ToCodePointUnsafe (before ++ encode []) before.length = none := by
      simp [utf8ToCodePointUnsafe, encode]
    rw [houtside]
  | cons c cs ih =>
    have hne : n ≠ 0 := fun h => hn 0 (Nat.zero_le _) (by rw [h]; rfl)
    have hpos : 0 < n.toNat := Nat.pos_of_ne_zero fun h => hne (UInt64.toNat_inj.1 h)
    have hc := unit_le_two c
    rw [units_cons] at hunits
    rw [encode_cons, advance_encoded before (encode cs) c hne]
    refine ih _ (by omega) fun k hk heq => ?_
    have hmiss := hn (k + 1) (Nat.succ_le_succ hk)
    rw [List.take_succ_cons, units_cons] at hmiss
    have htake : units (cs.take k) ≤ units cs := by
      have := units_append (cs.take k) (cs.drop k)
      rw [List.take_append_drop] at this
      omega
    by_cases hle : unit c ≤ n.toNat
    · rw [toNat_sub_step hle] at heq
      omega
    · have hwrap : (n - step c.val).toNat = 2 ^ 64 - 1 := by
        rw [UInt64.toNat_sub, toNat_step]
        omega
      omega

theorem distanceLoop_boundary (before : List UInt8) (cs ds : List Char) (d : UInt64) :
    distanceLoop (before ++ encode (cs ++ ds)) (before ++ encode cs).length before.length d =
      some (d + UInt64.ofNat (units cs)) := by
  induction cs generalizing before d with
  | nil =>
    rw [distanceLoop, if_pos (by simp [encode])]
    simp [units]
  | cons c cs ih =>
    have hlen := codePointToUtf8_length_pos c
    have hstep : step c.val = UInt64.ofNat (unit c) := by rw [← toNat_step, UInt64.ofNat_toNat]
    rw [List.cons_append, encode_cons, encode_cons, distanceLoop_encoded before (encode (cs ++ ds)) c d
      (by simp only [List.length_append]; omega), ← List.append_assoc before, ih, units_cons, UInt64.ofNat_add, hstep,
      UInt64.add_assoc]

/-! ### The laws of the offsets -/

theorem unit_le_length (c : Char) : unit c ≤ (codePointToUtf8 c.val).length := by
  have hvalid := toNat_val_cases c
  have hpos := codePointToUtf8_length_pos c
  unfold unit
  split_ifs with h
  · rw [codePointToUtf8_four h (by omega)]
    exact Nat.le_add_left 2 2
  · exact hpos

theorem units_le_length (cs : List Char) : units cs ≤ (encode cs).length := by
  induction cs with
  | nil => exact Nat.le_refl 0
  | cons c cs ih =>
    rw [units_cons, encode_cons, List.length_append]
    exact Nat.add_le_add (unit_le_length c) ih

theorem units_take_lt {cs : List Char} {j k : Nat} (hjk : j < k) (hk : k ≤ cs.length) : units (cs.take j) < units (cs.take k) := by
  obtain ⟨c, ds, hds⟩ : ∃ c ds, (cs.take k).drop j = c :: ds := by
    cases h : (cs.take k).drop j with
    | nil =>
      have := congrArg List.length h
      rw [List.length_drop, List.length_take, List.length_nil] at this
      omega
    | cons c ds => exact ⟨c, ds, rfl⟩
  have hsplit : cs.take k = cs.take j ++ c :: ds := by
    calc cs.take k = (cs.take k).take j ++ (cs.take k).drop j := (List.take_append_drop j (cs.take k)).symm
      _ = cs.take j ++ c :: ds := by rw [List.take_take, Nat.min_eq_left (Nat.le_of_lt hjk), hds]
  have hpos := unit_pos c
  rw [hsplit, units_append, units_cons]
  omega

theorem advanceTo_boundary (cs : List Char) {k : Nat} (hk : k ≤ cs.length) {n : UInt64} (hn : n.toNat = units (cs.take k)) :
    advanceTo (encode cs) n (encode cs).length = some (boundary cs k) := by
  have hend := utf8StringEnd_boundary cs []
  rw [List.append_nil] at hend
  rw [advanceTo, hend]
  simpa using advanceLoop_boundary [] cs hk hn

theorem distance_boundary (cs : List Char) (k : Nat) :
    distance (encode cs) (boundary cs k) = some (UInt64.ofNat (units (cs.take k))) := by
  have hend := utf8StringEnd_boundary (cs.take k) (cs.drop k)
  have hloop := distanceLoop_boundary [] (cs.take k) (cs.drop k) 0
  rw [List.take_append_drop] at hend hloop
  rw [distance, boundary, hend]
  simpa using hloop

/-- Both forms of `u16::advance` go from `first` to the first boundary that is `n` units or more away. -/
def Reaches (cs : List Char) (n : UInt64) : Prop :=
  ∃ k ≤ cs.length, n.toNat ≤ units (cs.take k) ∧ (∀ j < k, units (cs.take j) < n.toNat) ∧
    advance (encode cs) 0 n = some (boundary cs k) ∧ advanceTo (encode cs) n (encode cs).length = some (boundary cs k)

theorem toNat_units {cs : List Char} (hlen : (encode cs).length < 2 ^ 64) (k : Nat) :
    (UInt64.ofNat (units (cs.take k))).toNat = units (cs.take k) := by
  have hsplit := units_append (cs.take k) (cs.drop k)
  rw [List.take_append_drop] at hsplit
  have hle := units_le_length cs
  rw [UInt64.toNat_ofNat']
  omega

/-- **Distances are exact, `advance` leads back to each boundary, and an offset in between is reached if and only if it is not
inside a surrogate pair.** Inside a pair the counter wraps around, and the form without an end leaves the text. -/
theorem utf16_offsets_exact (cs : List Char) (hlen : (encode cs).length < 2 ^ 64) :
    (∀ k ≤ cs.length, ∃ d, distance (encode cs) (boundary cs k) = some d ∧ d.toNat = units (cs.take k) ∧
      advance (encode cs) 0 d = some (boundary cs k) ∧
      advanceTo (encode cs) d (encode cs).length = some (boundary cs k)) ∧
    ∀ n : UInt64, n.toNat ≤ units cs → (Reaches cs n ↔ ∃ k ≤ cs.length, n.toNat = units (cs.take k)) := by
  refine ⟨fun k hk => ?_, fun n _ => ⟨?_, ?_⟩⟩
  · have hd := toNat_units hlen k
    refine ⟨_, distance_boundary cs k, hd, ?_, advanceTo_boundary cs hk hd⟩
    simpa using advance_boundary [] cs hk hd
  · rintro ⟨k, hk, -, -, hadvance, -⟩
    by_contra hinside
    have hinside : ∀ k ≤ cs.length, n.toNat ≠ units (cs.take k) := fun k hk h => hinside ⟨k, hk, h⟩
    have hnone : advance (encode cs) 0 n = none :=
      advance_inside [] cs (Nat.lt_of_le_of_lt (units_le_length cs) hlen) hinside
    rw [hnone] at hadvance
    cases hadvance
  · rintro ⟨k, hk, hn⟩
    refine ⟨k, hk, Nat.le_of_eq hn, fun j hj => ?_, ?_, advanceTo_boundary cs hk hn⟩
    · rw [hn]
      exact units_take_lt hj hk
    · simpa using advance_boundary [] cs hk hn

/-- Behind the pair in the middle of a text. -/
theorem utf16_offsets_exact_mixed : Reaches ['a', Char.ofNat 0x10000, 'b'] 3 :=
  ((utf16_offsets_exact ['a', Char.ofNat 0x10000, 'b'] (by decide)).2 3 (by decide)).2 ⟨2, by decide, by decide⟩

/-- One unit into `U+10000` no boundary is reached. -/
theorem inside_pair_not_reached : ¬ Reaches [Char.ofNat 0x10000] 1 := by
  rintro ⟨k, -, -, -, hadvance, -⟩
  have hnone : advance (encode [Char.ofNat 0x10000]) 0 1 = none := advance_inside [] [Char.ofNat 0x10000] (by decide) (by decide)
  rw [hnone] at hadvance
  cases hadvance

end Raster.Utf8
