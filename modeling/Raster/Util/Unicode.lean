import Mathlib.Algebra.Group.Nat.Defs
import Mathlib.Algebra.GroupWithZero.Nat
import Mathlib.Data.List.TakeWhile
import Mathlib.Logic.Function.Basic
import Mathlib.Tactic.SplitIfs

/-!
# Checking and repairing UTF-8

The macros of `raster/util/Unicode.h`, `utf8StringIsValid` and `utf8StringRemoveMalformed`. A text is read as single
bytes, lead bytes with all their trail bytes, lead bytes without, and bytes that are neither. The repair drops the last
two kinds. The check has no case for the last kind, and passes over it.
-/

namespace Raster.Utf8

/-- `U8_IS_SINGLE`. -/
def isSingle (c : UInt8) : Bool := c &&& 0x80 == 0

/-- `U8_IS_LEAD`. -/
def isLead (c : UInt8) : Bool := c - 0xc0 < 0x3e

/-- `U8_IS_TRAIL`. -/
def isTrail (c : UInt8) : Bool := c &&& 0xc0 == 0x80

/-- `U8_COUNT_TRAIL_BYTES`. -/
def countTrailBytes (c : UInt8) : Nat :=
  if c < 0xf0 then (if 0xc0 ≤ c then 1 else 0) + (if 0xe0 ≤ c then 1 else 0)
  else if c < 0xfe then 3 + (if 0xf8 ≤ c then 1 else 0) + (if 0xfc ≤ c then 1 else 0)
  else 0

/-! ### The check -/

/-- The loop over at most `count` trail bytes: how many are missing, and the text behind them. -/
def skipTrail : Nat → List UInt8 → Nat × List UInt8
  | 0, p => (0, p)
  | count + 1, [] => (count + 1, [])
  | count + 1, c :: p => if isTrail c then skipTrail count p else (count + 1, c :: p)

/-- `utf8ForwardCodePointSafe` at the byte `c` with the text `p` behind it, `none` for `nullptr`. -/
def utf8ForwardCodePointSafe (c : UInt8) (p : List UInt8) : Option (List UInt8) :=
  if isLead c then
    if p.length < countTrailBytes c then none
    else if 0 < (skipTrail (countTrailBytes c) p).1 then none
    else some (skipTrail (countTrailBytes c) p).2
  else some p

theorem skipTrail_eq (count : Nat) (p : List UInt8) :
    skipTrail count p = (count - ((p.take count).takeWhile isTrail).length, p.drop ((p.take count).takeWhile isTrail).length) := by
  induction count generalizing p with
  | zero => simp [skipTrail]
  | succ count ih =>
    cases p with
    | nil => simp [skipTrail]
    | cons c p =>
      rw [skipTrail, List.take_succ_cons]
      by_cases hc : isTrail c = true
      · rw [if_pos hc, ih, List.takeWhile_cons_of_pos hc]
        simp
      · rw [if_neg hc, List.takeWhile_cons_of_neg hc]
        simp

theorem length_forward_le {c : UInt8} {p p' : List UInt8} (h : utf8ForwardCodePointSafe c p = some p') : p'.length ≤ p.length := by
  unfold utf8ForwardCodePointSafe at h
  split_ifs at h with hlead hshort hmissing
  · cases h
    rw [skipTrail_eq, List.length_drop]
    exact Nat.sub_le _ _
  · cases h
    exact Nat.le_refl _

def utf8StringIsValid : List UInt8 → Bool
  | [] => true
  | c :: p =>
    match _h : utf8ForwardCodePointSafe c p with
    | none => false
    | some p' => utf8StringIsValid p'
  termination_by s => s.length
  decreasing_by exact Nat.lt_succ_of_le (length_forward_le _h)

/-! ### The repair, in place -/

/-- The bytes of a string. -/
abbrev Memory := Nat → UInt8

/-- `std::copy` of `n` bytes, one after the other. -/
def copy : (n src dst : Nat) → Memory → Memory
  | 0, _, _, mem => mem
  | n + 1, src, dst, mem => copy n (src + 1) (dst + 1) (Function.update mem dst (mem src))

/-- The loop over at most `count` trail bytes from `p` on: how many are missing, and where it ends. -/
def skipTrailAt (mem : Memory) (e : Nat) : Nat → Nat → Nat × Nat
  | 0, p => (0, p)
  | count + 1, p => if p ≠ e ∧ isTrail (mem p) then skipTrailAt mem e count (p + 1) else (count + 1, p)

theorem le_skipTrailAt (mem : Memory) (e count p : Nat) : p ≤ (skipTrailAt mem e count p).2 := by
  induction count generalizing p with
  | zero => exact Nat.le_refl p
  | succ count ih =>
    rw [skipTrailAt]
    split_ifs
    · exact Nat.le_of_succ_le (ih (p + 1))
    · exact Nat.le_refl p

/-- The loops of `utf8StringRemoveMalformed`: each turn is one of the inner loop, or what follows its `break`. -/
def removeLoop (e dst lead : Nat) (mem : Memory) : Nat × Memory :=
  if lead < e then
    if isSingle (mem lead) then removeLoop e (dst + 1) (lead + 1) (copy 1 lead dst mem)
    else if isLead (mem lead) then
      let skipped := skipTrailAt mem e (countTrailBytes (mem lead)) (lead + 1)
      if skipped.1 = 0 then removeLoop e (dst + (skipped.2 - lead)) skipped.2 (copy (skipped.2 - lead) lead dst mem)
      else removeLoop e dst skipped.2 mem
    else removeLoop e dst (lead + 1) mem
  else (dst, mem)
  termination_by e - lead
  decreasing_by
    all_goals
      have := le_skipTrailAt mem e (countTrailBytes (mem lead)) (lead + 1)
      omega

def utf8StringRemoveMalformed (s : List UInt8) : List UInt8 :=
  let removed := removeLoop s.length 0 0 fun i => s.getD i 0
  (List.range removed.1).map removed.2

/-! ### The pieces of a text -/

/-- What a text is made of. -/
inductive Piece
  | single (c : UInt8)
  | whole (c : UInt8) (trails : List UInt8)
  | stray (c : UInt8)
  | broken (c : UInt8) (trails : List UInt8)
  deriving DecidableEq, Repr

namespace Piece

def bytes : Piece → List UInt8
  | single c => [c]
  | whole c trails => c :: trails
  | stray c => [c]
  | broken c trails => c :: trails

/-- A single byte, or a lead byte with its full number of trail bytes. -/
def isWhole : Piece → Bool
  | single c => isSingle c
  | whole c trails => isLead c && trails.length == countTrailBytes c && trails.all isTrail
  | _ => false

def isBroken : Piece → Bool
  | broken _ _ => true
  | _ => false

/-- A trail byte without a lead byte, or a byte that is never in a text. -/
def isStray : Piece → Bool
  | stray _ => true
  | _ => false

end Piece

/-- The trail bytes that a lead byte has. -/
def trailsOf (c : UInt8) (p : List UInt8) : List UInt8 := (p.take (countTrailBytes c)).takeWhile isTrail

def nextPiece (c : UInt8) (p : List UInt8) : Piece :=
  if isSingle c then .single c
  else if isLead c then
    if (trailsOf c p).length = countTrailBytes c then .whole c (trailsOf c p) else .broken c (trailsOf c p)
  else .stray c

def pieces : List UInt8 → List Piece
  | [] => []
  | c :: p => nextPiece c p :: pieces (p.drop ((nextPiece c p).bytes.length - 1))
  termination_by s => s.length
  decreasing_by
    rw [List.length_drop, List.length_cons]
    omega

theorem trailsOf_initial (c : UInt8) (p : List UInt8) : trailsOf c p <+: p :=
  (List.takeWhile_prefix isTrail).trans (List.take_prefix (countTrailBytes c) p)

theorem length_trailsOf_le (c : UInt8) (p : List UInt8) : (trailsOf c p).length ≤ countTrailBytes c :=
  ((List.takeWhile_prefix isTrail).length_le).trans (List.length_take_le (countTrailBytes c) p)

theorem nextPiece_append (c : UInt8) (p : List UInt8) :
    (nextPiece c p).bytes ++ p.drop ((nextPiece c p).bytes.length - 1) = c :: p := by
  have htrails : trailsOf c p ++ p.drop (trailsOf c p).length = p := List.prefix_iff_eq_append.1 (trailsOf_initial c p)
  unfold nextPiece
  split_ifs <;> simp [Piece.bytes, htrails]

theorem flatMap_pieces (s : List UInt8) : (pieces s).flatMap Piece.bytes = s := by
  induction s using pieces.induct with
  | case1 => rw [pieces, List.flatMap_nil]
  | case2 c p ih => rw [pieces, List.flatMap_cons, ih, nextPiece_append]

theorem isLead_eq_false_of_isSingle {c : UInt8} (h : isSingle c = true) : isLead c = false := by
  have hall : ∀ n : Fin 256, isSingle (UInt8.ofNat n) = true → isLead (UInt8.ofNat n) = false := by decide +kernel
  have := hall ⟨c.toNat, c.toNat_lt⟩
  rw [UInt8.ofNat_toNat] at this
  exact this h

/-! ### The check finds the broken sequences -/

theorem forward_eq (c : UInt8) (p : List UInt8) :
    utf8ForwardCodePointSafe c p =
      if (nextPiece c p).isBroken then none else some (p.drop ((nextPiece c p).bytes.length - 1)) := by
  unfold utf8ForwardCodePointSafe nextPiece
  have hle := length_trailsOf_le c p
  have hlen := (trailsOf_initial c p).length_le
  rw [skipTrail_eq]
  change (if isLead c = true then if p.length < countTrailBytes c then none
      else if 0 < countTrailBytes c - (trailsOf c p).length then none else some (p.drop (trailsOf c p).length)
    else some p) = _
  by_cases hsingle : isSingle c = true
  · simp [hsingle, isLead_eq_false_of_isSingle hsingle, Piece.isBroken, Piece.bytes]
  · rw [if_neg hsingle]
    by_cases hlead : isLead c = true
    · rw [if_pos hlead, if_pos hlead]
      by_cases hfull : (trailsOf c p).length = countTrailBytes c
      · rw [if_pos hfull, if_neg (by omega), if_neg (by omega)]
        rfl
      · rw [if_neg hfull, if_pos (show 0 < countTrailBytes c - (trailsOf c p).length by omega)]
        simp [Piece.isBroken]
    · rw [if_neg hlead, if_neg hlead]
      rfl

theorem isValid_iff (s : List UInt8) : utf8StringIsValid s = true ↔ ∀ q ∈ pieces s, q.isBroken = false := by
  induction s using pieces.induct with
  | case1 => simp [utf8StringIsValid, pieces]
  | case2 c p ih =>
    rw [utf8StringIsValid, pieces, List.forall_mem_cons, ← ih]
    have hforward := forward_eq c p
    cases hb : (nextPiece c p).isBroken with
    | true =>
      rw [hb, if_pos rfl] at hforward
      split <;> simp_all
    | false =>
      rw [hb, if_neg Bool.false_ne_true] at hforward
      split <;> simp_all

/-! ### The repair keeps the whole sequences -/

/-- The whole sequences of a text, in their order. -/
def kept (s : List UInt8) : List UInt8 := ((pieces s).filter Piece.isWhole).flatMap Piece.bytes

/-- The memory holds the text from `start` on. -/
def Holds (mem : Memory) (start : Nat) (rest : List UInt8) : Prop := ∀ i (h : i < rest.length), mem (start + i) = rest[i]

theorem Holds.drop {mem : Memory} {start : Nat} {rest : List UInt8} (h : Holds mem start rest) (k : Nat) :
    Holds mem (start + k) (rest.drop k) := by
  intro i hi
  rw [List.length_drop] at hi
  rw [List.getElem_drop, Nat.add_assoc]
  exact h (k + i) (by omega)

theorem copy_of_le (n src dst : Nat) (mem : Memory) {i : Nat} (hi : dst + n ≤ i) : copy n src dst mem i = mem i := by
  induction n generalizing src dst mem with
  | zero => rfl
  | succ n ih =>
    rw [copy, ih _ _ _ (by omega)]
    exact Function.update_of_ne (by omega) _ _

theorem copy_of_lt (n src dst : Nat) (mem : Memory) {i : Nat} (hi : i < dst) : copy n src dst mem i = mem i := by
  induction n generalizing src dst mem with
  | zero => rfl
  | succ n ih =>
    rw [copy, ih _ _ _ (by omega)]
    exact Function.update_of_ne (by omega) _ _

theorem copy_apply (n src dst : Nat) (mem : Memory) (hle : dst ≤ src) {i : Nat} (hi : i < n) :
    copy n src dst mem (dst + i) = mem (src + i) := by
  induction n generalizing src dst mem i with
  | zero => omega
  | succ n ih =>
    rw [copy]
    cases i with
    | zero => rw [copy_of_lt _ _ _ _ (by omega), Nat.add_zero, Nat.add_zero, Function.update_self]
    | succ i =>
      rw [show dst + (i + 1) = dst + 1 + i by omega, ih _ _ _ (by omega) (by omega),
        Function.update_of_ne (by omega), show src + (i + 1) = src + 1 + i by omega]

theorem map_range_copy (n src dst : Nat) (mem : Memory) (rest : List UInt8) (hle : dst ≤ src) (hn : n ≤ rest.length)
    (hmem : Holds mem src rest) :
    (List.range (dst + n)).map (copy n src dst mem) = (List.range dst).map mem ++ rest.take n := by
  rw [List.range_add, List.map_append, List.map_map]
  congr 1
  · exact List.map_congr_left fun i hi => copy_of_lt n src dst mem (List.mem_range.1 hi)
  · refine List.ext_getElem (by simp [hn]) fun i h₁ h₂ => ?_
    have hi : i < n := by simpa using h₁
    rw [List.getElem_map, List.getElem_range, List.getElem_take, Function.comp_apply, copy_apply n src dst mem hle hi]
    exact hmem i (by omega)

theorem Holds.copy {mem : Memory} {start : Nat} {rest : List UInt8} (h : Holds mem start rest) {n dst : Nat} (hle : dst ≤ start) :
    Holds (copy n start dst mem) (start + n) (rest.drop n) := by
  intro i hi
  rw [copy_of_le n start dst mem (by omega)]
  exact h.drop n i hi

theorem skipTrailAt_eq (mem : Memory) (count start : Nat) (rest : List UInt8) (h : Holds mem start rest) :
    skipTrailAt mem (start + rest.length) count start =
      (count - ((rest.take count).takeWhile isTrail).length, start + ((rest.take count).takeWhile isTrail).length) := by
  induction count generalizing start rest with
  | zero => simp [skipTrailAt]
  | succ count ih =>
    rw [skipTrailAt]
    cases rest with
    | nil => simp
    | cons c rest =>
      have hc : mem start = c := h 0 (Nat.succ_pos _)
      have hrest : Holds mem (start + 1) rest := h.drop 1
      rw [hc, List.take_succ_cons]
      by_cases htrail : isTrail c = true
      · rw [if_pos ⟨by simp, htrail⟩, List.takeWhile_cons_of_pos htrail,
          show start + (c :: rest).length = start + 1 + rest.length by rw [List.length_cons]; omega, ih _ _ hrest]
        simp only [List.length_cons, Prod.mk.injEq]
        omega
      · rw [if_neg fun hif => htrail hif.2, List.takeWhile_cons_of_neg htrail]
        simp

theorem kept_cons (c : UInt8) (p : List UInt8) :
    kept (c :: p) = (if (nextPiece c p).isWhole then (nextPiece c p).bytes else []) ++
      kept (p.drop ((nextPiece c p).bytes.length - 1)) := by
  rw [kept, pieces, List.filter_cons]
  split_ifs
  · rw [List.flatMap_cons]
    rfl
  · rfl

theorem all_isTrail_trailsOf (c : UInt8) (p : List UInt8) : (trailsOf c p).all isTrail = true :=
  List.all_eq_true.2 fun _ hx => List.mem_takeWhile_imp hx

theorem removeLoop_cons (e dst lead : Nat) (mem : Memory) (c : UInt8) (p : List UInt8) (he : e = lead + (c :: p).length)
    (hmem : Holds mem lead (c :: p)) :
    removeLoop e dst lead mem =
      if (nextPiece c p).isWhole then
        removeLoop e (dst + (nextPiece c p).bytes.length) (lead + (nextPiece c p).bytes.length)
          (copy (nextPiece c p).bytes.length lead dst mem)
      else removeLoop e dst (lead + (nextPiece c p).bytes.length) mem := by
  have hc : mem lead = c := hmem 0 (Nat.succ_pos _)
  have hskip : skipTrailAt mem e (countTrailBytes c) (lead + 1) =
      (countTrailBytes c - (trailsOf c p).length, lead + 1 + (trailsOf c p).length) := by
    rw [he, show lead + (c :: p).length = lead + 1 + p.length by rw [List.length_cons]; omega]
    exact skipTrailAt_eq mem (countTrailBytes c) (lead + 1) p (hmem.drop 1)
  have hle := length_trailsOf_le c p
  rw [removeLoop, if_pos (show lead < e by rw [he, List.length_cons]; omega), hc]
  unfold nextPiece
  by_cases hsingle : isSingle c = true
  · simp [hsingle, Piece.isWhole, Piece.bytes]
  rw [if_neg hsingle, if_neg hsingle]
  by_cases hlead : isLead c = true
  · rw [if_pos hlead, if_pos hlead]
    simp only [hskip]
    by_cases hfull : (trailsOf c p).length = countTrailBytes c
    · rw [if_pos (show countTrailBytes c - (trailsOf c p).length = 0 by omega), if_pos hfull,
        show lead + 1 + (trailsOf c p).length - lead = (trailsOf c p).length + 1 by omega,
        show lead + 1 + (trailsOf c p).length = lead + ((trailsOf c p).length + 1) by omega]
      simp [Piece.isWhole, Piece.bytes, hlead, hfull, all_isTrail_trailsOf]
    · rw [if_neg (show countTrailBytes c - (trailsOf c p).length ≠ 0 by omega), if_neg hfull,
        show lead + 1 + (trailsOf c p).length = lead + ((trailsOf c p).length + 1) by omega]
      simp [Piece.isWhole, Piece.bytes]
  · rw [if_neg hlead, if_neg hlead]
    simp [Piece.isWhole, Piece.bytes]

theorem removeLoop_eq (s : List UInt8) (e dst lead : Nat) (mem : Memory) (he : e = lead + s.length) (hto : dst ≤ lead)
    (hmem : Holds mem lead s) :
    (List.range (removeLoop e dst lead mem).1).map (removeLoop e dst lead mem).2 = (List.range dst).map mem ++ kept s := by
  induction s using pieces.induct generalizing dst lead mem with
  | case1 =>
    rw [removeLoop, if_neg (by simp [he])]
    simp [kept, pieces]
  | case2 c p ih =>
    have happend := nextPiece_append c p
    have hlen : (nextPiece c p).bytes.length + (p.drop ((nextPiece c p).bytes.length - 1)).length = p.length + 1 := by
      rw [← List.length_append, happend, List.length_cons]
    have hdrop : (c :: p).drop (nextPiece c p).bytes.length = p.drop ((nextPiece c p).bytes.length - 1) := by
      rw [← happend, List.drop_left]
    have he' : e = lead + (nextPiece c p).bytes.length + (p.drop ((nextPiece c p).bytes.length - 1)).length := by
      rw [he, List.length_cons]
      omega
    have htake : (c :: p).take (nextPiece c p).bytes.length = (nextPiece c p).bytes := by
      rw [← happend, List.take_left]
    rw [removeLoop_cons e dst lead mem c p he hmem, kept_cons]
    by_cases hwhole : (nextPiece c p).isWhole = true
    · rw [if_pos hwhole, if_pos hwhole, ih _ _ _ he' (by omega) (hdrop ▸ hmem.copy hto),
        map_range_copy _ lead dst mem (c :: p) hto (by rw [List.length_cons]; omega) hmem, htake, List.append_assoc]
    · rw [if_neg hwhole, if_neg hwhole, ih _ _ _ he' (by omega) (hdrop ▸ hmem.drop _), List.nil_append]

theorem remove_eq_kept (s : List UInt8) : utf8StringRemoveMalformed s = kept s := by
  have hmem : Holds (fun i => s.getD i 0) 0 s := by
    intro i hi
    simp [hi]
  have := removeLoop_eq s s.length 0 0 (fun i => s.getD i 0) (by simp) (Nat.le_refl 0) hmem
  simpa [utf8StringRemoveMalformed] using this

/-! ### Repairing twice -/

theorem nextPiece_of_isWhole {q : Piece} (hq : q.isWhole = true) (rest : List UInt8) :
    ∃ c p, q.bytes ++ rest = c :: p ∧ nextPiece c p = q := by
  cases q with
  | single c =>
    refine ⟨c, rest, rfl, ?_⟩
    rw [nextPiece, if_pos (show isSingle c = true from hq)]
  | whole c trails =>
    obtain ⟨⟨hlead, hlen⟩, htrails⟩ : (isLead c = true ∧ trails.length = countTrailBytes c) ∧ trails.all isTrail = true := by
      simpa [Piece.isWhole] using hq
    have hsingle : ¬ isSingle c = true := by
      intro hsingle
      rw [isLead_eq_false_of_isSingle hsingle] at hlead
      cases hlead
    have hof : trailsOf c (trails ++ rest) = trails := by
      rw [trailsOf, ← hlen, List.take_left, List.takeWhile_eq_self_iff.2 fun x hx => List.all_eq_true.1 htrails x hx]
    refine ⟨c, trails ++ rest, rfl, ?_⟩
    rw [nextPiece, if_neg hsingle, if_pos hlead, hof, if_pos hlen]
  | stray c => cases hq
  | broken c trails => cases hq

theorem pieces_flatMap (qs : List Piece) (h : ∀ q ∈ qs, q.isWhole = true) : pieces (qs.flatMap Piece.bytes) = qs := by
  induction qs with
  | nil => rw [List.flatMap_nil, pieces]
  | cons q qs ih =>
    obtain ⟨hq, hqs⟩ := List.forall_mem_cons.1 h
    obtain ⟨c, p, hcons, hnext⟩ := nextPiece_of_isWhole hq (qs.flatMap Piece.bytes)
    have hrest : p.drop ((nextPiece c p).bytes.length - 1) = qs.flatMap Piece.bytes := by
      have happend := nextPiece_append c p
      rw [← hcons, hnext] at happend
      rw [hnext]
      exact List.append_cancel_left happend
    rw [List.flatMap_cons, hcons, pieces, hrest, ih hqs, hnext]

theorem isBroken_eq_false_of_isWhole {q : Piece} (h : q.isWhole = true) : q.isBroken = false := by
  cases q with
  | broken c trails => cases h
  | _ => rfl

theorem isWhole_nextPiece (c : UInt8) (p : List UInt8) :
    (nextPiece c p).isWhole = (!(nextPiece c p).isBroken && !(nextPiece c p).isStray) := by
  unfold nextPiece
  split_ifs with hsingle hlead hfull
  · simpa [Piece.isWhole, Piece.isBroken, Piece.isStray] using hsingle
  · simp [Piece.isWhole, Piece.isBroken, Piece.isStray, hlead, hfull, all_isTrail_trailsOf]
  · rfl
  · rfl

theorem isWhole_of_mem_pieces {s : List UInt8} {q : Piece} (h : q ∈ pieces s) : q.isWhole = (!q.isBroken && !q.isStray) := by
  induction s using pieces.induct with
  | case1 => simp [pieces] at h
  | case2 c p ih =>
    rw [pieces, List.mem_cons] at h
    obtain rfl | h := h
    · exact isWhole_nextPiece c p
    · exact ih h

theorem pieces_kept (s : List UInt8) : pieces (kept s) = (pieces s).filter Piece.isWhole :=
  pieces_flatMap _ fun _ hq => (List.mem_filter.1 hq).2

theorem kept_eq_self_iff (s : List UInt8) : kept s = s ↔ ∀ q ∈ pieces s, q.isWhole = true := by
  refine ⟨fun h => ?_, fun h => ?_⟩
  · have hpieces := pieces_kept s
    rw [h] at hpieces
    exact List.filter_eq_self.1 hpieces.symm
  · rw [kept, List.filter_eq_self.2 h, flatMap_pieces]

/-- The check and the repair agree on `s`: the check accepts what the repair leaves, and the repair is a
sub-list of whole sequences that the check accepts and a second repair leaves. -/
def Agree (s : List UInt8) : Prop :=
  (utf8StringIsValid s = true ↔ utf8StringRemoveMalformed s = s) ∧
  utf8StringIsValid (utf8StringRemoveMalformed s) = true ∧
  (∃ qs : List Piece, qs.Sublist (pieces s) ∧ (∀ q ∈ qs, q.isWhole = true) ∧
    utf8StringRemoveMalformed s = qs.flatMap Piece.bytes) ∧
  utf8StringRemoveMalformed (utf8StringRemoveMalformed s) = utf8StringRemoveMalformed s

theorem isValid_remove (s : List UInt8) : utf8StringIsValid (utf8StringRemoveMalformed s) = true := by
  rw [remove_eq_kept, isValid_iff, pieces_kept]
  intro q hq
  exact isBroken_eq_false_of_isWhole (List.mem_filter.1 hq).2

theorem remove_remove (s : List UInt8) :
    utf8StringRemoveMalformed (utf8StringRemoveMalformed s) = utf8StringRemoveMalformed s := by
  rw [remove_eq_kept s, remove_eq_kept, kept_eq_self_iff, pieces_kept]
  intro q hq
  exact (List.mem_filter.1 hq).2

/-- **The check and the repair agree on exactly the texts that have a broken sequence or no stray byte.** A text is made of
its `pieces`. The check passes over a stray byte that the repair drops, so that they differ where a stray byte is the only
fault. -/
theorem validity_and_repair_agree (s : List UInt8) :
    (pieces s).flatMap Piece.bytes = s ∧
    (Agree s ↔ (∃ q ∈ pieces s, q.isBroken = true) ∨ ∀ q ∈ pieces s, q.isStray = false) := by
  have hsub : ∃ qs : List Piece, qs.Sublist (pieces s) ∧ (∀ q ∈ qs, q.isWhole = true) ∧
      utf8StringRemoveMalformed s = qs.flatMap Piece.bytes :=
    ⟨_, List.filter_sublist, fun _ hq => (List.mem_filter.1 hq).2, remove_eq_kept s⟩
  refine ⟨flatMap_pieces s, fun h => ?_, fun h => ⟨?_, isValid_remove s, hsub, remove_remove s⟩⟩
  · obtain ⟨hiff, -⟩ := h
    rw [isValid_iff, remove_eq_kept, kept_eq_self_iff] at hiff
    by_cases hbroken : ∃ q ∈ pieces s, q.isBroken = true
    · exact .inl hbroken
    · have hwhole := hiff.1 fun q hq => Bool.eq_false_iff.2 fun hb => hbroken ⟨q, hq, hb⟩
      refine .inr fun q hq => ?_
      have hkinds := isWhole_of_mem_pieces hq
      rw [hwhole q hq, eq_comm, Bool.and_eq_true, Bool.not_eq_true', Bool.not_eq_true'] at hkinds
      exact hkinds.2
  · rw [isValid_iff, remove_eq_kept, kept_eq_self_iff]
    refine ⟨fun hunbroken q hq => ?_, fun hwhole q hq => isBroken_eq_false_of_isWhole (hwhole q hq)⟩
    rcases h with ⟨q', hq', hbroken⟩ | hstray
    · rw [hunbroken q' hq'] at hbroken
      cases hbroken
    · rw [isWhole_of_mem_pieces hq, hunbroken q hq, hstray q hq]
      rfl

theorem pieces_stray : pieces [0x80] = [.stray 0x80] := by
  have hnext : nextPiece 0x80 [] = .stray 0x80 := by decide
  rw [pieces, hnext, List.drop_nil, pieces]

/-- The check accepts a trail byte without a lead byte, and the repair drops it. -/
theorem stray_trail_not_agree : ¬ Agree [0x80] := by
  rintro ⟨hiff, -⟩
  rw [isValid_iff, remove_eq_kept, kept, pieces_stray] at hiff
  revert hiff
  decide

end Raster.Utf8
