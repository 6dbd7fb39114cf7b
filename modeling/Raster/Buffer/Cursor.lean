import Raster.Buffer.IOBuf

/-!
# Reading a chain

`raster/io/Cursor.h`: a cursor stands at an offset in one buffer of a chain. `Cursor.rest` is what it
has still to read, and the operations are those of a position in one byte string.
-/

namespace Raster

/-- A cursor, with the buffers that follow the current one in the chain. -/
structure Cursor where
  crtBuf : Buf
  offset : Nat
  next : List Buf
  deriving DecidableEq, Repr

namespace Cursor

/-- The constructor: at the start of the chain. -/
def make (c : IOBuf) : Cursor := { crtBuf := c.head, offset := 0, next := c.rest }

def length (c : Cursor) : Nat := c.crtBuf.data.length - c.offset

def isAtEnd (c : Cursor) : Bool :=
  if c.offset ≠ c.crtBuf.data.length then false else c.next.all fun b => b.data.length = 0

/-- `skip`, with the loop of `skipAtMostSlow` over the buffers that follow; `none` where it throws. -/
def skip (crtBuf : Buf) (offset : Nat) : List Buf → Nat → Option Cursor
  | [], len =>
    if len ≤ crtBuf.data.length - offset then some { crtBuf, offset := offset + len, next := [] } else none
  | b :: next, len =>
    if len ≤ crtBuf.data.length - offset then some { crtBuf, offset := offset + len, next := b :: next }
    else skip b 0 next (len - (crtBuf.data.length - offset))

/-- `operator+=`. -/
def add (c : Cursor) (len : Nat) : Option Cursor := skip c.crtBuf c.offset c.next len

/-- The cursor after the loop of `peek`: past the buffers that are read, as far as there are more. -/
def settle (crtBuf : Buf) (offset : Nat) : List Buf → Cursor
  | [] => { crtBuf, offset := if crtBuf.data.length - offset = 0 then crtBuf.data.length else offset, next := [] }
  | b :: next => if crtBuf.data.length - offset = 0 then settle b 0 next else { crtBuf, offset, next := b :: next }

/-- The available data in the current buffer, and the cursor after the call. -/
def peek (c : Cursor) : List UInt8 × Cursor :=
  let c := settle c.crtBuf c.offset c.next
  (c.crtBuf.data.drop c.offset, c)

/-! ### What is left to read -/

/-- The bytes from the cursor to the end of the chain. -/
def rest (c : Cursor) : List UInt8 := c.crtBuf.data.drop c.offset ++ c.next.flatMap Buf.data

/-- The offset is inside the current buffer. -/
def Valid (c : Cursor) : Prop := c.offset ≤ c.crtBuf.data.length

theorem valid_make (c : IOBuf) : (make c).Valid := Nat.zero_le _

theorem isAtEnd_iff {c : Cursor} (hc : c.Valid) : c.isAtEnd = true ↔ c.rest = [] := by
  unfold Valid at hc
  simp only [isAtEnd, rest, List.append_eq_nil_iff, List.drop_eq_nil_iff, List.flatMap_eq_nil_iff]
  split_ifs with h
  · simp only [false_iff]
    omega
  · simp only [List.all_eq_true, decide_eq_true_eq, List.length_eq_zero_iff]
    constructor
    · exact fun hall => ⟨by omega, hall⟩
    · exact fun hall => hall.2

theorem skip_spec (crtBuf : Buf) (offset : Nat) (next : List Buf) (len : Nat) (hoff : offset ≤ crtBuf.data.length)
    (hlen : len ≤ (rest ⟨crtBuf, offset, next⟩).length) :
    ∃ c, skip crtBuf offset next len = some c ∧ c.Valid ∧ c.rest = (rest ⟨crtBuf, offset, next⟩).drop len := by
  induction next generalizing crtBuf offset len with
  | nil =>
    simp only [rest, List.flatMap_nil, List.append_nil, List.length_drop] at hlen
    refine ⟨_, by rw [skip, if_pos hlen], ?_, ?_⟩
    · simp only [Valid]
      omega
    · simp [rest, List.drop_drop]
  | cons b next ih =>
    by_cases hfit : len ≤ crtBuf.data.length - offset
    · refine ⟨_, by rw [skip, if_pos hfit], ?_, ?_⟩
      · simp only [Valid]
        omega
      · simp only [rest]
        rw [List.drop_append_of_le_length (by rw [List.length_drop]; exact hfit), List.drop_drop]
    · have hrest : (rest ⟨crtBuf, offset, b :: next⟩) = crtBuf.data.drop offset ++ rest ⟨b, 0, next⟩ := by
        simp [rest]
      rw [hrest, List.length_append, List.length_drop] at hlen
      obtain ⟨c, hskip, hvalid, hc⟩ := ih b 0 (len - (crtBuf.data.length - offset)) (Nat.zero_le _) (by omega)
      refine ⟨c, by rw [skip, if_neg hfit, hskip], hvalid, ?_⟩
      have hnil : (crtBuf.data.drop offset).drop len = [] := by
        rw [List.drop_eq_nil_iff, List.length_drop]
        omega
      rw [hc, hrest, List.drop_append, List.length_drop, hnil, List.nil_append]

theorem add_spec {c : Cursor} (hc : c.Valid) {len : Nat} (hlen : len ≤ c.rest.length) :
    ∃ c', c.add len = some c' ∧ c'.Valid ∧ c'.rest = c.rest.drop len :=
  skip_spec c.crtBuf c.offset c.next len hc hlen

theorem settle_spec (crtBuf : Buf) (offset : Nat) (next : List Buf) (hoff : offset ≤ crtBuf.data.length) :
    (settle crtBuf offset next).Valid ∧ (settle crtBuf offset next).rest = rest ⟨crtBuf, offset, next⟩ ∧
      (rest ⟨crtBuf, offset, next⟩ ≠ [] →
        0 < ((settle crtBuf offset next).crtBuf.data.drop (settle crtBuf offset next).offset).length) := by
  induction next generalizing crtBuf offset with
  | nil =>
    simp only [settle]
    split_ifs with h
    · have hnil : crtBuf.data.drop offset = [] := by
        rw [List.drop_eq_nil_iff]
        omega
      refine ⟨Nat.le_refl _, ?_, fun hne => absurd ?_ hne⟩ <;> simp [rest, hnil]
    · refine ⟨hoff, rfl, fun _ => ?_⟩
      rw [List.length_drop]
      omega
  | cons b next ih =>
    simp only [settle]
    split_ifs with h
    · have hnil : crtBuf.data.drop offset = [] := by
        rw [List.drop_eq_nil_iff]
        omega
      have hrest : rest ⟨crtBuf, offset, b :: next⟩ = rest ⟨b, 0, next⟩ := by
        simp [rest, hnil]
      rw [hrest]
      exact ih b 0 (Nat.zero_le _)
    · refine ⟨hoff, rfl, fun _ => ?_⟩
      show 0 < (crtBuf.data.drop offset).length
      rw [List.length_drop]
      omega

theorem peek_spec {c : Cursor} (hc : c.Valid) :
    ∃ c', c.peek = (c'.crtBuf.data.drop c'.offset, c') ∧ c'.Valid ∧ c'.rest = c.rest ∧
      (c.rest ≠ [] → 0 < (c'.crtBuf.data.drop c'.offset).length) := by
  obtain ⟨hvalid, hrest, hne⟩ := settle_spec c.crtBuf c.offset c.next hc
  exact ⟨_, rfl, hvalid, hrest, hne⟩

end Cursor

end Raster
