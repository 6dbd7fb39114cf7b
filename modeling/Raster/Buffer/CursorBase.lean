import Mathlib.Data.Fin.Basic
import Raster.Buffer.IOBuf

/-!
# Cursors on a circular chain

`CursorBase` of `raster/io/Cursor.h`. A buffer of a chain is named by its place, `next()` is the successor modulo their number,
and `buffer_`, the head, is the place 0. A cursor is inside its buffer. Each operation is compared with the same operation on
`IOBuf.data`, the bytes of the whole chain, at the offset `CursorBase.pos`.
-/

namespace Raster

/-- A place in a chain. -/
abbrev IOBuf.Place (c : IOBuf) := Fin (c.rest.length + 1)

def IOBuf.bufAt (c : IOBuf) (i : c.Place) : Buf := (c.head :: c.rest).get i

structure CursorBase (c : IOBuf) where
  crtBuf : c.Place
  offset : Nat
  inside : offset ≤ (c.bufAt crtBuf).data.length

namespace CursorBase

variable {c : IOBuf}

/-- The bytes at `data()` in the current buffer. -/
def data (cur : CursorBase c) : List UInt8 := (c.bufAt cur.crtBuf).data.drop cur.offset

def length (cur : CursorBase c) : Nat := (c.bufAt cur.crtBuf).data.length - cur.offset

/-- `offset_ += n` inside the current buffer. -/
def move (cur : CursorBase c) (n : Nat) (h : n ≤ cur.length) : CursorBase c where
  crtBuf := cur.crtBuf
  offset := cur.offset + n
  inside := by
    have := cur.inside
    unfold length at h
    omega

def tryAdvanceBuffer (cur : CursorBase c) : Bool × CursorBase c :=
  let nextBuf := cur.crtBuf + 1
  if nextBuf = 0 then
    (false, { crtBuf := cur.crtBuf, offset := (c.bufAt cur.crtBuf).data.length, inside := Nat.le_refl _ })
  else (true, { crtBuf := nextBuf, offset := 0, inside := Nat.zero_le _ })

theorem next_ne_zero {i : c.Place} (h : i + 1 ≠ 0) : (i + 1).val = i.val + 1 := by
  rw [Fin.val_add_one, if_neg]
  rintro rfl
  exact h (Fin.last_add_one _)

theorem tryAdvanceBuffer_true {cur cur' : CursorBase c} (h : cur.tryAdvanceBuffer = (true, cur')) :
    cur'.crtBuf.val = cur.crtBuf.val + 1 ∧ cur'.offset = 0 := by
  unfold tryAdvanceBuffer at h
  simp only at h
  split_ifs at h with hnext
  · cases h
  · cases h
    exact ⟨next_ne_zero hnext, rfl⟩

/-- What the loop over the buffers leaves. -/
structure Walked (c : IOBuf) (α : Type) where
  acc : α
  moved : Nat
  /-- The chain has ended first. -/
  underflow : Bool
  cur : CursorBase c

/-- The loop of `skipAtMostSlow`, `pullAtMostSlow`, `readFixedStringSlow` and `cloneAtMost`: `visit` is done
with a number of bytes at the cursor in each buffer. -/
def walk {α : Type} (visit : CursorBase c → Nat → α → α) (cur : CursorBase c) (len : Nat) (acc : α) (moved : Nat) : Walked c α :=
  if h : len ≤ cur.length then { acc := visit cur len acc, moved := moved + len, underflow := false, cur := cur.move len h }
  else
    match _hadvance : cur.tryAdvanceBuffer with
    | (false, cur') => { acc := visit cur cur.length acc, moved := moved + cur.length, underflow := true, cur := cur' }
    | (true, cur') => walk visit cur' (len - cur.length) (visit cur cur.length acc) (moved + cur.length)
  termination_by c.rest.length - cur.crtBuf.val
  decreasing_by
    have := (tryAdvanceBuffer_true _hadvance).1
    have := cur'.crtBuf.isLt
    omega

/-! ### Skipping and reading -/

def skipAtMostSlow (cur : CursorBase c) (len : Nat) : Nat × CursorBase c :=
  let w := cur.walk (fun _ _ _ => ()) len () 0
  (w.moved, w.cur)

def skipAtMost (cur : CursorBase c) (len : Nat) : Nat × CursorBase c :=
  if h : len ≤ cur.length then (len, cur.move len h) else cur.skipAtMostSlow len

/-- `skip`, with `skipSlow`. -/
def skip (cur : CursorBase c) (len : Nat) : Except String Unit × CursorBase c :=
  if h : len ≤ cur.length then (.ok (), cur.move len h)
  else
    let (skipped, cur) := cur.skipAtMostSlow len
    (if skipped ≠ len then .error "underflow" else .ok (), cur)

/-- `memcpy` or `append` of the bytes at the cursor. -/
def copyBytes (cur : CursorBase c) (n : Nat) (bytes : List UInt8) : List UInt8 := bytes ++ cur.data.take n

/-- The bytes that are copied, their number, and the cursor. -/
def pullAtMostSlow (cur : CursorBase c) (len : Nat) : List UInt8 × Nat × CursorBase c :=
  let w := cur.walk copyBytes len [] 0
  (w.acc, w.moved, w.cur)

def pullAtMost (cur : CursorBase c) (len : Nat) : List UInt8 × Nat × CursorBase c :=
  if h : len ≤ cur.length then (cur.data.take len, len, cur.move len h) else cur.pullAtMostSlow len

def pullSlow (cur : CursorBase c) (len : Nat) : Except String (List UInt8) × CursorBase c :=
  let (bytes, copied, cur) := cur.pullAtMostSlow len
  (if copied ≠ len then .error "underflow" else .ok bytes, cur)

def pull (cur : CursorBase c) (len : Nat) : Except String (List UInt8) × CursorBase c :=
  if h : len ≤ cur.length then (.ok (cur.data.take len), cur.move len h) else cur.pullSlow len

/-- The integer whose bytes in memory are given, the lowest one first. -/
def loadUnaligned (bytes : List UInt8) : Nat := bytes.foldr (fun b n => b.toNat + 256 * n) 0

/-- `read<T>` for an integer of `size` bytes. -/
def read (cur : CursorBase c) (size : Nat) : Except String Nat × CursorBase c :=
  if h : size ≤ cur.length then (.ok (loadUnaligned (cur.data.take size)), cur.move size h)
  else
    let (val, cur) := cur.pullSlow size
    (val.map loadUnaligned, cur)

def readFixedStringSlow (cur : CursorBase c) (len : Nat) : Except String (List UInt8) × CursorBase c :=
  let w := cur.walk copyBytes len [] 0
  (if w.underflow then .error "string underflow" else .ok w.acc, w.cur)

def readFixedString (cur : CursorBase c) (len : Nat) : Except String (List UInt8) × CursorBase c :=
  if h : len ≤ cur.length then (.ok (cur.data.take len), cur.move len h) else cur.readFixedStringSlow len

/-! ### Looking ahead and cloning -/

/-- The loop of `peek`. -/
def settle (cur : CursorBase c) : CursorBase c :=
  if cur.length = 0 then
    match _hadvance : cur.tryAdvanceBuffer with
    | (false, cur') => cur'
    | (true, cur') => settle cur'
  else cur
  termination_by c.rest.length - cur.crtBuf.val
  decreasing_by
    have := (tryAdvanceBuffer_true _hadvance).1
    have := cur'.crtBuf.isLt
    omega

def peek (cur : CursorBase c) : List UInt8 × CursorBase c := (cur.settle.data, cur.settle)

/-- `cloneOne`, `trimStart` and `trimEnd`: `n` bytes at the cursor, in the block of its buffer. -/
def cloneTrimmed (cur : CursorBase c) (n : Nat) : Buf :=
  let b := c.bufAt cur.crtBuf
  { headroom := b.headroom + cur.offset, data := cur.data.take n, tailroom := b.tailroom + (cur.length - n),
    external := b.external }

/-- The chain of the clones, `IOBuf()` before the first one. -/
def chainOf : List Buf → IOBuf
  | [] => { head := { tailroom := 0 } }
  | b :: bs => { head := b, rest := bs }

def cloneAtMost (cur : CursorBase c) (len : Nat) : IOBuf × Nat × CursorBase c :=
  let w := cur.walk (fun cur n bufs => bufs ++ [cur.cloneTrimmed n]) len [] 0
  (chainOf w.acc, w.moved, w.cur)

/-! ### The end and distances -/

/-- The loop of `isAtEnd` from `buf` to the head. -/
def restEmpty (c : IOBuf) (buf : c.Place) : Bool :=
  if _hhead : buf = 0 then true
  else if 0 < (c.bufAt buf).data.length then false
  else restEmpty c (buf + 1)
  termination_by if buf = 0 then 0 else c.rest.length + 1 - buf.val
  decreasing_by
    rw [if_neg _hhead]
    have := buf.isLt
    split_ifs with hnext
    · omega
    · rw [next_ne_zero hnext]
      omega

/-- `buffer_->prev()`. -/
def last (c : IOBuf) : c.Place := Fin.last c.rest.length

def isAtEnd (cur : CursorBase c) : Bool :=
  if cur.offset ≠ (c.bufAt cur.crtBuf).data.length then false
  else if cur.crtBuf = last c then true
  else restEmpty c (cur.crtBuf + 1)

/-- The loop of `operator-` from `otherBuf` to `crtBuf` or to the head. -/
def between (crtBuf : c.Place) (otherBuf : c.Place) (len : Nat) : c.Place × Nat :=
  if _hhead : otherBuf = crtBuf ∨ otherBuf = 0 then (otherBuf, len)
  else between crtBuf (otherBuf + 1) (len + (c.bufAt otherBuf).data.length)
  termination_by if otherBuf = 0 then 0 else c.rest.length + 1 - otherBuf.val
  decreasing_by
    rw [if_neg fun h => _hhead (.inr h)]
    have := otherBuf.isLt
    split_ifs with hnext
    · omega
    · rw [next_ne_zero hnext]
      omega

/-- `operator-` of a cursor and another one on the chain. -/
def sub (cur other : CursorBase c) : Except String Nat :=
  if other.crtBuf ≠ cur.crtBuf then
    let (otherBuf, len) := between cur.crtBuf (other.crtBuf + 1) ((c.bufAt other.crtBuf).data.length - other.offset)
    if otherBuf = 0 then .error "wrap-around" else .ok (len + cur.offset)
  else if cur.offset < other.offset then .error "underflow"
  else .ok (cur.offset - other.offset)

/-- `totalLength`, whose `end` is behind the last buffer. -/
def totalLength (cur : CursorBase c) : Except String Nat :=
  if cur.crtBuf = 0 then .ok (c.computeChainDataLength - cur.offset)
  else sub { crtBuf := last c, offset := (c.bufAt (last c)).data.length, inside := Nat.le_refl _ } cur

/-! ### The bytes of the whole chain -/

/-- The offset of a cursor in the bytes of the chain. -/
def pos (cur : CursorBase c) : Nat := ((c.bufs.take cur.crtBuf.val).flatMap Buf.data).length + cur.offset

/-- The bytes from the cursor to the end of the chain. -/
def rest (cur : CursorBase c) : List UInt8 := cur.data ++ (c.bufs.drop (cur.crtBuf.val + 1)).flatMap Buf.data

theorem bufs_split (c : IOBuf) (i : c.Place) : c.bufs = c.bufs.take i.val ++ c.bufAt i :: c.bufs.drop (i.val + 1) := by
  have hlt : i.val < c.bufs.length := i.isLt
  calc c.bufs = c.bufs.take i.val ++ c.bufs.drop i.val := (List.take_append_drop i.val c.bufs).symm
    _ = c.bufs.take i.val ++ c.bufAt i :: c.bufs.drop (i.val + 1) := by
      rw [List.drop_eq_getElem_cons hlt]
      rfl

theorem data_split (c : IOBuf) (i : c.Place) :
    c.data = (c.bufs.take i.val).flatMap Buf.data ++ ((c.bufAt i).data ++ (c.bufs.drop (i.val + 1)).flatMap Buf.data) := by
  rw [IOBuf.data]
  conv => lhs; rw [bufs_split c i]
  rw [List.flatMap_append, List.flatMap_cons]

theorem rest_eq (cur : CursorBase c) : cur.rest = c.data.drop cur.pos := by
  rw [data_split c cur.crtBuf, pos, List.drop_length_add_append, List.drop_append_of_le_length cur.inside]
  rfl

theorem length_data (cur : CursorBase c) : cur.data.length = cur.length := List.length_drop ..

theorem pos_le (cur : CursorBase c) : cur.pos ≤ c.data.length := by
  have hinside := cur.inside
  rw [data_split c cur.crtBuf, pos, List.length_append, List.length_append]
  omega

theorem length_rest (cur : CursorBase c) : cur.rest.length = c.data.length - cur.pos := by
  rw [rest_eq, List.length_drop]

theorem length_le_length_rest (cur : CursorBase c) : cur.length ≤ cur.rest.length := by
  rw [rest, List.length_append, length_data]
  exact Nat.le_add_right _ _

@[simp] theorem pos_move (cur : CursorBase c) {n : Nat} (h : n ≤ cur.length) : (cur.move n h).pos = cur.pos + n :=
  (Nat.add_assoc ..).symm

theorem take_rest (cur : CursorBase c) {n : Nat} (h : n ≤ cur.length) : cur.rest.take n = cur.data.take n := by
  rw [rest, List.take_append_of_le_length (by rw [length_data]; exact h)]

theorem tryAdvanceBuffer_false {cur cur' : CursorBase c} (h : cur.tryAdvanceBuffer = (false, cur')) :
    cur.rest = cur.data ∧ cur'.pos = c.data.length ∧ cur'.data = [] := by
  unfold tryAdvanceBuffer at h
  simp only at h
  split_ifs at h with hnext
  · have hlast : cur.crtBuf.val = c.rest.length := by
      have hval := Fin.val_add_one cur.crtBuf
      rw [hnext] at hval
      split_ifs at hval with hlast
      · rw [hlast]
        rfl
      · exact absurd hval (Nat.succ_ne_zero _).symm
    have hbehind : c.bufs.drop (cur.crtBuf.val + 1) = [] := by
      rw [hlast]
      exact List.drop_length
    cases h
    refine ⟨?_, ?_, List.drop_length⟩
    · rw [rest, hbehind, List.flatMap_nil, List.append_nil]
    · rw [data_split c cur.crtBuf, hbehind, List.flatMap_nil, List.append_nil, List.length_append]
      rfl
  · cases h

theorem tryAdvanceBuffer_next {cur cur' : CursorBase c} (h : cur.tryAdvanceBuffer = (true, cur')) :
    cur.rest = cur.data ++ cur'.rest ∧ cur'.pos = cur.pos + cur.length := by
  obtain ⟨hnext, hoffset⟩ := tryAdvanceBuffer_true h
  have hlt : cur.crtBuf.val + 1 < c.bufs.length := hnext ▸ cur'.crtBuf.isLt
  have hdata : cur'.data = (c.bufAt cur'.crtBuf).data := by rw [data, hoffset, List.drop_zero]
  have hdrop : c.bufs.drop (cur.crtBuf.val + 1) = c.bufAt cur'.crtBuf :: c.bufs.drop (cur'.crtBuf.val + 1) := by
    rw [List.drop_eq_getElem_cons hlt, hnext]
    congr 1
    show _ = c.bufs[cur'.crtBuf.val]
    congr 1
    exact hnext.symm
  have htake : c.bufs.take cur'.crtBuf.val = c.bufs.take cur.crtBuf.val ++ [c.bufAt cur.crtBuf] := by
    rw [hnext, List.take_add_one, List.getElem?_eq_getElem (show cur.crtBuf.val < c.bufs.length from cur.crtBuf.isLt)]
    rfl
  refine ⟨?_, ?_⟩
  · rw [rest, rest, hdata, hdrop, List.flatMap_cons]
  · have hinside := cur.inside
    rw [pos, pos, length, hoffset, htake, List.flatMap_append, List.flatMap_singleton, List.length_append]
    omega

/-! ### The loop over the buffers -/

section Walk

variable {α : Type} {visit : CursorBase c → Nat → α → α} {cur cur' : CursorBase c} {len : Nat} (acc : α) (moved : Nat)

theorem walk_last (h : ¬ len ≤ cur.length) (hadvance : cur.tryAdvanceBuffer = (false, cur')) :
    cur.walk visit len acc moved =
      { acc := visit cur cur.length acc, moved := moved + cur.length, underflow := true, cur := cur' } := by
  rw [walk, dif_neg h]
  split
  · next heq =>
    rw [hadvance] at heq
    cases heq
    rfl
  · next heq =>
    rw [hadvance] at heq
    cases heq

theorem walk_next (h : ¬ len ≤ cur.length) (hadvance : cur.tryAdvanceBuffer = (true, cur')) :
    cur.walk visit len acc moved = cur'.walk visit (len - cur.length) (visit cur cur.length acc) (moved + cur.length) := by
  rw [walk, dif_neg h]
  split
  · next heq =>
    rw [hadvance] at heq
    cases heq
  · next heq =>
    rw [hadvance] at heq
    cases heq
    rfl

end Walk

theorem walk_moves {α : Type} (visit : CursorBase c → Nat → α → α) (cur : CursorBase c) (len : Nat) (acc : α) (moved : Nat) :
    (cur.walk visit len acc moved).moved = moved + min len cur.rest.length ∧
    (cur.walk visit len acc moved).cur.pos = cur.pos + min len cur.rest.length ∧
    ((cur.walk visit len acc moved).underflow = true ↔ cur.rest.length < len) := by
  induction cur, len, acc, moved using walk.induct visit with
  | case1 cur len acc moved h =>
    have hle := cur.length_le_length_rest
    rw [walk, dif_pos h]
    refine ⟨by rw [Nat.min_eq_left (by omega)], by rw [pos_move, Nat.min_eq_left (by omega)], ?_⟩
    simp only [Bool.false_eq_true, false_iff]
    omega
  | case2 cur len acc moved h cur' hadvance =>
    obtain ⟨hrest, hpos, -⟩ := tryAdvanceBuffer_false hadvance
    have hlen := cur.length_rest
    have hle := cur.pos_le
    rw [hrest, length_data] at hlen
    rw [walk_last acc moved h hadvance, hrest, length_data, Nat.min_eq_right (by omega)]
    exact ⟨rfl, by rw [hpos]; omega, by simp only [true_iff]; omega⟩
  | case3 cur len acc moved h cur' hadvance ih =>
    obtain ⟨hrest, hpos⟩ := tryAdvanceBuffer_next hadvance
    obtain ⟨hmoved, hcur, hunderflow⟩ := ih
    have hlen : cur.rest.length = cur.length + cur'.rest.length := by rw [hrest, List.length_append, length_data]
    rw [walk_next acc moved h hadvance]
    exact ⟨by omega, by omega, by rw [hunderflow]; omega⟩

theorem walk_bytes {α : Type} (visit : CursorBase c → Nat → α → α) (bytes : α → List UInt8)
    (hvisit : ∀ cur n acc, bytes (visit cur n acc) = bytes acc ++ cur.data.take n) (cur : CursorBase c) (len : Nat) (acc : α)
    (moved : Nat) : bytes (cur.walk visit len acc moved).acc = bytes acc ++ cur.rest.take len := by
  induction cur, len, acc, moved using walk.induct visit with
  | case1 cur len acc moved h => rw [walk, dif_pos h, hvisit, take_rest cur h]
  | case2 cur len acc moved h cur' hadvance =>
    obtain ⟨hrest, -, -⟩ := tryAdvanceBuffer_false hadvance
    rw [walk_last acc moved h hadvance, hvisit, hrest, List.take_of_length_le (by rw [length_data]),
      List.take_of_length_le (by rw [length_data]; omega)]
  | case3 cur len acc moved h cur' hadvance ih =>
    obtain ⟨hrest, -⟩ := tryAdvanceBuffer_next hadvance
    have hself : cur.data.take cur.length = cur.data := List.take_of_length_le (by rw [length_data])
    have hall : cur.data.take len = cur.data := List.take_of_length_le (by rw [length_data]; omega)
    rw [walk_next acc moved h hadvance, ih, hvisit, hrest, List.take_append, length_data, hself, hall, List.append_assoc]

/-! ### Each operation -/

/-- What an operation on the bytes of the chain does that takes `len` of them or throws. -/
def Takes {α : Type} (cur : CursorBase c) (len : Nat) (value : List UInt8 → α) (message : String)
    (r : Except String α × CursorBase c) : Prop :=
  if len ≤ c.data.length - cur.pos then r.1 = .ok (value ((c.data.drop cur.pos).take len)) ∧ r.2.pos = cur.pos + len
  else r.1 = .error message ∧ r.2.pos = c.data.length

theorem takes_move {α : Type} (cur : CursorBase c) {len : Nat} (value : List UInt8 → α) (message : String)
    (h : len ≤ cur.length) :
    cur.Takes len value message (.ok (value (cur.data.take len)), cur.move len h) := by
  have hle := cur.length_le_length_rest
  rw [length_rest] at hle
  rw [Takes, if_pos (by omega), ← rest_eq, take_rest cur h]
  exact ⟨rfl, pos_move cur h⟩

section Operations

variable (cur : CursorBase c) (len : Nat)

theorem skipAtMostSlow_spec :
    (cur.skipAtMostSlow len).1 = min len (c.data.length - cur.pos) ∧
    (cur.skipAtMostSlow len).2.pos = cur.pos + min len (c.data.length - cur.pos) := by
  obtain ⟨hmoved, hpos, -⟩ := walk_moves (fun _ _ _ => ()) cur len () 0
  rw [length_rest, Nat.zero_add] at hmoved
  rw [length_rest] at hpos
  exact ⟨hmoved, hpos⟩

theorem skipAtMost_spec :
    (cur.skipAtMost len).1 = min len (c.data.length - cur.pos) ∧
    (cur.skipAtMost len).2.pos = cur.pos + min len (c.data.length - cur.pos) := by
  unfold skipAtMost
  split_ifs with h
  · have hle := cur.length_le_length_rest
    rw [length_rest] at hle
    rw [Nat.min_eq_left (by omega), pos_move]
    exact ⟨rfl, rfl⟩
  · exact skipAtMostSlow_spec cur len

theorem skip_spec : cur.Takes len (fun _ => ()) "underflow" (cur.skip len) := by
  unfold skip
  split_ifs with h
  · exact takes_move cur _ _ h
  · obtain ⟨hskipped, hpos⟩ := skipAtMostSlow_spec cur len
    have hle := cur.pos_le
    simp only [Takes, hskipped, hpos]
    by_cases hlen : len ≤ c.data.length - cur.pos
    · rw [if_pos hlen, Nat.min_eq_left hlen, if_neg (not_not_intro rfl)]
      exact ⟨rfl, rfl⟩
    · rw [if_neg hlen, Nat.min_eq_right (by omega), if_pos (by omega)]
      exact ⟨rfl, by omega⟩

theorem pullAtMostSlow_spec :
    (cur.pullAtMostSlow len).1 = (c.data.drop cur.pos).take len ∧
    (cur.pullAtMostSlow len).2.1 = min len (c.data.length - cur.pos) ∧
    (cur.pullAtMostSlow len).2.2.pos = cur.pos + min len (c.data.length - cur.pos) := by
  obtain ⟨hmoved, hpos, -⟩ := walk_moves copyBytes cur len [] 0
  have hbytes := walk_bytes copyBytes id (fun _ _ _ => rfl) cur len [] 0
  rw [length_rest, Nat.zero_add] at hmoved
  rw [length_rest] at hpos
  rw [rest_eq] at hbytes
  exact ⟨hbytes, hmoved, hpos⟩

theorem pullAtMost_spec :
    (cur.pullAtMost len).1 = (c.data.drop cur.pos).take len ∧
    (cur.pullAtMost len).2.1 = min len (c.data.length - cur.pos) ∧
    (cur.pullAtMost len).2.2.pos = cur.pos + min len (c.data.length - cur.pos) := by
  unfold pullAtMost
  split_ifs with h
  · have hle := cur.length_le_length_rest
    rw [length_rest] at hle
    rw [Nat.min_eq_left (by omega), pos_move, ← rest_eq, take_rest cur h]
    exact ⟨rfl, rfl, rfl⟩
  · exact pullAtMostSlow_spec cur len

theorem pullSlow_spec : cur.Takes len id "underflow" (cur.pullSlow len) := by
  obtain ⟨hbytes, hcopied, hpos⟩ := pullAtMostSlow_spec cur len
  have hle := cur.pos_le
  simp only [Takes, pullSlow, hbytes, hcopied, hpos]
  by_cases hlen : len ≤ c.data.length - cur.pos
  · rw [if_pos hlen, Nat.min_eq_left hlen, if_neg (not_not_intro rfl)]
    exact ⟨rfl, rfl⟩
  · rw [if_neg hlen, Nat.min_eq_right (by omega), if_pos (by omega)]
    exact ⟨rfl, by omega⟩

theorem pull_spec : cur.Takes len id "underflow" (cur.pull len) := by
  unfold pull
  split_ifs with h
  · exact takes_move cur id _ h
  · exact pullSlow_spec cur len

theorem read_spec (size : Nat) : cur.Takes size loadUnaligned "underflow" (cur.read size) := by
  unfold read
  split_ifs with h
  · exact takes_move cur loadUnaligned _ h
  · have hpull := pullSlow_spec cur size
    unfold Takes at hpull ⊢
    split_ifs at hpull ⊢ with hlen
    · exact ⟨by simp only [hpull.1]; rfl, hpull.2⟩
    · exact ⟨by simp only [hpull.1]; rfl, hpull.2⟩

theorem readFixedString_spec : cur.Takes len id "string underflow" (cur.readFixedString len) := by
  unfold readFixedString
  split_ifs with h
  · exact takes_move cur id _ h
  · obtain ⟨-, hpos, hunderflow⟩ := walk_moves copyBytes cur len [] 0
    have hbytes := walk_bytes copyBytes id (fun _ _ _ => rfl) cur len [] 0
    have hle := cur.pos_le
    rw [length_rest] at hpos hunderflow
    rw [rest_eq] at hbytes
    simp only [Takes, readFixedStringSlow, hpos]
    by_cases hlen : len ≤ c.data.length - cur.pos
    · rw [if_pos hlen, Nat.min_eq_left hlen, if_neg (by rw [hunderflow]; omega)]
      exact ⟨congrArg Except.ok hbytes, rfl⟩
    · rw [if_neg hlen, Nat.min_eq_right (by omega), if_pos (by rw [hunderflow]; omega)]
      exact ⟨rfl, by omega⟩

theorem data_chainOf (bufs : List Buf) : (chainOf bufs).data = bufs.flatMap Buf.data := by
  cases bufs with
  | nil => rfl
  | cons b bs => rfl

theorem cloneAtMost_spec :
    (cur.cloneAtMost len).1.data = (c.data.drop cur.pos).take len ∧
    (cur.cloneAtMost len).2.1 = min len (c.data.length - cur.pos) ∧
    (cur.cloneAtMost len).2.2.pos = cur.pos + min len (c.data.length - cur.pos) := by
  obtain ⟨hmoved, hpos, -⟩ := walk_moves (fun cur n bufs => bufs ++ [cur.cloneTrimmed n]) cur len [] 0
  have hbytes := walk_bytes (fun cur n bufs => bufs ++ [cur.cloneTrimmed n]) (fun bufs => bufs.flatMap Buf.data)
    (fun _ _ _ => by rw [List.flatMap_append, List.flatMap_singleton]; rfl) cur len [] 0
  rw [length_rest, Nat.zero_add] at hmoved
  rw [length_rest] at hpos
  rw [rest_eq] at hbytes
  exact ⟨(data_chainOf _).trans hbytes, hmoved, hpos⟩

end Operations

theorem settle_spec (cur : CursorBase c) : cur.settle.pos = cur.pos ∧ (cur.rest ≠ [] → cur.settle.data ≠ []) := by
  induction cur using settle.induct with
  | case1 cur h cur' hadvance =>
    obtain ⟨hrest, hpos, -⟩ := tryAdvanceBuffer_false hadvance
    have hsettle : cur.settle = cur' := by
      rw [settle, if_pos h]
      split
      · next heq =>
        rw [hadvance] at heq
        cases heq
        rfl
      · next heq =>
        rw [hadvance] at heq
        cases heq
    have hnil : cur.rest = [] := by
      rw [hrest]
      exact List.eq_nil_of_length_eq_zero (by rw [length_data, h])
    have hlen := cur.length_rest
    have hle := cur.pos_le
    rw [hnil, List.length_nil] at hlen
    rw [hsettle]
    exact ⟨by omega, fun hne => absurd hnil hne⟩
  | case2 cur h cur' hadvance ih =>
    obtain ⟨hrest, hpos⟩ := tryAdvanceBuffer_next hadvance
    have hsettle : cur.settle = cur'.settle := by
      rw [settle, if_pos h]
      split
      · next heq =>
        rw [hadvance] at heq
        cases heq
      · next heq =>
        rw [hadvance] at heq
        cases heq
        rfl
    have hnil : cur.data = [] := List.eq_nil_of_length_eq_zero (by rw [length_data, h])
    rw [hsettle, hrest, hnil, List.nil_append]
    exact ⟨by omega, ih.2⟩
  | case3 cur h =>
    rw [settle, if_neg h]
    refine ⟨rfl, fun _ hnil => h ?_⟩
    rw [← length_data, hnil, List.length_nil]

theorem peek_spec (cur : CursorBase c) :
    cur.peek.1 <+: c.data.drop cur.pos ∧ (cur.pos < c.data.length → cur.peek.1 ≠ []) ∧ cur.peek.2.pos = cur.pos := by
  obtain ⟨hpos, hne⟩ := settle_spec cur
  refine ⟨?_, fun hlt => hne ?_, hpos⟩
  · rw [← hpos, ← rest_eq]
    exact List.prefix_append ..
  · intro hnil
    have := cur.length_rest
    rw [hnil, List.length_nil] at this
    omega

/-! ### The end of the chain -/

theorem drop_bufs (c : IOBuf) (i : c.Place) : c.bufs.drop i.val = c.bufAt i :: c.bufs.drop (i.val + 1) :=
  List.drop_eq_getElem_cons (show i.val < c.bufs.length from i.isLt)

theorem eq_last_of_next_eq_zero {i : c.Place} (h : i + 1 = 0) : i.val = c.rest.length := by
  have hval := Fin.val_add_one i
  rw [h] at hval
  split_ifs at hval with hlast
  · rw [hlast]
    rfl
  · exact absurd hval (Nat.succ_ne_zero _).symm

theorem restEmpty_iff (buf : c.Place) (hbuf : buf ≠ 0) :
    restEmpty c buf = true ↔ (c.bufs.drop buf.val).flatMap Buf.data = [] := by
  induction buf using restEmpty.induct with
  | case1 => exact absurd rfl hbuf
  | case2 buf _ hlen =>
    rw [restEmpty, dif_neg hbuf, if_pos hlen, drop_bufs, List.flatMap_cons]
    simp only [Bool.false_eq_true, List.append_eq_nil_iff, false_iff, not_and]
    intro hnil
    rw [hnil] at hlen
    exact absurd hlen (Nat.lt_irrefl 0)
  | case3 buf _ hlen ih =>
    have hnil : (c.bufAt buf).data = [] := List.eq_nil_of_length_eq_zero (by omega)
    rw [restEmpty, dif_neg hbuf, if_neg hlen, drop_bufs, List.flatMap_cons, hnil, List.nil_append]
    by_cases hnext : buf + 1 = 0
    · have hlast := eq_last_of_next_eq_zero hnext
      have hdrop : c.bufs.drop (buf.val + 1) = [] := by
        rw [hlast]
        exact List.drop_length
      rw [hnext, restEmpty, dif_pos rfl, hdrop]
      simp
    · rw [ih hnext, next_ne_zero hnext]

theorem isAtEnd_iff (cur : CursorBase c) : cur.isAtEnd = true ↔ cur.pos = c.data.length := by
  have hinside := cur.inside
  have hle := cur.pos_le
  have hrest : cur.pos = c.data.length ↔ cur.rest = [] := by
    rw [← List.length_eq_zero_iff, length_rest]
    omega
  rw [hrest, isAtEnd]
  by_cases hoffset : cur.offset = (c.bufAt cur.crtBuf).data.length
  · have hdata : cur.data = [] := by
      rw [data, hoffset, List.drop_length]
    rw [if_neg (not_not_intro hoffset), rest, hdata, List.nil_append]
    by_cases hlast : cur.crtBuf = last c
    · have hdrop : c.bufs.drop (cur.crtBuf.val + 1) = [] := by
        rw [hlast]
        exact List.drop_length
      rw [if_pos hlast, hdrop]
      simp
    · have hnext : cur.crtBuf + 1 ≠ 0 := fun h => hlast (Fin.ext (eq_last_of_next_eq_zero h))
      rw [if_neg hlast, restEmpty_iff _ hnext, next_ne_zero hnext]
  · have hdata : cur.data ≠ [] := by
      intro hnil
      have := cur.length_data
      rw [hnil, List.length_nil, length] at this
      omega
    rw [if_pos hoffset, rest]
    simp [hdata]

/-! ### Distances -/

/-- The number of bytes before a place. -/
def before (c : IOBuf) (i : Nat) : Nat := ((c.bufs.take i).flatMap Buf.data).length

theorem before_succ (c : IOBuf) (i : c.Place) : before c (i.val + 1) = before c i.val + (c.bufAt i).data.length := by
  have htake : c.bufs.take (i.val + 1) = c.bufs.take i.val ++ [c.bufAt i] := by
    rw [List.take_add_one, List.getElem?_eq_getElem (show i.val < c.bufs.length from i.isLt)]
    rfl
  rw [before, htake, List.flatMap_append, List.flatMap_singleton, List.length_append]
  rfl

theorem before_mono (c : IOBuf) {i j : Nat} (h : i ≤ j) : before c i ≤ before c j := by
  have hsplit : c.bufs.take j = c.bufs.take i ++ (c.bufs.take j).drop i := by
    have htake := List.take_append_drop i (c.bufs.take j)
    rw [List.take_take, Nat.min_eq_left h] at htake
    exact htake.symm
  rw [before, before, hsplit, List.flatMap_append, List.length_append]
  exact Nat.le_add_right _ _

theorem next_of_lt {i j : c.Place} (h : i.val < j.val) : i + 1 ≠ 0 := by
  intro hzero
  have := eq_last_of_next_eq_zero hzero
  have := j.isLt
  omega

theorem between_le (crtBuf otherBuf : c.Place) (len : Nat) (hpos : otherBuf ≠ 0) (hle : otherBuf.val ≤ crtBuf.val) :
    between crtBuf otherBuf len = (crtBuf, len + (before c crtBuf.val - before c otherBuf.val)) := by
  induction otherBuf, len using between.induct crtBuf with
  | case1 otherBuf len h =>
    obtain rfl | h := h
    · rw [between, dif_pos (.inl rfl), Nat.sub_self, Nat.add_zero]
    · exact absurd h hpos
  | case2 otherBuf len h ih =>
    have hlt : otherBuf.val < crtBuf.val := by
      have : otherBuf.val ≠ crtBuf.val := fun heq => h (.inl (Fin.ext heq))
      omega
    have hnext := next_of_lt hlt
    have hval := next_ne_zero hnext
    have hsucc := before_succ c otherBuf
    have hmono := before_mono c (i := otherBuf.val + 1) (j := crtBuf.val) hlt
    rw [between, dif_neg h, ih hnext (by omega), hval]
    congr 1
    omega

theorem between_wrap (crtBuf otherBuf : c.Place) (len : Nat) (hgt : otherBuf = 0 ∨ crtBuf.val < otherBuf.val) :
    (between crtBuf otherBuf len).1 = 0 := by
  induction otherBuf, len using between.induct crtBuf with
  | case1 otherBuf len h =>
    rw [between, dif_pos h]
    obtain hzero | hgt := hgt
    · exact hzero
    · obtain rfl | h := h
      · exact absurd hgt (Nat.lt_irrefl _)
      · exact h
  | case2 otherBuf len h ih =>
    rw [between, dif_neg h]
    refine ih ?_
    obtain hzero | hgt := hgt
    · exact absurd (.inr hzero) h
    · by_cases hnext : otherBuf + 1 = 0
      · exact .inl hnext
      · rw [next_ne_zero hnext]
        exact .inr (by omega)

/-- A cursor is not after another one in the chain. -/
def NotAfter (other cur : CursorBase c) : Prop :=
  other.crtBuf.val < cur.crtBuf.val ∨ other.crtBuf = cur.crtBuf ∧ other.offset ≤ cur.offset

theorem sub_of_notAfter {cur other : CursorBase c} (h : NotAfter other cur) :
    other.pos ≤ cur.pos ∧ cur.sub other = .ok (cur.pos - other.pos) := by
  have hinside := other.inside
  have hcur : cur.pos = before c cur.crtBuf.val + cur.offset := rfl
  have hother : other.pos = before c other.crtBuf.val + other.offset := rfl
  unfold sub
  obtain hlt | ⟨heq, hoffset⟩ := h
  · have hne : other.crtBuf ≠ cur.crtBuf := fun heq => absurd hlt (by rw [heq]; exact Nat.lt_irrefl _)
    have hnext := next_of_lt hlt
    have hval := next_ne_zero hnext
    have hsucc := before_succ c other.crtBuf
    have hmono := before_mono c (i := other.crtBuf.val + 1) (j := cur.crtBuf.val) hlt
    have hcrt : cur.crtBuf ≠ 0 := by
      intro hzero
      rw [hzero] at hlt
      exact absurd hlt (Nat.not_lt_zero _)
    rw [if_pos hne, between_le _ _ _ hnext (by omega), hval]
    simp only
    rw [if_neg hcrt]
    refine ⟨by omega, congrArg Except.ok ?_⟩
    omega
  · rw [if_neg (not_not_intro heq), if_neg (by omega)]
    rw [heq] at hother
    exact ⟨by omega, congrArg Except.ok (by omega)⟩

theorem sub_of_after {cur other : CursorBase c} (h : ¬ NotAfter other cur) : ∃ message, cur.sub other = .error message := by
  obtain ⟨hge, hoffset⟩ := not_or.1 h
  unfold sub
  by_cases heq : other.crtBuf = cur.crtBuf
  · rw [if_neg (not_not_intro heq), if_pos (by
      have : ¬ other.offset ≤ cur.offset := fun hle => hoffset ⟨heq, hle⟩
      omega)]
    exact ⟨_, rfl⟩
  · have hval : cur.crtBuf.val < other.crtBuf.val := by
      have : other.crtBuf.val ≠ cur.crtBuf.val := fun hval => heq (Fin.ext hval)
      omega
    have hwrap : (between cur.crtBuf (other.crtBuf + 1) ((c.bufAt other.crtBuf).data.length - other.offset)).1 = 0 := by
      refine between_wrap _ _ _ ?_
      by_cases hnext : other.crtBuf + 1 = 0
      · exact .inl hnext
      · rw [next_ne_zero hnext]
        exact .inr (by omega)
    rw [if_pos heq]
    simp only [hwrap, if_true]
    exact ⟨_, rfl⟩

theorem totalLength_eq (cur : CursorBase c) : cur.totalLength = .ok (c.data.length - cur.pos) := by
  unfold totalLength
  by_cases hzero : cur.crtBuf = 0
  · have hpos : cur.pos = cur.offset := by
      rw [pos, hzero]
      simp
    rw [if_pos hzero, IOBuf.computeChainDataLength_eq, hpos]
  · have hlast : NotAfter cur { crtBuf := last c, offset := (c.bufAt (last c)).data.length, inside := Nat.le_refl _ } := by
      have hlt := cur.crtBuf.isLt
      have hval : (last c).val = c.rest.length := rfl
      by_cases heq : cur.crtBuf = last c
      · exact .inr ⟨heq, by simpa [heq] using cur.inside⟩
      · refine .inl ?_
        have : cur.crtBuf.val ≠ (last c).val := fun h => heq (Fin.ext h)
        show cur.crtBuf.val < (last c).val
        omega
    have hend : pos (c := c) { crtBuf := last c, offset := (c.bufAt (last c)).data.length, inside := Nat.le_refl _ } =
        c.data.length := by
      have hdrop : c.bufs.drop ((last c).val + 1) = [] := List.drop_length
      rw [data_split c (last c), hdrop, List.flatMap_nil, List.append_nil, List.length_append]
      rfl
    rw [if_neg hzero, (sub_of_notAfter hlast).2, hend]

/-- **The operations of a cursor do not see the ends of the buffers.** On every chain and from every cursor they are those on the
bytes of the chain at its offset: they take the bytes that are there, throw when there are too few, and end at the offset behind
them. -/
theorem cursor_sees_one_string (c : IOBuf) (cur : CursorBase c) :
    (∀ len, cur.Takes len (fun _ => ()) "underflow" (cur.skip len)) ∧
    (∀ len, (cur.skipAtMost len).1 = min len (c.data.length - cur.pos) ∧
      (cur.skipAtMost len).2.pos = cur.pos + min len (c.data.length - cur.pos)) ∧
    (∀ len, cur.Takes len id "underflow" (cur.pull len)) ∧
    (∀ len, (cur.pullAtMost len).1 = (c.data.drop cur.pos).take len ∧
      (cur.pullAtMost len).2.1 = min len (c.data.length - cur.pos) ∧
      (cur.pullAtMost len).2.2.pos = cur.pos + min len (c.data.length - cur.pos)) ∧
    (∀ size, cur.Takes size loadUnaligned "underflow" (cur.read size)) ∧
    (∀ len, cur.Takes len id "string underflow" (cur.readFixedString len)) ∧
    (∀ len, (cur.cloneAtMost len).1.data = (c.data.drop cur.pos).take len ∧
      (cur.cloneAtMost len).2.1 = min len (c.data.length - cur.pos) ∧
      (cur.cloneAtMost len).2.2.pos = cur.pos + min len (c.data.length - cur.pos)) ∧
    (cur.isAtEnd = true ↔ cur.pos = c.data.length) ∧
    cur.totalLength = .ok (c.data.length - cur.pos) ∧
    (∀ other, NotAfter other cur → other.pos ≤ cur.pos ∧ cur.sub other = .ok (cur.pos - other.pos)) ∧
    (∀ other, ¬ NotAfter other cur → ∃ message, cur.sub other = .error message) ∧
    (cur.peek.1 <+: c.data.drop cur.pos ∧ (cur.pos < c.data.length → cur.peek.1 ≠ []) ∧ cur.peek.2.pos = cur.pos) :=
  ⟨skip_spec cur, skipAtMost_spec cur, pull_spec cur, pullAtMost_spec cur, read_spec cur, readFixedString_spec cur,
    cloneAtMost_spec cur, isAtEnd_iff cur, totalLength_eq cur, fun _ => sub_of_notAfter, fun _ => sub_of_after, peek_spec cur⟩

/-- A chain with an empty buffer in the middle. -/
def gapChain : IOBuf :=
  { head := { data := [1], tailroom := 0 }, rest := [{ tailroom := 0 }, { data := [2, 3], tailroom := 0 }] }

/-- A cursor at the end of its first buffer, and one at its start. -/
def gapCursor : CursorBase gapChain := { crtBuf := 0, offset := 1, inside := by decide }

@[inherit_doc gapCursor]
def gapStart : CursorBase gapChain := { crtBuf := 0, offset := 0, inside := by decide }

theorem cursor_sees_one_string_gap :
    (gapCursor.pull 2).1 = .ok [2, 3] ∧ gapCursor.totalLength = .ok 2 ∧ gapCursor.sub gapStart = .ok 1 ∧
      gapCursor.peek.1 ≠ [] := by
  obtain ⟨-, -, hpull, -, -, -, -, -, htotal, hsub, -, hpeek⟩ := cursor_sees_one_string gapChain gapCursor
  have htakes := hpull 2
  rw [Takes, if_pos (by decide)] at htakes
  exact ⟨htakes.1, htotal, (hsub gapStart (.inr ⟨rfl, by decide⟩)).2, hpeek.2.1 (by decide)⟩

end CursorBase

end Raster
