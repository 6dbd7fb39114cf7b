import Mathlib.Algebra.Group.Int.Defs
import Raster.Protocol.Encoding

/-!
# The sequence id of a thrift message

`setSeqId` and `getSeqId` of `raster/protocol/thrift/Protocol.h`. A message of the binary protocol starts with a
version word, which is negative, the length of the name and the name, or with the length of the name, the name
and the type; the sequence id comes next. `none` where the memory outside of the buffer is read or written.
-/

namespace Raster.Thrift

open Raster.Binary (be32 ntohl)

/-- The conversion to `int32_t`. -/
def int32 (n : Int) : Int := n.bmod (2 ^ 32)

/-- `ntohl` of the word at the offset. -/
def wordAt (buf : List UInt8) (offset : Int) : Option Nat :=
  if 0 ≤ offset ∧ offset + 4 ≤ buf.length then some (ntohl ((buf.drop offset.toNat).take 4)) else none

/-- The offset of the sequence id, or `none` for a buffer that does not pass the check of its length. The sum in
the check is one of type `size_t`. -/
def seqIdOffset (buf : List UInt8) : Option (Option Int) := do
  let first ← wordAt buf 0
  let (p, i) ← if int32 first < 0 then (wordAt buf 4).map fun (length : Nat) => ((8 : Int), int32 length)
    else some (4, int32 (int32 first + 1))
  if (i + 4) % 2 ^ 64 ≤ buf.length then some (some (p + i)) else some none

def setSeqId (buf : List UInt8) (seqid : Nat) : Option (List UInt8) := do
  match ← seqIdOffset buf with
  | none => some buf
  | some offset =>
    let _ ← wordAt buf offset
    some (buf.take offset.toNat ++ be32 seqid ++ buf.drop (offset.toNat + 4))

def getSeqId (buf : List UInt8) : Option Int := do
  match ← seqIdOffset buf with
  | none => some 0
  | some offset => (wordAt buf offset).map fun (seqid : Nat) => int32 seqid

theorem length_setSeqId {buf buf' : List UInt8} {seqid : Nat} (h : setSeqId buf seqid = some buf') :
    buf'.length = buf.length := by
  unfold setSeqId at h
  obtain ⟨offset, -, h⟩ := Option.bind_eq_some_iff.mp h
  cases offset with
  | none =>
    cases h
    rfl
  | some offset =>
    obtain ⟨word, hword, h⟩ := Option.bind_eq_some_iff.mp h
    cases h
    unfold wordAt at hword
    split_ifs at hword with hbound
    simp only [List.length_append, List.length_take, List.length_drop, Binary.length_be32]
    omega

/-! ### Messages -/

/-- What comes before the sequence id, strict or not. -/
inductive Starts : List UInt8 → Prop
  | strict (version name : List UInt8) (hversion : version.length = 4) (hnegative : 2 ^ 31 ≤ ntohl version)
      (hname : name.length < 2 ^ 31) : Starts (version ++ be32 name.length ++ name)
  | plain (name : List UInt8) (type : UInt8) (hname : name.length + 1 < 2 ^ 31) :
      Starts (be32 name.length ++ name ++ [type])

/-- A buffer that starts with a message. -/
def Message (buf : List UInt8) : Prop := ∃ pre id rest, Starts pre ∧ id.length = 4 ∧ buf = pre ++ id ++ rest

theorem Message.append {buf : List UInt8} (h : Message buf) (more : List UInt8) : Message (buf ++ more) := by
  obtain ⟨pre, id, rest, hstarts, hid, rfl⟩ := h
  exact ⟨pre, id, rest ++ more, hstarts, hid, by simp⟩

theorem Message.ne_nil {buf : List UInt8} (h : Message buf) : buf ≠ [] := by
  obtain ⟨pre, id, rest, -, hid, rfl⟩ := h
  intro hnil
  simp only [List.append_eq_nil_iff] at hnil
  rw [hnil.1.2] at hid
  cases hid

theorem wordAt_append (before after : List UInt8) {word : List UInt8} (hword : word.length = 4) {offset : Int}
    (hoffset : offset = before.length) : wordAt (before ++ word ++ after) offset = some (ntohl word) := by
  subst hoffset
  have hbound : (0 : Int) ≤ before.length ∧ (before.length : Int) + 4 ≤ (before ++ word ++ after).length := by
    simp only [List.length_append, hword]
    omega
  rw [wordAt, if_pos hbound, Int.toNat_natCast, List.append_assoc, List.drop_left, ← hword, List.take_left]

theorem ntohl_lt {word : List UInt8} (hword : word.length = 4) : ntohl word < 2 ^ 32 := by
  match word, hword with
  | [a, b, c, d], _ =>
    have := a.toNat_lt
    have := b.toNat_lt
    have := c.toNat_lt
    have := d.toNat_lt
    simp only [ntohl, List.foldl_cons, List.foldl_nil]
    omega

theorem int32_of_lt {n : Nat} (hn : n < 2 ^ 31) : int32 n = n := by
  rw [int32, Int.bmod_eq_of_le] <;> omega

theorem int32_neg {n : Nat} (hn : 2 ^ 31 ≤ n) (hlt : n < 2 ^ 32) : int32 n < 0 := by
  rw [int32, Int.bmod_def]
  omega

theorem seqIdOffset_append {pre : List UInt8} (hstarts : Starts pre) {id : List UInt8} (hid : id.length = 4)
    (rest : List UInt8) : seqIdOffset (pre ++ id ++ rest) = some (some (pre.length : Int)) := by
  have hlength : (pre ++ id ++ rest).length = pre.length + 4 + rest.length := by
    rw [List.length_append, List.length_append, hid]
  cases hstarts with
  | strict version name hversion hnegative hname =>
    have hfirst : wordAt (version ++ be32 name.length ++ name ++ id ++ rest) 0 = some (ntohl version) := by
      have hword := wordAt_append [] (be32 name.length ++ name ++ id ++ rest) hversion rfl
      simpa using hword
    have hsecond : wordAt (version ++ be32 name.length ++ name ++ id ++ rest) 4 = some name.length := by
      have hword := wordAt_append version (name ++ id ++ rest) (Binary.length_be32 name.length)
        (show (4 : Int) = version.length by rw [hversion]; rfl)
      rw [Binary.ntohl_be32 (by omega)] at hword
      simpa using hword
    have hpre : (version ++ be32 name.length ++ name).length = 8 + name.length := by
      rw [List.length_append, List.length_append, hversion, Binary.length_be32]
    have hneg := int32_neg hnegative (ntohl_lt hversion)
    rw [seqIdOffset, hfirst, Option.bind_eq_bind, Option.bind_some, if_pos hneg, hsecond, Option.map_some,
      Option.bind_eq_bind, Option.bind_some]
    simp only [int32_of_lt hname]
    rw [if_pos (by omega), hpre]
    rfl
  | plain name type hname =>
    have hfirst : wordAt (be32 name.length ++ name ++ [type] ++ id ++ rest) 0 = some name.length := by
      have hword := wordAt_append [] (name ++ [type] ++ id ++ rest) (Binary.length_be32 name.length) rfl
      rw [Binary.ntohl_be32 (by omega)] at hword
      simpa using hword
    have hpre : (be32 name.length ++ name ++ [type]).length = 4 + (name.length + 1) := by
      rw [List.length_append, List.length_append, Binary.length_be32, List.length_singleton]
      omega
    have hnot : ¬ int32 name.length < 0 := by
      rw [int32_of_lt (by omega)]
      omega
    have hsum : int32 (int32 name.length + 1) = (name.length + 1 : Nat) := by
      rw [int32_of_lt (n := name.length) (by omega), ← int32_of_lt hname]
      rfl
    rw [seqIdOffset, hfirst, Option.bind_eq_bind, Option.bind_some, if_neg hnot, Option.bind_eq_bind, Option.bind_some]
    simp only [hsum]
    rw [if_pos (by omega), hpre]
    rfl

theorem getSeqId_append {pre : List UInt8} (hstarts : Starts pre) {id : List UInt8} (hid : id.length = 4)
    (rest : List UInt8) : getSeqId (pre ++ id ++ rest) = some (int32 (ntohl id)) := by
  rw [getSeqId, seqIdOffset_append hstarts hid, Option.bind_eq_bind, Option.bind_some]
  simp only [wordAt_append pre rest hid rfl, Option.map_some]

theorem setSeqId_append {pre : List UInt8} (hstarts : Starts pre) {id : List UInt8} (hid : id.length = 4)
    (rest : List UInt8) (seqid : Nat) : setSeqId (pre ++ id ++ rest) seqid = some (pre ++ be32 seqid ++ rest) := by
  rw [setSeqId, seqIdOffset_append hstarts hid, Option.bind_eq_bind, Option.bind_some]
  simp only [wordAt_append pre rest hid rfl, Option.bind_eq_bind, Option.bind_some, Int.toNat_natCast]
  have htake : (pre ++ id ++ rest).take pre.length = pre := by rw [List.append_assoc, List.take_left]
  have hdrop : (pre ++ id ++ rest).drop (pre.length + 4) = rest := by
    rw [← hid, ← List.length_append, List.drop_left]
  rw [htake, hdrop]

theorem Message.setSeqId {buf : List UInt8} (h : Message buf) (seqid : Nat) :
    ∃ buf', Thrift.setSeqId buf seqid = some buf' ∧ Message buf' ∧ buf'.length = buf.length ∧
      getSeqId buf' = some (int32 seqid) := by
  obtain ⟨pre, id, rest, hstarts, hid, rfl⟩ := h
  refine ⟨pre ++ be32 seqid ++ rest, setSeqId_append hstarts hid rest seqid, ⟨pre, _, rest, hstarts, rfl, rfl⟩, ?_, ?_⟩
  · simp only [List.length_append, Binary.length_be32, hid]
  · rw [getSeqId_append hstarts (Binary.length_be32 seqid), Binary.ntohl_be32_mod, int32, Int.natCast_emod]
    exact congrArg some (Int.emod_bmod ..)

/-! ### What is read and written -/

/-- Where the words at the start end and what the field is behind them, or `none` where they are not all there. -/
def header (buf : List UInt8) : Option (Int × Int) :=
  (wordAt buf 0).bind fun (first : Nat) =>
    if int32 first < 0 then (wordAt buf 4).map fun (length : Nat) => (8, int32 length)
    else some (4, int32 (int32 first + 1))

/-- The field of the sequence id is in the buffer, with all of its bytes. -/
def HoldsField (buf : List UInt8) : Prop := ∃ p i, header buf = some (p, i) ∧ 0 ≤ p + i ∧ p + i + 4 ≤ buf.length

/-- `setSeqId` and `getSeqId` stay inside of the buffer. One that does not hold the field is left as it is, and its
sequence id is `0`. -/
def StaysInside (buf : List UInt8) (seqid : Nat) : Prop :=
  ∃ buf' id, setSeqId buf seqid = some buf' ∧ getSeqId buf = some id ∧ (¬ HoldsField buf → buf' = buf ∧ id = 0)

/-- The word at the offset, as far as it is there. -/
def word (buf : List UInt8) (offset : Nat) : Nat := ntohl ((buf.drop offset).take 4)

/-- The length suits the words at the start. There are lengths the check lets pass with the field behind the end,
for the words themselves are not counted by it; a name of a length from `-4` to `-1` passes it always. -/
def LengthSuits (buf : List UInt8) : Prop :=
  4 ≤ buf.length ∧
    if word buf 0 < 2 ^ 31 then word buf 0 + 1 < 2 ^ 31 → word buf 0 + 5 ≤ buf.length → word buf 0 + 9 ≤ buf.length
    else 8 ≤ buf.length ∧
      (word buf 4 < 2 ^ 31 → word buf 4 + 4 ≤ buf.length → word buf 4 + 12 ≤ buf.length) ∧
      (2 ^ 32 ≤ word buf 4 + 4 → word buf 4 + 12 ≤ buf.length + 2 ^ 32)

instance (buf : List UInt8) : Decidable (LengthSuits buf) := by
  unfold LengthSuits
  infer_instance

theorem wordAt_isSome_iff {buf : List UInt8} {offset : Int} :
    (wordAt buf offset).isSome ↔ 0 ≤ offset ∧ offset + 4 ≤ buf.length := by
  unfold wordAt
  split_ifs with hbound <;> simpa using hbound

theorem seqIdOffset_eq (buf : List UInt8) :
    seqIdOffset buf = (header buf).bind fun words =>
      if (words.2 + 4) % 2 ^ 64 ≤ buf.length then some (some (words.1 + words.2)) else some none := by
  unfold seqIdOffset header
  cases wordAt buf 0 with
  | none => rfl
  | some first =>
    rw [Option.bind_eq_bind, Option.bind_some, Option.bind_some]
    by_cases hneg : int32 first < 0
    · rw [if_pos hneg, if_pos hneg, Option.bind_eq_bind]
    · rw [if_neg hneg, if_neg hneg, Option.bind_eq_bind]

theorem staysInside_iff (buf : List UInt8) (seqid : Nat) :
    StaysInside buf seqid ↔
      ∃ p i, header buf = some (p, i) ∧ ((i + 4) % 2 ^ 64 ≤ buf.length → 0 ≤ p + i ∧ p + i + 4 ≤ buf.length) := by
  constructor
  · rintro ⟨buf', id, -, hget, -⟩
    obtain ⟨offset, hoffset, hget⟩ := Option.bind_eq_some_iff.mp hget
    rw [seqIdOffset_eq] at hoffset
    obtain ⟨⟨p, i⟩, hheader, hoffset⟩ := Option.bind_eq_some_iff.mp hoffset
    refine ⟨p, i, hheader, fun hcheck => ?_⟩
    simp only [if_pos hcheck, Option.some.injEq] at hoffset
    subst hoffset
    obtain ⟨word, hword, -⟩ := Option.map_eq_some_iff.mp hget
    exact wordAt_isSome_iff.mp (hword ▸ rfl)
  · rintro ⟨p, i, hheader, hfield⟩
    have hoffset := seqIdOffset_eq buf
    rw [hheader, Option.bind_some] at hoffset
    by_cases hcheck : (i + 4) % 2 ^ 64 ≤ buf.length
    · simp only [if_pos hcheck] at hoffset
      obtain ⟨word, hword⟩ := Option.isSome_iff_exists.mp (wordAt_isSome_iff.mpr (hfield hcheck))
      refine ⟨buf.take (p + i).toNat ++ be32 seqid ++ buf.drop ((p + i).toNat + 4), int32 word, ?_, ?_, fun hnot => ?_⟩
      · rw [setSeqId, hoffset, Option.bind_eq_bind, Option.bind_some]
        simp only [hword, Option.bind_eq_bind, Option.bind_some]
      · rw [getSeqId, hoffset, Option.bind_eq_bind, Option.bind_some]
        simp only [hword, Option.map_some]
      · exact absurd ⟨p, i, hheader, hfield hcheck⟩ hnot
    · simp only [if_neg hcheck] at hoffset
      refine ⟨buf, 0, ?_, ?_, fun _ => ⟨rfl, rfl⟩⟩
      · rw [setSeqId, hoffset, Option.bind_eq_bind, Option.bind_some]
      · rw [getSeqId, hoffset, Option.bind_eq_bind, Option.bind_some]

theorem wordAt_eq_word {buf : List UInt8} {offset : Nat} (h : offset + 4 ≤ buf.length) :
    wordAt buf offset = some (word buf offset) := by
  rw [wordAt, if_pos (by omega), Int.toNat_natCast]
  rfl

theorem word_lt {buf : List UInt8} {offset : Nat} (h : offset + 4 ≤ buf.length) : word buf offset < 2 ^ 32 := by
  refine ntohl_lt ?_
  rw [List.length_take, List.length_drop]
  omega

theorem header_short {buf : List UInt8} (h : buf.length < 4) : header buf = none := by
  have hfirst : wordAt buf 0 = none := by rw [wordAt, if_neg (by omega)]
  rw [header, hfirst, Option.bind_none]

theorem header_plain {buf : List UInt8} (h : 4 ≤ buf.length) (hfirst : word buf 0 < 2 ^ 31) :
    header buf = some (4, if word buf 0 + 1 < 2 ^ 31 then (word buf 0 + 1 : Int) else - 2 ^ 31) := by
  have hword : wordAt buf 0 = some (word buf 0) := wordAt_eq_word (by omega)
  have hi : int32 (word buf 0 + 1) = if word buf 0 + 1 < 2 ^ 31 then (word buf 0 + 1 : Int) else - 2 ^ 31 := by
    rw [int32, Int.bmod_def]
    split_ifs <;> omega
  rw [header, hword, Option.bind_some, int32_of_lt hfirst, if_neg (by omega), hi]

theorem header_strict {buf : List UInt8} (h : 4 ≤ buf.length) (hfirst : ¬ word buf 0 < 2 ^ 31) :
    header buf = if 8 ≤ buf.length then
      some (8, if word buf 4 < 2 ^ 31 then (word buf 4 : Int) else word buf 4 - 2 ^ 32) else none := by
  have hword : wordAt buf 0 = some (word buf 0) := wordAt_eq_word (by omega)
  have hneg : int32 (word buf 0) < 0 := int32_neg (by omega) (word_lt (by omega))
  rw [header, hword, Option.bind_some, if_pos hneg]
  split_ifs with height hsecond
  · have hword' : wordAt buf 4 = some (word buf 4) := wordAt_eq_word (by omega)
    rw [hword', Option.map_some, int32_of_lt hsecond]
  · have hword' : wordAt buf 4 = some (word buf 4) := wordAt_eq_word (by omega)
    have hlt : word buf 4 < 2 ^ 32 := word_lt (by omega)
    have hi : int32 (word buf 4) = word buf 4 - 2 ^ 32 := by
      rw [int32, Int.bmod_def]
      omega
    rw [hword', Option.map_some, hi]
  · have hword' : wordAt buf 4 = none := by rw [wordAt, if_neg (by omega)]
    rw [hword', Option.map_none]

/-- **The sequence id is read and written inside of the buffer exactly when the length of the buffer suits the words
at its start.** -/
theorem staysInside_iff_lengthSuits (buf : List UInt8) (seqid : Nat) (hn : buf.length < 2 ^ 32) :
    StaysInside buf seqid ↔ LengthSuits buf := by
  rw [staysInside_iff, LengthSuits]
  by_cases hfour : 4 ≤ buf.length
  swap
  · rw [header_short (by omega)]
    constructor
    · rintro ⟨_, _, ⟨⟩, -⟩
    · exact fun hsuits => absurd hsuits.1 hfour
  by_cases hfirst : word buf 0 < 2 ^ 31
  · rw [header_plain hfour hfirst, if_pos hfirst]
    constructor
    · rintro ⟨_, _, ⟨⟩, hfield⟩
      refine ⟨hfour, fun hlast hcheck => ?_⟩
      rw [if_pos hlast] at hfield
      omega
    · rintro ⟨-, hfield⟩
      refine ⟨_, _, rfl, fun hcheck => ?_⟩
      split_ifs at hcheck ⊢ with hlast
      · have := hfield hlast
        omega
      · omega
  · rw [header_strict hfour hfirst, if_neg hfirst]
    by_cases height : 8 ≤ buf.length
    swap
    · rw [if_neg height]
      constructor
      · rintro ⟨_, _, ⟨⟩, -⟩
      · exact fun hsuits => absurd hsuits.2.1 height
    have hlt : word buf 4 < 2 ^ 32 := word_lt (by omega)
    rw [if_pos height]
    constructor
    · rintro ⟨_, _, ⟨⟩, hfield⟩
      refine ⟨hfour, height, fun hlength hcheck => ?_, fun hlength => ?_⟩
      · rw [if_pos hlength] at hfield
        omega
      · rw [if_neg (by omega)] at hfield
        omega
    · rintro ⟨-, -, hplus, hless⟩
      refine ⟨_, _, rfl, fun hcheck => ?_⟩
      split_ifs at hcheck ⊢ with hlength
      · have := hplus hlength
        omega
      · omega

theorem staysInside_iff_lengthSuits_reply :
    StaysInside [0x80, 1, 0, 2, 0, 0, 0, 0, 0, 0, 0, 7] 5 ↔ LengthSuits [0x80, 1, 0, 2, 0, 0, 0, 0, 0, 0, 0, 7] :=
  staysInside_iff_lengthSuits _ 5 (by decide)

/-- A frame of `8` bytes: the check lets it pass, and the id is read behind its end. -/
theorem staysInside_false_reply : ¬ StaysInside [0x80, 1, 0, 2, 0, 0, 0, 0] 5 := by
  rintro ⟨buf', id, -, hget, -⟩
  have hnone : getSeqId [0x80, 1, 0, 2, 0, 0, 0, 0] = none := by decide
  rw [hnone] at hget
  cases hget

/-- **Setting the sequence id of a message changes exactly its sequence id**, whatever the layout of the message is:
the id that is set is read, the message had its own, and each byte but those of the id is left as it is. -/
theorem setSeqId_exact {pre : List UInt8} (hstarts : Starts pre) {id : List UInt8} (hid : id.length = 4)
    (rest : List UInt8) (s : Int) (hs : - 2 ^ 31 ≤ s ∧ s < 2 ^ 31) :
    ∃ m, setSeqId (pre ++ id ++ rest) (s % 2 ^ 32).toNat = some m ∧ getSeqId m = some s ∧
      getSeqId (pre ++ id ++ rest) = some (int32 (ntohl id)) ∧ m.length = (pre ++ id ++ rest).length ∧
      ∀ k : Nat, k < pre.length ∨ pre.length + 4 ≤ k → m[k]? = (pre ++ id ++ rest)[k]? := by
  refine ⟨_, setSeqId_append hstarts hid rest _, ?_, getSeqId_append hstarts hid rest, ?_, fun k hk => ?_⟩
  · have hlt : (s % 2 ^ 32).toNat < 2 ^ 32 := by omega
    rw [getSeqId_append hstarts (Binary.length_be32 _), Binary.ntohl_be32 hlt, int32, Int.bmod_def]
    refine congrArg some ?_
    split_ifs <;> omega
  · simp only [List.length_append, Binary.length_be32, hid]
  · rcases hk with hk | hk
    · rw [List.append_assoc, List.append_assoc, List.getElem?_append_left hk, List.getElem?_append_left hk]
    · have hset : (pre ++ be32 (s % 2 ^ 32).toNat).length ≤ k := by
        rw [List.length_append, Binary.length_be32]
        exact hk
      have hwas : (pre ++ id).length ≤ k := by
        rw [List.length_append, hid]
        exact hk
      rw [List.getElem?_append_right hset, List.getElem?_append_right hwas, List.length_append, List.length_append,
        Binary.length_be32, hid]

/-- A call of `ping` in both layouts, and the least id. -/
theorem setSeqId_exact_ping :
    Starts ([0x80, 1, 0, 1] ++ be32 4 ++ [112, 105, 110, 103]) ∧ Starts (be32 4 ++ [112, 105, 110, 103] ++ [1]) ∧
      (∃ m, setSeqId ([0x80, 1, 0, 1] ++ be32 4 ++ [112, 105, 110, 103] ++ [0, 0, 0, 9] ++ [0])
          ((- 2 ^ 31 : Int) % 2 ^ 32).toNat = some m ∧ getSeqId m = some (- 2 ^ 31)) ∧
      ∃ m, setSeqId (be32 4 ++ [112, 105, 110, 103] ++ [1] ++ [0, 0, 0, 9] ++ [0]) ((7 : Int) % 2 ^ 32).toNat = some m ∧
        getSeqId m = some 7 := by
  have hstrict : Starts ([0x80, 1, 0, 1] ++ be32 4 ++ [112, 105, 110, 103]) :=
    Starts.strict [0x80, 1, 0, 1] [112, 105, 110, 103] rfl (by decide) (by decide)
  have hplain : Starts (be32 4 ++ [112, 105, 110, 103] ++ [1]) := Starts.plain [112, 105, 110, 103] 1 (by decide)
  obtain ⟨m, hm, hget, -⟩ := setSeqId_exact hstrict (show ([0, 0, 0, 9] : List UInt8).length = 4 from rfl) [0] (- 2 ^ 31)
    (by omega)
  obtain ⟨m', hm', hget', -⟩ := setSeqId_exact hplain (show ([0, 0, 0, 9] : List UInt8).length = 4 from rfl) [0] 7 (by omega)
  exact ⟨hstrict, hplain, ⟨m, hm, hget⟩, m', hm', hget'⟩

end Raster.Thrift
