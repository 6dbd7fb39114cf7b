import Raster.Net.Protocol
import Raster.Util.Range

/-!
# Reading up to a delimiter

`Protocol::readDataUntil`. The appender keeps a pointer to the last buffer of the chain. `coalesce` frees all
buffers of a chain but the first, and then the pointer dangles: `none` where the loop uses it all the same.

`ZlibBinaryProtocol` takes the marker of a sync flush for the end of a message, but the blocks before the flush may have
it among their bytes.
-/

namespace Raster

/-- The receiving side of an event, with what each call of `recv` returned. -/
structure Until extends Inbound where
  recvs : List (List UInt8) := []

namespace Protocol

/-- The head of the loop: a full buffer is followed by a new one. -/
def grown (rbuf : IOBuf) : IOBuf := if rbuf.last.tailroom = 0 then rbuf.ensure chunkSize chunkSize else rbuf

/-- The loop; `dangling` says that the buffer of the appender was freed. -/
def untilLoop (delim : List UInt8) : List Outcome → (dangling : Bool) → Until → Option (IOResult × Until)
  | _, true, _ => none
  | [], false, u => some (.again, { u with rbuf := grown u.rbuf })
  | o :: os, false, u =>
    let rbuf := grown u.rbuf
    match o with
    | .bytes n =>
      let bytes := u.input.take (min (max n 1) rbuf.last.tailroom)
      if bytes = [] then some (.again, { u with rbuf })
      else
        let rbuf := rbuf.append bytes
        let u := { u with rbuf := rbuf.coalesce, input := u.input.drop bytes.length, recvs := u.recvs ++ [bytes] }
        if (qfind u.rbuf.head.data delim).isSome then some (.complete, u) else untilLoop delim os rbuf.isChained u
    | .again true => some (.timeout, { u with rbuf })
    | .again false => some (.again, { u with rbuf })
    | .reset => some (.closed, { u with rbuf })
    | .failed => some (.error, { u with rbuf })
    | .closed => some (.closed, { u with rbuf })

def readDataUntil (os : List Outcome) (delim : List UInt8) (u : Until) : Option (IOResult × Until) :=
  untilLoop delim os false u

end Protocol

def ZlibBinaryProtocol.readData (os : List Outcome) (u : Until) : Option (IOResult × Until) :=
  Protocol.readDataUntil os [0x00, 0x00, 0xff, 0xff] u

namespace Until

open Protocol (chunkSize grown untilLoop readDataUntil)

def start (stream : List UInt8) : Until := { rbuf := IOBuf.create chunkSize, rlen := 0, input := stream }

/-- One call after the other as long as they end with `EAGAIN`: what each of them left. A call is given by the
sizes of its receives before the `EAGAIN`. -/
def returns (delim : List UInt8) : Until → List (List Nat) → Option (List (IOResult × Until))
  | _, [] => some []
  | u, sizes :: calls =>
    match readDataUntil (sizes.map .bytes) delim u with
    | none => none
    | some (.again, u) => (returns delim u calls).map ((.again, u) :: ·)
    | some (r, u) => some [(r, u)]

/-- After a return, the chain has all bytes that were received, and it returned 0 if and only if the last of
the receives completed the delimiter. -/
structure Exact (delim : List UInt8) (r : IOResult) (u : Until) : Prop where
  data_eq : u.rbuf.data = u.recvs.flatten
  complete_iff : r = .complete ↔ delim <:+: u.recvs.flatten
  first : ¬ delim <:+: u.recvs.dropLast.flatten

/-- The size of the first receive after `room` bytes were received. -/
def beyond : (room : Nat) → List Nat → Option Nat
  | _, [] => none
  | 0, n :: _ => some n
  | room + 1, n :: sizes => beyond (room + 1 - max n 1) sizes

/-- The first receive beyond the first buffer, which has `room` bytes left, completes the delimiter. -/
def EndsInTime (delim stream : List UInt8) (room : Nat) (sizes : List Nat) : Prop :=
  chunkSize < stream.length → ∀ n ∈ beyond room sizes, delim <:+: stream.take (chunkSize + min (max n 1) chunkSize)

/-! ### The first buffer -/

/-- `p` bytes were received, and fit into the first buffer; a second one may follow it. -/
structure Filling (delim stream : List UInt8) (p : Nat) (u : Until) : Prop where
  le : p ≤ chunkSize
  le_stream : p ≤ stream.length
  head_eq : u.rbuf.head.data = stream.take p
  room : u.rbuf.rest = [] ∧ u.rbuf.head.tailroom = chunkSize - p ∨ u.rbuf.rest = [Buf.create chunkSize] ∧ p = chunkSize
  input_eq : u.input = stream.drop p
  recvs_eq : u.recvs.flatten = stream.take p
  not_yet : ¬ delim <:+: stream.take p

section

variable {delim stream : List UInt8} {p : Nat} {u : Until}

theorem tailroom_create : (Buf.create chunkSize).tailroom = chunkSize := by decide

theorem filling_start (hdelim : delim ≠ []) (stream : List UInt8) : Filling delim stream 0 (start stream) where
  le := Nat.zero_le _
  le_stream := Nat.zero_le _
  head_eq := rfl
  room := Or.inl ⟨rfl, tailroom_create⟩
  input_eq := rfl
  recvs_eq := rfl
  not_yet h := hdelim (List.infix_nil.mp h)

theorem Filling.data_eq (h : Filling delim stream p u) : u.rbuf.data = stream.take p := by
  rw [← h.head_eq, IOBuf.data, IOBuf.bufs, List.flatMap_cons]
  rcases h.room with ⟨hrest, -⟩ | ⟨hrest, -⟩ <;> simp [hrest]

theorem Filling.exact (h : Filling delim stream p u) : Exact delim .again u where
  data_eq := by rw [h.data_eq, h.recvs_eq]
  complete_iff := by
    rw [h.recvs_eq]
    exact iff_of_false nofun h.not_yet
  first hoccurs := by
    refine h.not_yet (h.recvs_eq ▸ hoccurs.trans ?_)
    exact (List.dropLast_prefix u.recvs).flatten.isInfix

/-- The chain that the next receive writes to. -/
structure Grown (stream : List UInt8) (p : Nat) (rbuf : IOBuf) : Prop where
  head_eq : rbuf.head.data = stream.take p
  first : p < chunkSize → rbuf.rest = [] ∧ rbuf.last.tailroom = chunkSize - p
  second : p = chunkSize → rbuf.rest = [Buf.create chunkSize] ∧ rbuf.last.tailroom = chunkSize

theorem Filling.grown (h : Filling delim stream p u) : Grown stream p (grown u.rbuf) := by
  have hle := h.le
  have hpos : chunkSize ≠ 0 := by decide
  rcases h.room with ⟨hrest, hroom⟩ | ⟨hrest, rfl⟩
  · have hlast : u.rbuf.last = u.rbuf.head := by rw [IOBuf.last, hrest, List.getLastD_nil]
    by_cases hfull : p = chunkSize
    · have hzero : u.rbuf.last.tailroom = 0 := by rw [hlast]; omega
      have hgrown : Protocol.grown u.rbuf = u.rbuf.prependChain (IOBuf.create chunkSize) := by
        rw [Protocol.grown, if_pos hzero, IOBuf.ensure, if_neg (by omega), Nat.max_self]
      refine ⟨by rw [hgrown]; exact h.head_eq, fun hlt => absurd hfull (by omega), fun _ => ⟨?_, ?_⟩⟩
      · rw [hgrown, IOBuf.prependChain, hrest]
        rfl
      · rw [hgrown, IOBuf.last_prependChain_create, tailroom_create]
    · have hgrown : Protocol.grown u.rbuf = u.rbuf := by rw [Protocol.grown, if_neg (by rw [hlast]; omega)]
      rw [hgrown]
      exact ⟨h.head_eq, fun _ => ⟨hrest, by rw [hlast]; exact hroom⟩, fun hfull' => absurd hfull' hfull⟩
  · have hlast : u.rbuf.last = Buf.create chunkSize := by rw [IOBuf.last, hrest]; rfl
    have hgrown : Protocol.grown u.rbuf = u.rbuf := by rw [Protocol.grown, if_neg (by rw [hlast, tailroom_create]; exact hpos)]
    rw [hgrown]
    exact ⟨h.head_eq, fun hlt => absurd hlt (Nat.lt_irrefl _), fun _ => ⟨hrest, by rw [hlast, tailroom_create]⟩⟩

theorem Filling.with_grown (h : Filling delim stream p u) : Filling delim stream p { u with rbuf := Protocol.grown u.rbuf } where
  le := h.le
  le_stream := h.le_stream
  head_eq := h.grown.head_eq
  room := by
    rcases Nat.eq_or_lt_of_le h.le with hfull | hlt
    · exact Or.inr ⟨(h.grown.second hfull).1, hfull⟩
    · obtain ⟨hrest, hroom⟩ := h.grown.first hlt
      refine Or.inl ⟨hrest, ?_⟩
      rw [← hroom, IOBuf.last, hrest, List.getLastD_nil]
  input_eq := h.input_eq
  recvs_eq := h.recvs_eq
  not_yet := h.not_yet

/-! ### One call -/

/-- How a call ends, and what this says about the first receive beyond the first buffer. -/
inductive Ended (delim stream : List UInt8) (room : Nat) (sizes : List Nat) : Option (IOResult × Until) → Prop
  | again {p : Nat} {u : Until} (hfilling : Filling delim stream p u)
      (hends : ∀ more, EndsInTime delim stream room (sizes ++ more) ↔ EndsInTime delim stream (chunkSize - p) more) :
      Ended delim stream room sizes (some (.again, u))
  | complete {u : Until} (hexact : Exact delim .complete u) (hends : ∀ more, EndsInTime delim stream room (sizes ++ more)) :
      Ended delim stream room sizes (some (.complete, u))
  | dangling (hends : ∀ more, ¬ EndsInTime delim stream room (sizes ++ more)) : Ended delim stream room sizes none

theorem beyond_cons {room n : Nat} (hroom : room ≠ 0) (sizes : List Nat) :
    beyond room (n :: sizes) = beyond (room - max n 1) sizes := by
  obtain ⟨r, rfl⟩ := Nat.exists_eq_succ_of_ne_zero hroom
  rfl

theorem Ended.cons {room room' n : Nat} {sizes : List Nat} {r : Option (IOResult × Until)}
    (hroom : ∀ more, EndsInTime delim stream room (n :: more) ↔ EndsInTime delim stream room' more)
    (h : Ended delim stream room' sizes r) : Ended delim stream room (n :: sizes) r := by
  cases h with
  | again hfilling hends => exact .again hfilling fun more => (hroom _).trans (hends more)
  | complete hexact hends => exact .complete hexact fun more => (hroom _).mpr (hends more)
  | dangling hends => exact .dangling fun more h => hends more ((hroom _).mp h)

/-- What a receive reads: the next `k` bytes, up to the end of the first buffer, or beyond it. -/
structure Piece (stream : List UInt8) (p n : Nat) (bytes : List UInt8) : Prop where
  ne_nil : bytes ≠ []
  take_eq : stream.take p ++ bytes = stream.take (p + bytes.length)
  le_stream : p + bytes.length ≤ stream.length
  first : p < chunkSize → p + bytes.length ≤ chunkSize ∧ (chunkSize < stream.length → bytes.length = min (max n 1) (chunkSize - p))
  second : p = chunkSize → stream.take (p + bytes.length) = stream.take (chunkSize + min (max n 1) chunkSize)

theorem Filling.piece (h : Filling delim stream p u) (hlt : p < stream.length) (n : Nat) :
    Piece stream p n (u.input.take (min (max n 1) (Protocol.grown u.rbuf).last.tailroom)) := by
  obtain ⟨m, hm⟩ : ∃ m, m = min (max n 1) (Protocol.grown u.rbuf).last.tailroom := ⟨_, rfl⟩
  have hfirst : p < chunkSize → m = min (max n 1) (chunkSize - p) := fun hp => by rw [hm, (h.grown.first hp).2]
  have hsecond : p = chunkSize → m = min (max n 1) chunkSize := fun hp => by rw [hm, (h.grown.second hp).2]
  have hpos : 0 < chunkSize := by decide
  have hle := h.le
  have hlength : (stream.drop p |>.take m).length = min m (stream.length - p) := by rw [List.length_take, List.length_drop]
  rw [← hm, h.input_eq]
  refine ⟨?_, ?_, ?_, fun hp => ?_, fun hp => ?_⟩
  · intro hnil
    rw [hnil, List.length_nil] at hlength
    omega
  · rw [← List.take_add, hlength, List.take_eq_take_iff]
    omega
  · omega
  · have := hfirst hp
    omega
  · have := hsecond hp
    rw [hlength, List.take_eq_take_iff]
    omega

theorem isChained_append (c : IOBuf) (bytes : List UInt8) : (c.append bytes).isChained = c.isChained := by
  obtain ⟨head, rest⟩ := c
  cases rest <;> simp [IOBuf.append, IOBuf.setLast, IOBuf.isChained]

theorem Filling.received {n : Nat} {bytes : List UInt8} (h : Filling delim stream p u) (hpiece : Piece stream p n bytes)
    (hroom : p < chunkSize) (hnot : ¬ delim <:+: stream.take (p + bytes.length)) :
    Filling delim stream (p + bytes.length) { u with
      rbuf := ((Protocol.grown u.rbuf).append bytes).coalesce
      input := u.input.drop bytes.length
      recvs := u.recvs ++ [bytes] } := by
  obtain ⟨hrest, htailroom⟩ := h.grown.first hroom
  have hsingle : ((Protocol.grown u.rbuf).append bytes).coalesce = { head := (Protocol.grown u.rbuf).last.append bytes } := by
    rw [IOBuf.coalesce, isChained_append, IOBuf.isChained, hrest]
    simp [IOBuf.append, IOBuf.setLast, hrest]
  refine ⟨(hpiece.first hroom).1, hpiece.le_stream, ?_, Or.inl ⟨?_, ?_⟩, ?_, ?_, hnot⟩
  · simp only [IOBuf.head_data_coalesce, IOBuf.data_append, h.with_grown.data_eq, hpiece.take_eq]
  · simp only [hsingle]
  · simp only [hsingle, Buf.tailroom_append, htailroom]
    omega
  · simp only [h.input_eq, List.drop_drop]
  · simp only [List.flatten_append, h.recvs_eq, List.flatten_cons, List.flatten_nil, List.append_nil, hpiece.take_eq]

/-- The bytes of the next receive. -/
def next (u : Until) (n : Nat) : List UInt8 := u.input.take (min (max n 1) (Protocol.grown u.rbuf).last.tailroom)

/-- What one receive leads to: the delimiter is there, the first buffer is filled on, or the appender is left with a
buffer that `coalesce` has freed. -/
inductive Received (delim stream : List UInt8) (p : Nat) (u : Until) (n : Nat) (os : List Outcome) :
    Option (IOResult × Until) → Prop
  | found {u' : Until} (hfound : delim <:+: stream.take (p + (u.next n).length))
      (hdata : u'.rbuf.data = stream.take (p + (u.next n).length)) (hrecvs : u'.recvs = u.recvs ++ [u.next n]) :
      Received delim stream p u n os (some (.complete, u'))
  | filled {u' : Until} (hroom : p < chunkSize) (hfilling : Filling delim stream (p + (u.next n).length) u') :
      Received delim stream p u n os (untilLoop delim os false u')
  | freed (hfull : p = chunkSize) (hnot : ¬ delim <:+: stream.take (p + (u.next n).length)) :
      Received delim stream p u n os none

theorem untilLoop_received (hdelim : delim ≠ []) (h : Filling delim stream p u) (hlt : p < stream.length) (n : Nat)
    (os : List Outcome) : Received delim stream p u n os (untilLoop delim (.bytes n :: os) false u) := by
  have hpiece : Piece stream p n (u.next n) := h.piece hlt n
  obtain ⟨bytes, hbytes⟩ : ∃ bytes, u.next n = bytes := ⟨_, rfl⟩
  have hinput : u.input.take (min (max n 1) (Protocol.grown u.rbuf).last.tailroom) = bytes := hbytes
  rw [hbytes] at hpiece
  have hdata : ((Protocol.grown u.rbuf).append bytes).data = stream.take (p + bytes.length) := by
    rw [IOBuf.data_append, h.with_grown.data_eq, hpiece.take_eq]
  simp only [untilLoop, hinput, if_neg hpiece.ne_nil, IOBuf.head_data_coalesce, hdata, isSome_qfind_iff hdelim]
  split_ifs with hfound
  · exact .found (hbytes ▸ hfound) (by rw [hbytes, IOBuf.data_coalesce, hdata]) (by rw [hbytes])
  · rcases Nat.eq_or_lt_of_le h.le with hfull | hroom
    · have hchained : ((Protocol.grown u.rbuf).append bytes).isChained = true := by
        rw [isChained_append, IOBuf.isChained, (h.grown.second hfull).1]
        rfl
      rw [hchained, untilLoop]
      exact .freed hfull (hbytes ▸ hfound)
    · have hsingle : ((Protocol.grown u.rbuf).append bytes).isChained = false := by
        rw [isChained_append, IOBuf.isChained, (h.grown.first hroom).1]
        rfl
      have hfilling := h.received hpiece hroom hfound
      rw [hsingle]
      exact .filled hroom (by rw [hbytes]; exact hfilling)

theorem untilLoop_ended (hdelim : delim ≠ []) (sizes : List Nat) (h : Filling delim stream p u) :
    Ended delim stream (chunkSize - p) sizes (untilLoop delim (sizes.map .bytes) false u) := by
  induction sizes generalizing p u with
  | nil => exact .again h.with_grown fun more => Iff.rfl
  | cons n sizes ih =>
    have hle := h.le
    rcases Nat.eq_or_lt_of_le h.le_stream with hend | hlt
    · have hnil : u.input.take (min (max n 1) (Protocol.grown u.rbuf).last.tailroom) = [] := by
        rw [h.input_eq, hend, List.drop_length, List.take_nil]
      simp only [List.map_cons, untilLoop, if_pos hnil]
      refine .again h.with_grown fun more => iff_of_true (fun hlong => ?_) fun hlong => ?_ <;> omega
    · have hpiece : Piece stream p n (u.next n) := h.piece hlt n
      have hreceived := untilLoop_received hdelim h hlt n (sizes.map .bytes)
      rw [List.map_cons]
      generalize untilLoop delim (.bytes n :: sizes.map .bytes) false u = result at hreceived
      cases hreceived with
      | found hfound hdata hrecvs =>
        have hflatten : (u.recvs ++ [u.next n]).flatten = stream.take (p + (u.next n).length) := by
          rw [List.flatten_append, h.recvs_eq, ← hpiece.take_eq, List.flatten_singleton]
        refine .complete ⟨?_, ?_, ?_⟩ fun more hlong m hm => hfound.trans ?_
        · rw [hdata, hrecvs, hflatten]
        · rw [hrecvs, hflatten]
          exact iff_of_true rfl hfound
        · rw [hrecvs, List.dropLast_concat, h.recvs_eq]
          exact h.not_yet
        · rcases Nat.eq_or_lt_of_le hle with hfull | hroom
          · rw [hfull, Nat.sub_self] at hm
            rw [hpiece.second hfull, Option.some.inj hm]
          · exact (List.take_prefix_take_left (by have := (hpiece.first hroom).1; omega)).isInfix
      | filled hroom hfilling =>
        obtain ⟨hfit, hall⟩ := hpiece.first hroom
        refine Ended.cons (fun more => ?_) (ih hfilling)
        by_cases hlong : chunkSize < stream.length
        · have := hall hlong
          rw [EndsInTime, EndsInTime, beyond_cons (by omega),
            show chunkSize - p - max n 1 = chunkSize - (p + (u.next n).length) by omega]
        · exact iff_of_true (fun h => absurd h hlong) fun h => absurd h hlong
      | freed hfull hnot =>
        refine .dangling fun more hends => hnot ?_
        rw [hpiece.second hfull]
        exact hends (hfull ▸ hlt) n (by rw [hfull, Nat.sub_self]; rfl)

/-! ### Whole runs -/

theorem returns_exact_iff (hdelim : delim ≠ []) (calls : List (List Nat)) (h : Filling delim stream p u) :
    (∃ rs, returns delim u calls = some rs ∧ ∀ x ∈ rs, Exact delim x.1 x.2) ↔
      EndsInTime delim stream (chunkSize - p) calls.flatten := by
  induction calls generalizing p u with
  | nil => exact iff_of_true ⟨[], rfl, by simp⟩ fun _ n hn => by simp [beyond] at hn
  | cons sizes calls ih =>
    have hended := untilLoop_ended hdelim sizes h
    rw [List.flatten_cons, returns, readDataUntil]
    cases hcall : untilLoop delim (sizes.map .bytes) false u with
    | none =>
      rw [hcall] at hended
      cases hended with
      | dangling hends => exact iff_of_false (by simp) (hends calls.flatten)
    | some ru =>
      rw [hcall] at hended
      cases hended with
      | complete hexact hends => exact iff_of_true ⟨_, rfl, by simpa using hexact⟩ (hends calls.flatten)
      | again hfilling hends =>
        rw [hends, ← ih hfilling]
        simp only [Option.map_eq_some_iff]
        constructor
        · rintro ⟨_, ⟨rs, hrs, rfl⟩, hall⟩
          exact ⟨rs, hrs, fun x hx => hall x (List.mem_cons_of_mem _ hx)⟩
        · rintro ⟨rs, hrs, hall⟩
          refine ⟨_, ⟨rs, hrs, rfl⟩, fun x hx => ?_⟩
          rcases List.mem_cons.mp hx with rfl | hx
          · exact hfilling.exact
          · exact hall x hx

end

/-- **`readDataUntil` loses nothing, if and only if the first receive beyond the first buffer of
`chunkSize` bytes, if the stream gets there, completes the delimiter.** -/
theorem returns_lossless_iff (delim : List UInt8) (hdelim : delim ≠ []) (stream : List UInt8) (calls : List (List Nat)) :
    (∃ rs, returns delim (start stream) calls = some rs ∧ ∀ x ∈ rs, Exact delim x.1 x.2) ↔
      EndsInTime delim stream chunkSize calls.flatten :=
  returns_exact_iff hdelim calls (filling_start hdelim stream)

/-- A delimiter that is split between two calls. -/
theorem returns_lossless_split :
    ∃ rs, returns [1, 2] (start [0, 1, 2, 3]) [[2], [1, 1]] = some rs ∧ ∀ x ∈ rs, Exact [1, 2] x.1 x.2 :=
  (returns_lossless_iff [1, 2] (by decide) [0, 1, 2, 3] [[2], [1, 1]]).mpr fun hlong => absurd hlong (by decide)

/-- A stream of 4098 zeros, and a receive of one byte beyond the first 4096: the next one writes to a
buffer that was freed. -/
theorem returns_dangling : ¬ ∃ rs, returns [1] (start (List.replicate 4098 0)) [[4096, 1, 1]] = some rs ∧
    ∀ x ∈ rs, Exact [1] x.1 x.2 := by
  rw [returns_exact_iff (by decide) _ (filling_start (by decide) _)]
  intro hends
  have hoccurs := hends (by rw [List.length_replicate]; decide) 1 rfl
  have hmem : (1 : UInt8) ∈ List.replicate 4098 0 := List.mem_of_mem_take (hoccurs.subset (List.mem_singleton.mpr rfl))
  exact absurd (List.eq_of_mem_replicate hmem) (by decide)

/-! ### Messages of zlib -/

section

variable {delim stream : List UInt8} {p : Nat} {u : Until}

theorem untilLoop_conserves (os : List Outcome) {dangling : Bool} {r : IOResult} {u' : Until}
    (h : untilLoop delim os dangling u = some (r, u')) : u'.recvs.flatten ++ u'.input = u.recvs.flatten ++ u.input := by
  induction os generalizing u dangling with
  | nil =>
    cases dangling with
    | true => cases h
    | false =>
      cases h
      rfl
  | cons o os ih =>
    cases dangling with
    | true => cases h
    | false =>
      cases o with
      | bytes n =>
        obtain ⟨m, hm⟩ : ∃ m, min (max n 1) (Protocol.grown u.rbuf).last.tailroom = m := ⟨_, rfl⟩
        simp only [untilLoop, hm] at h
        have hsplit : (u.recvs ++ [u.input.take m]).flatten ++ u.input.drop (u.input.take m).length =
            u.recvs.flatten ++ u.input := by
          rw [List.flatten_append, List.flatten_singleton, List.append_assoc]
          congr 1
          conv_rhs => rw [← List.take_append_drop m u.input]
          rw [List.length_take, ← List.drop_eq_drop_min]
        split_ifs at h
        · cases h
          rfl
        · cases h
          exact hsplit
        · exact (ih h).trans hsplit
      | again timeout =>
        cases timeout <;>
          cases h <;> rfl
      | reset =>
        cases h
        rfl
      | failed =>
        cases h
        rfl
      | closed =>
        cases h
        rfl

theorem returns_prefix {calls : List (List Nat)} {rs : List (IOResult × Until)} (h : returns delim u calls = some rs) :
    ∀ x ∈ rs, x.2.recvs.flatten <+: u.recvs.flatten ++ u.input := by
  induction calls generalizing u rs with
  | nil =>
    cases h
    exact fun x hx => absurd hx List.not_mem_nil
  | cons sizes calls ih =>
    intro x hx
    rw [returns, readDataUntil] at h
    cases hcall : untilLoop delim (sizes.map .bytes) false u with
    | none =>
      rw [hcall] at h
      cases h
    | some ru =>
      obtain ⟨r, u'⟩ := ru
      have hconserves := untilLoop_conserves _ hcall
      have hfirst : u'.recvs.flatten <+: u.recvs.flatten ++ u.input := hconserves ▸ List.prefix_append _ _
      rw [hcall] at h
      cases r with
      | again =>
        obtain ⟨rs', hrs', rfl⟩ := Option.map_eq_some_iff.mp h
        rcases List.mem_cons.mp hx with rfl | hx
        · exact hfirst
        · exact hconserves ▸ ih hrs' x hx
      | _ =>
        cases h
        rcases List.mem_singleton.mp hx with rfl
        exact hfirst

theorem Filling.length_next (h : Filling delim stream p u) (n : Nat) :
    (u.next n).length = min (min (max n 1) (if p < chunkSize then chunkSize - p else chunkSize)) (stream.length - p) := by
  have htailroom : (Protocol.grown u.rbuf).last.tailroom = if p < chunkSize then chunkSize - p else chunkSize := by
    split_ifs with hroom
    · exact (h.grown.first hroom).2
    · exact (h.grown.second (Nat.le_antisymm h.le (Nat.not_lt.mp hroom))).2
  rw [next, List.length_take, h.input_eq, List.length_drop, htailroom]

end

/-- The marker of a sync flush, which `ZlibBinaryProtocol` reads up to. -/
def marker : List UInt8 := [0x00, 0x00, 0xff, 0xff]

example (os : List Outcome) (u : Until) : ZlibBinaryProtocol.readData os u = readDataUntil os marker u := rfl

/-- The calls of `readData` for a message stay with the buffers, and return 0 only with all of it received. -/
def Delimits (c : List UInt8) (calls : List (List Nat)) : Prop :=
  ∃ rs, returns marker (start c) calls = some rs ∧ ∀ x ∈ rs, x.1 = .complete → x.2.recvs.flatten = c

/-- The marker stands at the end of the message only, and all of the message but one byte fits into the first buffer. -/
def MarkedOnce (c : List UInt8) : Prop := c.length ≤ chunkSize + 1 ∧ ∀ k < c.length, ¬ marker <:+: c.take k

theorem not_delimits_of_complete {c : List UInt8} {sizes : List Nat} {u : Until} {k : Nat} (hk : k < c.length)
    (hcall : readDataUntil (sizes.map .bytes) marker (start c) = some (.complete, u)) (hrecvs : u.recvs.flatten = c.take k) :
    ¬ Delimits c [sizes] := by
  rintro ⟨rs, hrs, hall⟩
  rw [returns, hcall] at hrs
  cases hrs
  have hwhole : u.recvs.flatten = c := hall _ (List.mem_singleton_self _) rfl
  rw [hrecvs] at hwhole
  have hlength := congrArg List.length hwhole
  rw [List.length_take] at hlength
  omega

theorem not_delimits_of_early {c : List UInt8} {k : Nat} (hk : k < c.length) (hfits : k ≤ chunkSize)
    (hearly : marker <:+: c.take k) : ¬ Delimits c [[k]] := by
  have hstart := filling_start (show marker ≠ [] by decide) c
  have hpos : 0 < k := by
    rcases Nat.eq_zero_or_pos k with rfl | hpos
    · have hnil := List.infix_nil.mp hearly
      cases hnil
    · exact hpos
  have hnext : ((start c).next k).length = k := by
    rw [hstart.length_next, if_pos (by decide)]
    omega
  have hreceived := untilLoop_received (by decide) hstart (by omega) k []
  generalize hcall : untilLoop marker (.bytes k :: []) false (start c) = result at hreceived
  cases hreceived with
  | found hfound hdata hrecvs =>
    refine not_delimits_of_complete hk hcall ?_
    rw [hrecvs, List.flatten_append, List.flatten_singleton]
    show (start c).next k = c.take k
    refine (List.prefix_iff_eq_take.mp ?_).trans (by rw [hnext])
    exact List.take_prefix _ _
  | filled hroom hfilling =>
    refine absurd hearly ?_
    have hnot := hfilling.not_yet
    rwa [Nat.zero_add, hnext] at hnot
  | freed hfull hnot => exact absurd hfull (by decide)

theorem not_delimits_of_long {c : List UInt8} (hlong : chunkSize + 1 < c.length) (hlate : ¬ marker <:+: c.take chunkSize) :
    ¬ Delimits c [[chunkSize, 1]] := by
  have hpos : 0 < chunkSize := by decide
  have hstart := filling_start (show marker ≠ [] by decide) c
  have hnext : 0 + ((start c).next chunkSize).length = chunkSize := by
    rw [hstart.length_next, if_pos hpos]
    omega
  have hfirst := untilLoop_received (by decide) hstart (by omega) chunkSize [.bytes 1]
  generalize hcall : untilLoop marker [.bytes chunkSize, .bytes 1] false (start c) = result at hfirst
  cases hfirst with
  | found hfound hdata hrecvs => exact absurd (hnext ▸ hfound) hlate
  | freed hfull hnot => exact absurd hfull (by decide)
  | @filled u hroom hfilling =>
    rw [hnext] at hfilling
    have hone : (u.next 1).length = 1 := by
      rw [hfilling.length_next, if_neg (Nat.lt_irrefl _)]
      omega
    have hpiece : Piece c chunkSize 1 (u.next 1) := hfilling.piece (by omega) 1
    have hsecond := untilLoop_received (by decide) hfilling (by omega) 1 []
    generalize untilLoop marker [.bytes 1] false u = result at hsecond hcall
    cases hsecond with
    | found hfound hdata hrecvs =>
      refine not_delimits_of_complete hlong hcall ?_
      rw [hrecvs, List.flatten_append, hfilling.recvs_eq, List.flatten_singleton, hpiece.take_eq, hone]
    | freed hfull hnot =>
      rintro ⟨rs, hrs, -⟩
      have hcall' : readDataUntil ([chunkSize, 1].map .bytes) marker (start c) = none := hcall
      rw [returns, hcall'] at hrs
      cases hrs
    | filled hroom' hfilling' => exact absurd hroom' (Nat.lt_irrefl _)

/-- **A message of zlib is delimited exactly, however it is cut, if and only if it has the marker at its end only** and
does not go beyond the first buffer by more than a byte. -/
theorem delimits_iff (c : List UInt8) (hc : marker <:+ c) : (∀ calls, Delimits c calls) ↔ MarkedOnce c := by
  constructor
  · intro hall
    have hlength : c.length ≤ chunkSize + 1 := by
      by_contra hle
      have hlong : chunkSize + 1 < c.length := Nat.lt_of_not_le hle
      by_cases hearly : marker <:+: c.take chunkSize
      · exact not_delimits_of_early (by omega) (Nat.le_refl _) hearly (hall _)
      · exact not_delimits_of_long hlong hearly (hall _)
    exact ⟨hlength, fun k hk hearly => not_delimits_of_early hk (by omega) hearly (hall [[k]])⟩
  · rintro ⟨hlength, honce⟩ calls
    have hends : EndsInTime marker c chunkSize calls.flatten := by
      intro hlong n hn
      have hpos : 0 < chunkSize := by decide
      rw [List.take_of_length_le (by omega)]
      exact hc.isInfix
    obtain ⟨rs, hrs, hexact⟩ := (returns_lossless_iff marker (by decide) c calls).mpr hends
    refine ⟨rs, hrs, fun x hx hcomplete => ?_⟩
    have hmarker := (hexact x hx).complete_iff.mp hcomplete
    have hpre : x.2.recvs.flatten <+: c := returns_prefix hrs x hx
    rw [List.prefix_iff_eq_take] at hpre
    by_contra hne
    have hlt : x.2.recvs.flatten.length < c.length := by
      by_contra hge
      rw [List.take_of_length_le (Nat.not_lt.mp hge)] at hpre
      exact hne hpre
    rw [hpre] at hmarker
    exact honce _ hlt hmarker

/-- What deflate makes of `hello` at level 9 with a sync flush. -/
def helloStream : List UInt8 := [0x78, 0xda, 0xca, 0x48, 0xcd, 0xc9, 0xc9, 0x07, 0x00] ++ marker

theorem delimits_iff_hello : MarkedOnce helloStream ∧ ∀ calls, Delimits helloStream calls := by
  have honce : MarkedOnce helloStream := ⟨by decide, by decide⟩
  exact ⟨honce, (delimits_iff helloStream (List.suffix_append _ _)).mpr honce⟩

/-- A stored block of 17 bytes that has the marker in it, and a receive that ends there. -/
theorem delimits_false_stored :
    let block : List UInt8 :=
      [0xc0, 0xef, 0x00, 0x00, 0xff, 0xff, 0xde, 0xae, 0xdb, 0xcd, 0xcc, 0xaa, 0xeb, 0x92, 0xbf, 0xa3, 0xf8]
    let c : List UInt8 := [0x78, 0xda, 0x00, 0x11, 0x00, 0xee, 0xff] ++ block ++ [0x00] ++ marker
    ¬ ∀ calls, Delimits c calls := by
  intro block c hall
  have hearly : marker <:+: c.take 13 := ⟨[0x78, 0xda, 0x00, 0x11, 0x00, 0xee, 0xff, 0xc0, 0xef], [], rfl⟩
  exact not_delimits_of_early (show 13 < c.length by decide) (by decide) hearly (hall [[13]])

end Until

end Raster
