import Raster.Buffer.IOBuf

/-!
# Compression of a chain

`ZlibStreamCompressor::compress` of `raster/io/ZlibStreamCompressor.cpp`. The `deflate` of zlib is a parameter. The loop goes
over the circular chain with an offset into the current buffer. When it is back at the head it leaves the offset as it was at
the end of the last buffer, and offers the rest of the head behind that offset.
-/

namespace Raster.Zlib

/-! ### The stream -/

inductive Flush
  | noFlush
  | partialFlush
  | syncFlush
  | finish
  deriving DecidableEq, Repr

inductive Status
  | ok
  | streamEnd
  | needDict
  | streamError
  | dataError
  | memError
  | bufError
  deriving DecidableEq, Repr

/-- What one call of `deflate` or `inflate` does to the stream. -/
structure Answer (σ : Type) where
  stream : σ
  status : Status
  consumed : Nat
  produced : List UInt8
  deriving DecidableEq, Repr

/-- `deflate` or `inflate` on the `avail_in` bytes at `next_in`, with room for `avail_out` bytes. -/
abbrev Codec (σ : Type) := σ → (input : List UInt8) → (availOut : Nat) → Flush → Answer σ

/-! ### The compressor -/

/-- `FLAGS_zlib_compressor_buffer_growth`. -/
def compressorGrowth : Nat := 2024

/-- `FLAGS_zlib_compressor_buffer_minsize`. -/
def compressorMinsize : Nat := 1024

/-- What the calls of `deflate` in one turn leave. -/
structure Pumped (σ : Type) where
  stream : σ
  status : Status
  left : List UInt8
  /-- The output of each call. -/
  chunks : List (List UInt8)
  deriving DecidableEq, Repr

/-- The calls of `deflate` until one of them leaves room. -/
def pump {σ : Type} (deflate : Codec σ) (flush : Flush) : (fuel : Nat) → σ → List UInt8 → Option (Pumped σ)
  | 0, _, _ => none
  | fuel + 1, stream, input =>
    let a := deflate stream input compressorMinsize flush
    if compressorMinsize - a.produced.length = 0 then
      (pump deflate flush fuel a.stream (input.drop a.consumed)).map fun r => { r with chunks := a.produced :: r.chunks }
    else some { stream := a.stream, status := a.status, left := input.drop a.consumed, chunks := [a.produced] }

/-- `appender.ensure` and `appender.append` around each call. -/
def appendChunks (out : IOBuf) (chunks : List (List UInt8)) : IOBuf :=
  chunks.foldl (fun out chunk => (out.ensure compressorGrowth compressorMinsize).append chunk) out

/-- The buffer, the offset and the bytes that a turn of the loop hands to `deflate`. -/
structure Turn where
  length : Nat
  offset : Nat
  availIn : Nat
  bytes : List UInt8
  flush : Flush
  deriving DecidableEq, Repr

/-- How a call ends. -/
inductive Outcome
  | returned (out : IOBuf)
  | null
  /-- It reads behind a buffer. -/
  | outside
  deriving DecidableEq, Repr

/-- The variables of `compress`, with the turns of its loop. -/
structure Compress (σ : Type) where
  crtBuf : Nat := 0
  offset : Nat := 0
  flush : Flush := .noFlush
  stream : σ
  status : Status
  out : IOBuf
  turns : List Turn := []

section Compress

variable {σ : Type} (deflate : Codec σ) (c : IOBuf) (trailer : Bool)

/-- The `i`-th buffer of the chain. -/
def bufAt (i : Nat) : List UInt8 := (c.bufs.map Buf.data).getD i []

/-- `next()` of the `i`-th buffer. -/
def next (i : Nat) : Nat := (i + 1) % c.bufs.length

/-- Advance to the next `IOBuf` if necessary. -/
def Compress.advance (s : Compress σ) : Compress σ :=
  if (bufAt c s.crtBuf).length = s.offset then
    if next c s.crtBuf = 0 then { s with crtBuf := 0, flush := if trailer then .finish else .syncFlush }
    else { s with crtBuf := next c s.crtBuf, offset := 0 }
  else s

/-- `crtBuf->length() - offset` in `size_t`. -/
def origAvailIn (length offset : Nat) : Nat := if offset ≤ length then length - offset else length + 2 ^ 64 - offset

/-- `avail_in` is a `uInt`. -/
def Compress.turn (s : Compress σ) : Turn :=
  let buf := bufAt c s.crtBuf
  let availIn := origAvailIn buf.length s.offset % 2 ^ 32
  { length := buf.length, offset := s.offset, availIn, bytes := (buf.drop s.offset).take availIn, flush := s.flush }

/-- One turn behind the advance: how the call ends, or the state for the next turn. -/
def Compress.feed (fuel : Nat) (s : Compress σ) : Option ((Outcome × List Turn) ⊕ Compress σ) :=
  if s.status = .streamError then some (.inl (.null, s.turns))
  else
    let t := s.turn c
    if 0 < t.availIn ∧ t.length < t.offset + t.availIn then some (.inl (.outside, s.turns ++ [t]))
    else (pump deflate s.flush fuel s.stream t.bytes).map fun r =>
      let out := appendChunks s.out r.chunks
      let inConsumed := origAvailIn t.length s.offset - r.left.length
      if s.flush = .noFlush then
        .inr { s with offset := s.offset + inConsumed, stream := r.stream, status := r.status, out, turns := s.turns ++ [t] }
      else .inl (.returned out, s.turns ++ [t])

def compressLoop (fuel : Nat) : (n : Nat) → Compress σ → Option (Outcome × List Turn)
  | 0, _ => none
  | n + 1, s =>
    match (s.advance c trailer).feed deflate c fuel with
    | none => none
    | some (.inl ended) => some ended
    | some (.inr s) => compressLoop fuel n s

/-- `compress`: how it ends, and the turns of its loop. -/
def compress (fuel : Nat) (stream : σ) (status : Status) : Option (Outcome × List Turn) :=
  compressLoop deflate c trailer fuel fuel { stream, status, out := IOBuf.create compressorGrowth }

end Compress

/-- What `compress` relies on: in a stream that is ready, calls with new room take all the input until one
leaves room, without a stream error, and a stream that is not flushed stays ready. -/
structure Consumes {σ : Type} (deflate : Codec σ) (Ready : σ → Prop) : Prop where
  drains : ∀ stream input flush, Ready stream → ∃ fuel r, pump deflate flush fuel stream input = some r ∧ r.left = [] ∧
    r.status ≠ .streamError ∧ (flush = .noFlush → Ready r.stream)

/-- The turns of a call hand each byte of the chain to `deflate` once and in order, then flush without new input. -/
structure FedOnce (c : IOBuf) (trailer : Bool) (ended : Outcome × List Turn) : Prop where
  returned : ∃ out, ended.1 = .returned out
  bytes : ended.2.flatMap Turn.bytes = c.data
  flushed : ∃ fed flush, ended.2 = fed ++ [flush] ∧ (∀ t ∈ fed, t.flush = .noFlush) ∧
    flush.flush = (if trailer then .finish else .syncFlush) ∧ flush.availIn = 0
  offset : ∀ t ∈ ended.2, t.offset ≤ t.length

/-! ### The turns of a call -/

/-- The turn at the start of a buffer. -/
def feedTurn (b : List UInt8) : Turn :=
  { length := b.length, offset := 0, availIn := b.length % 2 ^ 32, bytes := b.take (b.length % 2 ^ 32), flush := .noFlush }

/-- The turn that is back at the head. -/
def flushTurn (c : IOBuf) (trailer : Bool) : Turn :=
  let offset := (bufAt c (c.bufs.length - 1)).length
  let availIn := origAvailIn c.head.data.length offset % 2 ^ 32
  { length := c.head.data.length, offset, availIn, bytes := (c.head.data.drop offset).take availIn,
    flush := if trailer then .finish else .syncFlush }

theorem pump_mono {σ : Type} {deflate : Codec σ} {flush : Flush} {fuel fuel' : Nat} {stream : σ} {input : List UInt8} {r : Pumped σ}
    (h : pump deflate flush fuel stream input = some r) (hle : fuel ≤ fuel') :
    pump deflate flush fuel' stream input = some r := by
  induction fuel generalizing fuel' stream input r with
  | zero => cases h
  | succ fuel ih =>
    obtain ⟨fuel', rfl⟩ : ∃ k, fuel' = k + 1 := ⟨fuel' - 1, by omega⟩
    rw [pump] at h ⊢
    split_ifs at h ⊢ with hfull
    · obtain ⟨r', hr', rfl⟩ := Option.map_eq_some_iff.1 h
      rw [ih hr' (Nat.le_of_succ_le_succ hle)]
      rfl
    · exact h

theorem pump_room {σ : Type} {deflate : Codec σ} {flush : Flush} {stream : σ} {input : List UInt8}
    (h : ¬ compressorMinsize - (deflate stream input compressorMinsize flush).produced.length = 0) :
    pump deflate flush 1 stream input =
      some { stream := (deflate stream input compressorMinsize flush).stream
             status := (deflate stream input compressorMinsize flush).status
             left := input.drop (deflate stream input compressorMinsize flush).consumed
             chunks := [(deflate stream input compressorMinsize flush).produced] } := by
  rw [pump, if_neg h]

section Turns

variable {σ : Type} {deflate : Codec σ} {Ready : σ → Prop} {c : IOBuf} (trailer : Bool)

theorem feed_start (hz : Consumes deflate Ready) {s : Compress σ} (hoffset : s.offset = 0) (hflush : s.flush = .noFlush)
    (hready : Ready s.stream) (hstatus : s.status ≠ .streamError) :
    ∃ N s', (∀ fuel ≥ N, s.feed deflate c fuel = some (.inr s')) ∧ s'.crtBuf = s.crtBuf ∧
      s'.offset = (bufAt c s.crtBuf).length ∧ s'.flush = .noFlush ∧ Ready s'.stream ∧ s'.status ≠ .streamError ∧
      s'.turns = s.turns ++ [feedTurn (bufAt c s.crtBuf)] := by
  have hturn : s.turn c = feedTurn (bufAt c s.crtBuf) := by
    simp [Compress.turn, feedTurn, origAvailIn, hoffset, hflush]
  obtain ⟨N, r, hpump, hleft, hok, hstill⟩ := hz.drains s.stream (feedTurn (bufAt c s.crtBuf)).bytes .noFlush hready
  let s' : Compress σ :=
    { s with
      offset := s.offset + (origAvailIn (bufAt c s.crtBuf).length s.offset - r.left.length)
      flush := .noFlush
      stream := r.stream
      status := r.status
      out := appendChunks s.out r.chunks
      turns := s.turns ++ [feedTurn (bufAt c s.crtBuf)] }
  refine ⟨N, s', fun fuel hfuel => ?_, rfl, ?_, rfl, hstill rfl, hok, rfl⟩
  · have hin : ¬ (0 < (feedTurn (bufAt c s.crtBuf)).availIn ∧
        (feedTurn (bufAt c s.crtBuf)).length < (feedTurn (bufAt c s.crtBuf)).offset + (feedTurn (bufAt c s.crtBuf)).availIn) := by
      have := Nat.mod_le (bufAt c s.crtBuf).length (2 ^ 32)
      simp only [feedTurn]
      omega
    rw [Compress.feed, if_neg hstatus]
    simp only [hturn]
    rw [if_neg hin, hflush, pump_mono hpump hfuel, Option.map_some, if_pos rfl]
    rfl
  · simp [s', hoffset, hleft, origAvailIn]

theorem feed_flush (hz : Consumes deflate Ready) {s : Compress σ} (hcrt : s.crtBuf = 0)
    (hoffset : s.offset = (bufAt c (c.bufs.length - 1)).length) (hflush : s.flush = if trailer then .finish else .syncFlush)
    (hready : Ready s.stream) (hstatus : s.status ≠ .streamError) :
    ∃ N outcome, (∀ fuel ≥ N, s.feed deflate c fuel = some (.inl (outcome, s.turns ++ [flushTurn c trailer]))) ∧
      ((flushTurn c trailer).availIn = 0 → ∃ out, outcome = .returned out) := by
  have hturn : s.turn c = flushTurn c trailer := by
    simp [Compress.turn, flushTurn, hcrt, hoffset, hflush, bufAt, IOBuf.bufs]
  have hne : s.flush ≠ .noFlush := by
    rw [hflush]
    split_ifs <;> decide
  obtain ⟨N, r, hpump, hleft, hok, -⟩ := hz.drains s.stream (flushTurn c trailer).bytes s.flush hready
  by_cases hout : 0 < (flushTurn c trailer).availIn ∧
      (flushTurn c trailer).length < (flushTurn c trailer).offset + (flushTurn c trailer).availIn
  · refine ⟨0, .outside, fun fuel _ => ?_, fun h => absurd hout.1 (by omega)⟩
    rw [Compress.feed, if_neg hstatus]
    simp only [hturn]
    rw [if_pos hout]
  · refine ⟨N, .returned (appendChunks s.out r.chunks), fun fuel hfuel => ?_, fun _ => ⟨_, rfl⟩⟩
    rw [Compress.feed, if_neg hstatus]
    simp only [hturn]
    rw [if_neg hout, pump_mono hpump hfuel, Option.map_some, if_neg hne]

/-- The turns from a buffer that has been taken to the end of the call, by the number `k` of buffers behind it. -/
theorem compressLoop_taken (hz : Consumes deflate Ready) (k : Nat) {s : Compress σ} (hk : s.crtBuf + 1 + k = c.bufs.length)
    (hoffset : s.offset = (bufAt c s.crtBuf).length) (hflush : s.flush = .noFlush) (hready : Ready s.stream)
    (hstatus : s.status ≠ .streamError) :
    ∃ N outcome, (∀ fuel ≥ N, ∀ n > k, compressLoop deflate c trailer fuel n s =
        some (outcome, s.turns ++ ((c.bufs.map Buf.data).drop (s.crtBuf + 1)).map feedTurn ++ [flushTurn c trailer])) ∧
      ((flushTurn c trailer).availIn = 0 → ∃ out, outcome = .returned out) := by
  induction k generalizing s with
  | zero =>
    have hnext : next c s.crtBuf = 0 := by rw [next, show s.crtBuf + 1 = c.bufs.length by omega, Nat.mod_self]
    have hadvance : s.advance c trailer = { s with crtBuf := 0, flush := if trailer then .finish else .syncFlush } := by
      rw [Compress.advance, if_pos hoffset.symm, if_pos hnext]
    obtain ⟨N, outcome, hfeed, hreturned⟩ := feed_flush (c := c) trailer hz
      (s := { s with crtBuf := 0, flush := if trailer then .finish else .syncFlush }) rfl
      (by rw [← show s.crtBuf = c.bufs.length - 1 by omega]; exact hoffset) rfl hready hstatus
    refine ⟨N, outcome, fun fuel hfuel n hn => ?_, hreturned⟩
    obtain ⟨n, rfl⟩ : ∃ m, n = m + 1 := ⟨n - 1, by omega⟩
    rw [compressLoop, hadvance, hfeed fuel hfuel, List.drop_eq_nil_of_le (by rw [List.length_map]; omega), List.map_nil,
      List.append_nil]
  | succ k ih =>
    have hnext : next c s.crtBuf = s.crtBuf + 1 := Nat.mod_eq_of_lt (by omega)
    have hadvance : s.advance c trailer = { s with crtBuf := s.crtBuf + 1, offset := 0 } := by
      rw [Compress.advance, if_pos hoffset.symm, hnext, if_neg (Nat.succ_ne_zero _)]
    obtain ⟨N, s', hfeed, hcrt', hoffset', hflush', hready', hstatus', hturns'⟩ := feed_start (c := c) hz
      (s := { s with crtBuf := s.crtBuf + 1, offset := 0 }) rfl hflush hready hstatus
    have hcrt'' : s'.crtBuf = s.crtBuf + 1 := hcrt'
    obtain ⟨N', outcome, hloop, hreturned⟩ := ih (by omega) (by rw [hoffset', hcrt']) hflush' hready' hstatus'
    refine ⟨max N N', outcome, fun fuel hfuel n hn => ?_, hreturned⟩
    obtain ⟨n, rfl⟩ : ∃ m, n = m + 1 := ⟨n - 1, by omega⟩
    have hdrop : (c.bufs.map Buf.data).drop (s.crtBuf + 1) =
        bufAt c (s.crtBuf + 1) :: (c.bufs.map Buf.data).drop (s.crtBuf + 1 + 1) := by
      have hlt : s.crtBuf + 1 < (c.bufs.map Buf.data).length := by rw [List.length_map]; omega
      rw [List.drop_eq_getElem_cons hlt, bufAt, List.getD_eq_getElem?_getD, List.getElem?_eq_getElem hlt]
      rfl
    rw [compressLoop, hadvance, hfeed fuel (by omega)]
    simp only
    rw [hloop fuel (by omega) n (by omega), hturns', hcrt'', hdrop]
    simp

/-- The turns at the start of the buffers; a head without data has none. -/
def feedTurns (c : IOBuf) : List Turn :=
  if c.head.data = [] then (c.rest.map Buf.data).map feedTurn else (c.bufs.map Buf.data).map feedTurn

theorem compress_turns (hz : Consumes deflate Ready) {stream : σ} {status : Status} (hready : Ready stream)
    (hstatus : status ≠ .streamError) :
    ∃ N outcome, (∀ fuel ≥ N, compress deflate c trailer fuel stream status =
        some (outcome, feedTurns c ++ [flushTurn c trailer])) ∧
      ((flushTurn c trailer).availIn = 0 → ∃ out, outcome = .returned out) := by
  have hbufs : c.bufs.length = 0 + 1 + c.rest.length := by rw [IOBuf.bufs, List.length_cons]; omega
  have hhead : bufAt c 0 = c.head.data := rfl
  by_cases hempty : c.head.data = []
  · obtain ⟨N, outcome, hloop, hreturned⟩ := compressLoop_taken (c := c) trailer hz c.rest.length
      (s := { stream, status, out := IOBuf.create compressorGrowth }) hbufs.symm (by rw [hhead, hempty]; rfl) rfl hready hstatus
    refine ⟨max N (c.rest.length + 1), outcome, fun fuel hfuel => ?_, hreturned⟩
    rw [compress, hloop fuel (by omega) fuel (by omega), feedTurns, if_pos hempty]
    rfl
  · obtain ⟨N, s', hfeed, hcrt, hoffset, hflush, hready', hstatus', hturns⟩ := feed_start (c := c) hz
      (s := { stream, status, out := IOBuf.create compressorGrowth }) rfl rfl hready hstatus
    have hcrt' : s'.crtBuf = 0 := hcrt
    obtain ⟨N', outcome, hloop, hreturned⟩ := compressLoop_taken (c := c) trailer hz c.rest.length
      (s := s') (by rw [hcrt']; exact hbufs.symm) (by rw [hoffset, hcrt]) hflush hready' hstatus'
    refine ⟨max (max N N') (c.rest.length + 2), outcome, fun fuel hfuel => ?_, hreturned⟩
    have hadvance : Compress.advance c trailer { stream, status, out := IOBuf.create compressorGrowth } =
        { stream, status, out := IOBuf.create compressorGrowth } := by
      rw [Compress.advance, if_neg]
      intro h
      exact hempty (List.eq_nil_of_length_eq_zero h)
    obtain ⟨n, hn⟩ : ∃ m, fuel = m + 1 := ⟨fuel - 1, by omega⟩
    rw [compress]
    nth_rewrite 2 [hn]
    rw [compressLoop, hadvance, hfeed fuel (by omega)]
    simp only
    rw [hloop fuel (by omega) n (by omega), hturns, hcrt', feedTurns, if_neg hempty]
    rfl

/-! ### What the turns hand over -/

theorem flatMap_feedTurns (c : IOBuf) :
    (feedTurns c).flatMap Turn.bytes = c.bufs.flatMap fun b => b.data.take (b.data.length % 2 ^ 32) := by
  unfold feedTurns
  split_ifs with hempty
  · rw [IOBuf.bufs, List.flatMap_cons, hempty, List.take_nil, List.nil_append, List.map_map, List.flatMap_map]
    rfl
  · rw [List.map_map, List.flatMap_map]
    rfl

theorem mem_feedTurns {t : Turn} (h : t ∈ feedTurns c) : ∃ b, t = feedTurn b := by
  unfold feedTurns at h
  split_ifs at h
  · obtain ⟨b, -, rfl⟩ := List.mem_map.1 h
    exact ⟨b, rfl⟩
  · obtain ⟨b, -, rfl⟩ := List.mem_map.1 h
    exact ⟨b, rfl⟩

theorem flatMap_take_eq_iff (bs : List Buf) :
    (bs.flatMap fun b => b.data.take (b.data.length % 2 ^ 32)) = bs.flatMap Buf.data ↔ ∀ b ∈ bs, b.data.length < 2 ^ 32 := by
  have hle (bs : List Buf) :
      (bs.flatMap fun b => b.data.take (b.data.length % 2 ^ 32)).length ≤ (bs.flatMap Buf.data).length := by
    induction bs with
    | nil => exact Nat.le_refl 0
    | cons b bs ih =>
      rw [List.flatMap_cons, List.flatMap_cons, List.length_append, List.length_append]
      exact Nat.add_le_add (List.length_take_le' _ _) ih
  induction bs with
  | nil => simp
  | cons b bs ih =>
    rw [List.flatMap_cons, List.flatMap_cons, List.forall_mem_cons]
    refine ⟨fun h => ?_, fun ⟨hb, hbs⟩ => ?_⟩
    · have hlen := congrArg List.length h
      have hrest := hle bs
      rw [List.length_append, List.length_append, List.length_take] at hlen
      have hb : b.data.length < 2 ^ 32 := by
        have := Nat.mod_lt b.data.length (Nat.two_pow_pos 32)
        omega
      rw [Nat.mod_eq_of_lt hb, List.take_length] at h
      exact ⟨hb, ih.1 (List.append_cancel_left h)⟩
    · rw [Nat.mod_eq_of_lt hb, List.take_length, ih.2 hbs]

theorem bufAt_last (c : IOBuf) : bufAt c (c.bufs.length - 1) = c.last.data := by
  have hbufs := c.bufs_eq
  have hlen : c.bufs.length - 1 = c.bufs.dropLast.length := List.length_dropLast.symm
  rw [bufAt, hlen, List.getD_eq_getElem?_getD]
  conv => lhs; rw [hbufs]
  simp

end Turns

/-- **Each byte of a chain is handed to `deflate` once if and only if its first and its last buffer are of one
length**, and no buffer is longer than `avail_in` can say. -/
theorem compress_feeds_once_iff {σ : Type} {deflate : Codec σ} {Ready : σ → Prop} (hz : Consumes deflate Ready) (c : IOBuf)
    (trailer : Bool) {stream : σ} {status : Status} (hready : Ready stream) (hstatus : status ≠ .streamError) :
    (∃ N, ∀ fuel ≥ N, ∃ ended, compress deflate c trailer fuel stream status = some ended ∧ FedOnce c trailer ended) ↔
      c.head.data.length = c.last.data.length ∧ ∀ b ∈ c.bufs, b.data.length < 2 ^ 32 := by
  obtain ⟨N, outcome, hcompress, hreturned⟩ := compress_turns (c := c) trailer hz hready hstatus
  have hoffset : (flushTurn c trailer).offset = c.last.data.length := by rw [← bufAt_last]; rfl
  have hlength : (flushTurn c trailer).length = c.head.data.length := rfl
  have havail : (flushTurn c trailer).availIn = origAvailIn c.head.data.length c.last.data.length % 2 ^ 32 := by
    rw [← bufAt_last]
    rfl
  refine ⟨fun ⟨N', h⟩ => ?_, fun ⟨hends, hshort⟩ => ⟨N, fun fuel hfuel => ⟨_, hcompress fuel hfuel, ?_⟩⟩⟩
  · obtain ⟨ended, hended, hfed⟩ := h (max N N') (by omega)
    rw [hcompress _ (by omega)] at hended
    cases hended
    obtain ⟨fed, flush, hturns, -, -, hnone⟩ := hfed.flushed
    obtain ⟨-, hlast⟩ := List.append_inj' hturns rfl
    cases hlast
    have hle := hfed.offset (flushTurn c trailer) (by simp)
    have hbytes := hfed.bytes
    have hempty : (flushTurn c trailer).bytes = [] := by
      show (c.head.data.drop _).take (flushTurn c trailer).availIn = []
      rw [hnone, List.take_zero]
    rw [List.flatMap_append, flatMap_feedTurns, List.flatMap_singleton, hempty, List.append_nil] at hbytes
    have hshort := (flatMap_take_eq_iff c.bufs).1 hbytes
    have hhead := hshort c.head (List.mem_cons_self ..)
    refine ⟨?_, hshort⟩
    rw [havail, origAvailIn, if_pos (by omega)] at hnone
    omega
  · have hnone : (flushTurn c trailer).availIn = 0 := by
      rw [havail, hends, origAvailIn, if_pos (Nat.le_refl _), Nat.sub_self, Nat.zero_mod]
    have hempty : (flushTurn c trailer).bytes = [] := by
      show (c.head.data.drop _).take (flushTurn c trailer).availIn = []
      rw [hnone, List.take_zero]
    refine ⟨hreturned hnone, ?_, ⟨feedTurns c, _, rfl, fun t ht => ?_, rfl, hnone⟩, fun t ht => ?_⟩
    · rw [List.flatMap_append, flatMap_feedTurns, List.flatMap_singleton, hempty, List.append_nil]
      exact (flatMap_take_eq_iff c.bufs).2 hshort
    · obtain ⟨b, rfl⟩ := mem_feedTurns ht
      rfl
    · obtain ht | ht := List.mem_append.1 ht
      · obtain ⟨b, rfl⟩ := mem_feedTurns ht
        exact Nat.zero_le _
      · obtain rfl := List.mem_singleton.1 ht
        omega

/-! ### A stream without compression -/

/-- A zlib stream of level 0, with the bytes that are not in a block yet and those that are not written yet. -/
structure Stored where
  started : Bool := false
  flushed : Bool := false
  window : List UInt8 := []
  pending : List UInt8 := []
  adler : Nat × Nat := (1, 0)

def word16 (n : Nat) : List UInt8 := [UInt8.ofNat n, UInt8.ofNat (n / 256)]

/-- A stored block. -/
def storedBlock (final : Bool) (bytes : List UInt8) : List UInt8 :=
  (if final then 1 else 0) :: (word16 bytes.length ++ word16 (65535 - bytes.length) ++ bytes)

def adler32 (adler : Nat × Nat) (bytes : List UInt8) : Nat × Nat :=
  bytes.foldl (fun (a, b) x => ((a + x.toNat) % 65521, (b + a + x.toNat) % 65521)) adler

namespace Stored

/-- What a call adds to the bytes that are to be written. -/
def emit (s : Stored) (input : List UInt8) (flush : Flush) : List UInt8 :=
  let window := s.window ++ input
  let adler := adler32 s.adler input
  (if s.started then [] else [(0x78 : UInt8), 0x01]) ++
    (if s.flushed then [] else match flush with
      | .syncFlush => (if window = [] then [] else storedBlock false window) ++ storedBlock false []
      | .finish => storedBlock true window ++ (word16 adler.2).reverse ++ (word16 adler.1).reverse
      | _ => [])

def deflate : Codec Stored := fun s input availOut flush =>
  let flushes := flush = .syncFlush ∨ flush = .finish
  let pending := s.pending ++ s.emit input flush
  { stream :=
      { started := true, flushed := flushes, window := if flushes then [] else s.window ++ input,
        pending := pending.drop availOut, adler := adler32 s.adler input }
    status := if flush = .finish ∧ pending.length ≤ availOut then .streamEnd else .ok
    consumed := input.length
    produced := pending.take availOut }

theorem emit_after (s : Stored) (input : List UInt8) (availOut : Nat) (flush : Flush) :
    (deflate s input availOut flush).stream.emit [] flush = [] := by
  cases flush <;> simp [emit, deflate]

theorem status_deflate (s : Stored) (input : List UInt8) (availOut : Nat) (flush : Flush) :
    (deflate s input availOut flush).status ≠ .streamError := by
  simp only [deflate]
  split_ifs <;> decide

theorem pump_pending (flush : Flush) (k : Nat) (s : Stored) (hk : s.pending.length ≤ k) (hquiet : s.emit [] flush = []) :
    ∃ fuel r, pump deflate flush fuel s [] = some r ∧ r.left = [] ∧ r.status ≠ .streamError := by
  induction k using Nat.strongRecOn generalizing s with
  | ind k ih =>
    have hpending : (deflate s [] compressorMinsize flush).stream.pending = s.pending.drop compressorMinsize := by
      simp [deflate, hquiet]
    have hproduced : (deflate s [] compressorMinsize flush).produced = s.pending.take compressorMinsize := by
      simp [deflate, hquiet]
    have hpos : 0 < compressorMinsize := by decide
    by_cases hroom : s.pending.length < compressorMinsize
    · have hroom' : ¬ compressorMinsize - (deflate s [] compressorMinsize flush).produced.length = 0 := by
        rw [hproduced, List.length_take]
        omega
      exact ⟨1, _, pump_room hroom', List.drop_nil, status_deflate s [] compressorMinsize flush⟩
    · obtain ⟨fuel, r, hpump, hleft, hok⟩ := ih (k - compressorMinsize) (by omega)
        (deflate s [] compressorMinsize flush).stream (by rw [hpending, List.length_drop]; omega)
        (emit_after s [] compressorMinsize flush)
      refine ⟨fuel + 1, { r with chunks := s.pending.take compressorMinsize :: r.chunks }, ?_, hleft, hok⟩
      rw [pump, if_pos (by rw [hproduced, List.length_take]; omega), List.drop_nil, hpump, hproduced]
      rfl

theorem consumes : Consumes deflate fun _ => True := by
  refine ⟨fun s input flush _ => ?_⟩
  have hleft : input.drop (deflate s input compressorMinsize flush).consumed = [] := List.drop_length
  by_cases hroom : compressorMinsize - (deflate s input compressorMinsize flush).produced.length = 0
  · obtain ⟨fuel, r, hpump, hr, hok⟩ := pump_pending flush _ (deflate s input compressorMinsize flush).stream (Nat.le_refl _)
      (emit_after s input compressorMinsize flush)
    refine ⟨fuel + 1, { r with chunks := (deflate s input compressorMinsize flush).produced :: r.chunks }, ?_, hr, hok,
      fun _ => trivial⟩
    rw [pump, if_pos hroom, hleft, hpump]
    rfl
  · exact ⟨1, _, pump_room hroom, hleft, status_deflate s input compressorMinsize flush, fun _ => trivial⟩

end Stored

/-- A chain of two buffers. -/
def twoBuffers (a b : List UInt8) : IOBuf := { head := { data := a, tailroom := 0 }, rest := [{ data := b, tailroom := 0 }] }

/-- Two buffers with one byte each. -/
theorem compress_feeds_once_two :
    ∃ N, ∀ fuel ≥ N, ∃ ended, compress Stored.deflate (twoBuffers [1] [2]) true fuel {} .ok = some ended ∧
      FedOnce (twoBuffers [1] [2]) true ended :=
  (compress_feeds_once_iff Stored.consumes _ true trivial (by decide)).2 (by decide)

/-- A last buffer without data: the head is handed over twice. -/
theorem empty_last_buffer_feeds_twice :
    ¬ ∃ N, ∀ fuel ≥ N, ∃ ended, compress Stored.deflate (twoBuffers [1] []) true fuel {} .ok = some ended ∧
      FedOnce (twoBuffers [1] []) true ended := by
  rintro ⟨N', h⟩
  obtain ⟨N, outcome, hcompress, -⟩ := compress_turns (c := twoBuffers [1] []) true Stored.consumes
    (show (fun _ => True) ({} : Stored) from trivial) (show Status.ok ≠ .streamError by decide)
  obtain ⟨ended, hended, hfed⟩ := h (max N N') (by omega)
  rw [hcompress _ (by omega)] at hended
  cases hended
  have hbytes : (feedTurns (twoBuffers [1] []) ++ [flushTurn (twoBuffers [1] []) true]).flatMap Turn.bytes = [1] := hfed.bytes
  exact absurd hbytes (by decide)

end Raster.Zlib
