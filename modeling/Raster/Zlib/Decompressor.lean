import Raster.Lib.Incremental
import Raster.Zlib.Compressor

/-!
# Decompression of a chain

`ZlibStreamDecompressor::decompress` of `raster/io/ZlibStreamDecompressor.cpp`. The `inflate` of zlib is a parameter: it takes input
and gives output like a decoder with limited room. The loop goes over the chain and calls `inflate` once or more for each buffer. It
goes on to the next buffer as soon as one is consumed, also when the new one is empty and when there was no room for all output.
-/

namespace Raster.Zlib

open Lib

/-! ### The stream -/

/-- Why a decoder fails. -/
inductive Fault
  | needDict
  | dataError
  deriving DecidableEq, Repr

def Fault.status : Fault → Status
  | .needDict => .needDict
  | .dataError => .dataError

/-- The status of a call, which is `Z_BUF_ERROR` when no progress is possible. -/
def inflateStatus {τ : Type} (r : Decoder.Run τ UInt8 Fault) : Status :=
  match r.held.pending, r.held.phase with
  | [], .ended => .streamEnd
  | [], .failed e => e.status
  | _, _ => if r.consumed = 0 ∧ r.produced = [] then .bufError else .ok

/-- What `decompress` relies on: `inflate` consumes input and produces output as far as the room it is given allows. -/
structure Inflates {σ τ : Type} (inflate : Codec σ) (view : σ → Held τ UInt8 Fault) (d : Decoder τ UInt8 UInt8 Fault) : Prop where
  held : ∀ s input availOut, view (inflate s input availOut .partialFlush).stream = (d.run (view s) input availOut).held
  consumed : ∀ s input availOut, (inflate s input availOut .partialFlush).consumed = (d.run (view s) input availOut).consumed
  produced : ∀ s input availOut, (inflate s input availOut .partialFlush).produced = (d.run (view s) input availOut).produced
  status : ∀ s input availOut, (inflate s input availOut .partialFlush).status = inflateStatus (d.run (view s) input availOut)

/-! ### The decompressor -/

/-- `FLAGS_zlib_buffer_growth`. -/
def decompressorGrowth : Nat := 480

/-- `FLAGS_zlib_buffer_minsize`. -/
def decompressorMinsize : Nat := 64

/-- The variables of `decompress`, with `zlibStream_` and `status_`. -/
structure Decompress (σ : Type) where
  crtBuf : Nat := 0
  offset : Nat := 0
  stream : σ
  status : Status
  out : IOBuf
  deriving DecidableEq, Repr

/-- What a call returns, `none` for `nullptr`, and leaves in the members. -/
structure Decompressed (σ : Type) where
  out : Option IOBuf
  stream : σ
  status : Status
  deriving DecidableEq, Repr

section Decompress

variable {σ : Type} (inflate : Codec σ) (c : IOBuf)

/-- Advance to the next `IOBuf` if necessary; `none` at the end of the chain. -/
def Decompress.advance (s : Decompress σ) : Option (Decompress σ) :=
  if (bufAt c s.crtBuf).length = s.offset then
    if next c s.crtBuf = 0 then none else some { s with crtBuf := next c s.crtBuf, offset := 0 }
  else some s

/-- `ensure` of the appender. -/
def Decompress.ensured (s : Decompress σ) : IOBuf := s.out.ensure decompressorGrowth decompressorMinsize

/-- `appender.length()`, which is `avail_out`: no buffer of the output has more than 480 bytes. -/
def Decompress.room (s : Decompress σ) : Nat := s.ensured.last.tailroom

/-- The bytes of the current buffer from the offset on. -/
def Decompress.input (s : Decompress σ) : List UInt8 := (bufAt c s.crtBuf).drop s.offset

/-- The call of `inflate` behind the advance. -/
def Decompress.call (s : Decompress σ) : Decompressed σ ⊕ Decompress σ :=
  if s.status = .streamEnd then .inl { out := none, stream := s.stream, status := .streamError }
  else
    let origAvailIn := (bufAt c s.crtBuf).length - s.offset
    -- `avail_in` is a `uInt`
    let availIn := origAvailIn % 2 ^ 32
    let a := inflate s.stream ((s.input c).take availIn) s.room .partialFlush
    if a.status ≠ .ok ∧ a.status ≠ .streamEnd then .inl { out := none, stream := a.stream, status := a.status }
    else
      let inConsumed := origAvailIn - (availIn - a.consumed)
      .inr { s with offset := s.offset + inConsumed, stream := a.stream, status := a.status, out := s.ensured.append a.produced }

/-- One turn of the loop: what the call returns, or the state for the next turn. -/
def Decompress.turn (s : Decompress σ) : Decompressed σ ⊕ Decompress σ :=
  match s.advance c with
  | none => .inl { out := some s.out, stream := s.stream, status := s.status }
  | some s => s.call inflate c

def decompressLoop : (fuel : Nat) → Decompress σ → Option (Decompressed σ)
  | 0, _ => none
  | fuel + 1, s =>
    match s.turn inflate c with
    | .inl ended => some ended
    | .inr s => decompressLoop fuel s

def Decompress.start (stream : σ) (status : Status) : Decompress σ := { stream, status, out := IOBuf.create decompressorGrowth }

def decompress (fuel : Nat) (stream : σ) (status : Status) : Option (Decompressed σ) :=
  decompressLoop inflate c fuel (.start stream status)

/-- The states between the turns. -/
inductive Reaches (s : Decompress σ) : Decompress σ → Prop
  | refl : Reaches s s
  | turn {s' s'' : Decompress σ} : Reaches s s' → s'.turn inflate c = .inr s'' → Reaches s s''

/-! ### Two calls that agree, and what goes wrong in a call -/

variable {τ : Type} (view : σ → Held τ UInt8 Fault) (d : Decoder τ UInt8 UInt8 Fault)

/-- Both calls return null, or both return the same data, and nothing is left in the stream that could have been
delivered. -/
structure Agree (r r' : Decompressed σ) : Prop where
  output : r.out.map IOBuf.data = r'.out.map IOBuf.data
  delivered : r.out ≠ none → (view r.stream).pending = []
  delivered' : r'.out ≠ none → (view r'.stream).pending = []

/-- The buffer that the loop has come to is empty, and the stream has nothing to deliver. -/
def Decompress.Starves (s : Decompress σ) : Prop :=
  s.input c = [] ∧ (s.status = .streamEnd ∨ match (view s.stream).phase with
    | .running _ => (view s.stream).pending = []
    | .ended => False
    | .failed _ => (view s.stream).pending.length ≤ s.room)

/-- There is room for the output before the last byte of the chain, so that this is consumed too, but not for
all output. -/
def Decompress.Overflows (s : Decompress σ) : Prop :=
  next c s.crtBuf = 0 ∧ s.status ≠ .streamEnd ∧ (d.feed (view s.stream) (s.input c)).2 = [] ∧
  (s.input c = [] ∨ (d.feed (view s.stream) (s.input c).dropLast).1.pending.length ≤ s.room) ∧
  s.room < (d.feed (view s.stream) (s.input c)).1.pending.length

/-- The loop hands an empty buffer to a stream that has nothing to deliver. -/
def Starved (stream : σ) (status : Status) : Prop :=
  ∃ s s', Reaches inflate c (.start stream status) s ∧ s.advance c = some s' ∧ s'.Starves c view

/-- The last turn has too little room, or there is no turn and output is left of the call before. -/
def Overflown (stream : σ) (status : Status) : Prop :=
  (c.rest = [] ∧ c.head.data = [] ∧ (view stream).pending ≠ []) ∨
  ∃ s s', Reaches inflate c (.start stream status) s ∧ s.advance c = some s' ∧ s'.Overflows c view d

/-- The bytes make the decoder fail, or it ends before the last of them. -/
def Rejects (v : Held τ UInt8 Fault) (status : Status) (bytes : List UInt8) : Prop :=
  bytes ≠ [] ∧ (status = .streamEnd ∨ (d.feed v bytes).2 ≠ [] ∨ ∃ e, (d.feed v bytes).1.phase = .failed e)

end Decompress

/-! ### Turns -/

section Turns

variable {σ τ : Type} {inflate : Codec σ} {c : IOBuf} {view : σ → Held τ UInt8 Fault} {d : Decoder τ UInt8 UInt8 Fault}

theorem next_eq_zero_iff {i : Nat} (hi : i < c.bufs.length) : next c i = 0 ↔ i + 1 = c.bufs.length := by
  obtain heq | hlt := Nat.eq_or_lt_of_le hi
  · exact ⟨fun _ => heq, fun _ => by rw [next, show i + 1 = c.bufs.length from heq, Nat.mod_self]⟩
  · rw [next, Nat.mod_eq_of_lt hlt]
    omega

theorem next_of_ne_zero {i : Nat} (hi : i < c.bufs.length) (hne : next c i ≠ 0) : next c i = i + 1 ∧ i + 1 < c.bufs.length := by
  have hlt : i + 1 < c.bufs.length := by
    rw [Ne, next_eq_zero_iff hi] at hne
    omega
  exact ⟨Nat.mod_eq_of_lt hlt, hlt⟩

theorem bufAt_eq {i : Nat} (hi : i < c.bufs.length) : bufAt c i = c.bufs[i].data := by
  simp [bufAt, hi]

theorem flatMap_drop {i : Nat} (hi : i < c.bufs.length) :
    (c.bufs.drop i).flatMap Buf.data = bufAt c i ++ (c.bufs.drop (i + 1)).flatMap Buf.data := by
  rw [List.drop_eq_getElem_cons hi, List.flatMap_cons, bufAt_eq hi]

theorem length_bufAt_lt (hshort : ∀ b ∈ c.bufs, b.data.length < 2 ^ 32) {i : Nat} (hi : i < c.bufs.length) :
    (bufAt c i).length < 2 ^ 32 := by
  rw [bufAt_eq hi]
  exact hshort _ (List.getElem_mem hi)

/-- The bytes of the chain that have not been consumed yet. -/
def Decompress.remaining (c : IOBuf) (s : Decompress σ) : List UInt8 :=
  s.input c ++ (c.bufs.drop (s.crtBuf + 1)).flatMap Buf.data

/-- What has been delivered, what is kept, and what the remaining bytes give is what `bytes` give from `v` on. -/
structure Decompress.Keeps (c : IOBuf) (view : σ → Held τ UInt8 Fault) (d : Decoder τ UInt8 UInt8 Fault) (v : Held τ UInt8 Fault)
    (bytes : List UInt8) (s : Decompress σ) : Prop where
  inChain : s.crtBuf < c.bufs.length
  inBuf : s.offset ≤ (bufAt c s.crtBuf).length
  feed : d.feed { view s.stream with pending := s.out.data ++ (view s.stream).pending } (s.remaining c) = d.feed v bytes
  remaining : (s.remaining c).length ≤ bytes.length

theorem advance_none {s : Decompress σ} (hin : s.crtBuf < c.bufs.length) (hend : s.advance c = none) :
    s.remaining c = [] ∧ s.input c = [] ∧ s.crtBuf + 1 = c.bufs.length := by
  unfold Decompress.advance at hend
  split_ifs at hend with hlen hnext
  have hlast := (next_eq_zero_iff hin).1 hnext
  have hinput : s.input c = [] := List.drop_eq_nil_of_le (Nat.le_of_eq hlen)
  refine ⟨?_, hinput, hlast⟩
  rw [Decompress.remaining, hinput, List.drop_eq_nil_of_le (Nat.le_of_eq hlast.symm)]
  rfl

theorem advance_some {s s' : Decompress σ} (hin : s.crtBuf < c.bufs.length) (hs : s.offset ≤ (bufAt c s.crtBuf).length)
    (hadvance : s.advance c = some s') :
    s'.remaining c = s.remaining c ∧ s'.stream = s.stream ∧ s'.status = s.status ∧ s'.out = s.out ∧
    s'.crtBuf < c.bufs.length ∧ s'.offset ≤ (bufAt c s'.crtBuf).length := by
  unfold Decompress.advance at hadvance
  split_ifs at hadvance with hlen hnext
  · cases hadvance
    obtain ⟨heq, hlt⟩ := next_of_ne_zero hin hnext
    refine ⟨?_, rfl, rfl, rfl, heq ▸ hlt, Nat.zero_le _⟩
    have hinput : s.input c = [] := List.drop_eq_nil_of_le (Nat.le_of_eq hlen)
    rw [Decompress.remaining, Decompress.remaining, hinput, List.nil_append, flatMap_drop hlt]
    simp only [heq, Decompress.input, List.drop_zero]
  · cases hadvance
    exact ⟨rfl, rfl, rfl, rfl, hin, hs⟩

theorem le_room (s : Decompress σ) : decompressorMinsize ≤ s.room := IOBuf.le_tailroom_ensure ..

theorem Fault.status_ne (e : Fault) : e.status ≠ .ok ∧ e.status ≠ .streamEnd := by
  cases e <;> decide

theorem inflateStatus_cases (r : Decoder.Run τ UInt8 Fault) :
    (inflateStatus r = .streamEnd ∧ r.held.pending = [] ∧ r.held.phase = .ended) ∨
    (∃ e, inflateStatus r = e.status ∧ r.held.pending = [] ∧ r.held.phase = .failed e) ∨
    ((r.held.pending ≠ [] ∨ ∃ t, r.held.phase = .running t) ∧
      inflateStatus r = if r.consumed = 0 ∧ r.produced = [] then .bufError else .ok) := by
  obtain ⟨⟨pending, phase⟩, consumed, produced⟩ := r
  cases pending with
  | cons b bs => exact .inr (.inr ⟨.inl (List.cons_ne_nil b bs), rfl⟩)
  | nil =>
    cases phase with
    | running t => exact .inr (.inr ⟨.inr ⟨t, rfl⟩, rfl⟩)
    | ended => exact .inl ⟨rfl, rfl, rfl⟩
    | failed e => exact .inr (.inl ⟨e, rfl, rfl, rfl⟩)

/-- A run with room that makes no progress, though it neither ends nor fails, has no input and nothing to write. -/
theorem no_progress {v : Held τ UInt8 Fault} {input : List UInt8} {room : Nat} (hroom : 0 < room)
    (hgoes : (d.run v input room).held.pending ≠ [] ∨ ∃ t, (d.run v input room).held.phase = .running t)
    (hconsumed : (d.run v input room).consumed = 0) (hproduced : (d.run v input room).produced = []) :
    input = [] ∧ v.pending = [] ∧ ∃ t, v.phase = .running t := by
  have hkept : (d.run v input room).held.pending = [] := by
    by_contra hne
    have hlen := d.length_produced hne
    rw [hproduced] at hlen
    exact absurd hlen (Nat.ne_of_lt hroom)
  obtain hne | ⟨t, hrunning⟩ := hgoes
  · exact absurd hkept hne
  have hinput : input = [] := by
    by_contra hne
    exact d.pending_of_consumed_lt (by rw [hconsumed]; exact List.length_pos_of_ne_nil hne) hrunning hkept
  have hstop := d.run_of_consumed_eq_zero hconsumed
  refine ⟨hinput, ?_, t, ?_⟩
  · have htotal := Decoder.total_stop v room
    rw [← hstop, Decoder.Run.total, hproduced, hkept] at htotal
    exact (congrArg Held.pending htotal).symm
  · rw [hstop] at hrunning
    exact hrunning

/-- What a call of `inflate` that does not return null does to the variables. -/
structure Fed (c : IOBuf) (view : σ → Held τ UInt8 Fault) (r : Decoder.Run τ UInt8 Fault) (s s' : Decompress σ) : Prop where
  crtBuf : s'.crtBuf = s.crtBuf
  offset : s'.offset = s.offset + r.consumed
  held : view s'.stream = r.held
  out : s'.out.data = s.out.data ++ r.produced
  status : (s'.status = .streamEnd ∧ r.held.pending = [] ∧ r.held.phase = .ended) ∨
    (s'.status = .ok ∧ (r.held.pending ≠ [] ∨ ∃ t, r.held.phase = .running t) ∧ ¬ (r.consumed = 0 ∧ r.produced = []))

/-- A call returns null when the decoder fails or when there is nothing to read and to write; else it goes on. -/
theorem call_spec (hz : Inflates inflate view d) (hshort : ∀ b ∈ c.bufs, b.data.length < 2 ^ 32) {s : Decompress σ}
    (hin : s.crtBuf < c.bufs.length) (hstatus : s.status ≠ .streamEnd) :
    (∃ r, s.call inflate c = .inl r ∧ r.out = none ∧
      ((∃ e, (d.run (view s.stream) (s.input c) s.room).held = { phase := .failed e }) ∨
        s.input c = [] ∧ (view s.stream).pending = [] ∧ ∃ t, (view s.stream).phase = .running t)) ∨
    ∃ s', s.call inflate c = .inr s' ∧ Fed c view (d.run (view s.stream) (s.input c) s.room) s s' := by
  have hlen : (s.input c).length = (bufAt c s.crtBuf).length - s.offset := List.length_drop ..
  have havail : ((bufAt c s.crtBuf).length - s.offset) % 2 ^ 32 = (bufAt c s.crtBuf).length - s.offset :=
    Nat.mod_eq_of_lt (Nat.lt_of_le_of_lt (Nat.sub_le ..) (length_bufAt_lt hshort hin))
  have htake : (s.input c).take ((bufAt c s.crtBuf).length - s.offset) = s.input c := List.take_of_length_le (Nat.le_of_eq hlen)
  have hle := d.consumed_le (view s.stream) (s.input c) s.room
  unfold Decompress.call
  rw [if_neg hstatus]
  dsimp only
  rw [havail, htake, hz.status, hz.consumed, hz.produced]
  obtain ⟨hend, hpending, hphase⟩ | ⟨e, hfail, hpending, hphase⟩ | ⟨hgoes, hok⟩ :=
    inflateStatus_cases (d.run (view s.stream) (s.input c) s.room)
  · refine .inr ⟨_, if_neg (by rw [hend]; decide), rfl, ?_, hz.held .., IOBuf.data_append .. |>.trans ?_,
      .inl ⟨hend, hpending, hphase⟩⟩
    · show s.offset + _ = _
      omega
    · rw [Decompress.ensured, IOBuf.data_ensure]
  · refine .inl ⟨_, if_pos (by rw [hfail]; exact e.status_ne), rfl, .inl ⟨e, ?_⟩⟩
    rw [← hpending, ← hphase]
  · by_cases hnone : (d.run (view s.stream) (s.input c) s.room).consumed = 0 ∧
      (d.run (view s.stream) (s.input c) s.room).produced = []
    · rw [if_pos hnone] at hok
      have hroom : 0 < s.room := Nat.lt_of_lt_of_le (by decide) (le_room s)
      exact .inl ⟨_, if_pos (by rw [hok]; decide), rfl, .inr (no_progress hroom hgoes hnone.1 hnone.2)⟩
    · rw [if_neg hnone] at hok
      refine .inr ⟨_, if_neg (by rw [hok]; decide), rfl, ?_, hz.held .., IOBuf.data_append .. |>.trans ?_,
        .inr ⟨hok, hgoes, hnone⟩⟩
      · show s.offset + _ = _
        omega
      · rw [Decompress.ensured, IOBuf.data_ensure]

theorem Fed.remaining {s s' : Decompress σ} {room : Nat} (hfed : Fed c view (d.run (view s.stream) (s.input c) room) s s')
    (hin : s.offset ≤ (bufAt c s.crtBuf).length) :
    s'.offset ≤ (bufAt c s'.crtBuf).length ∧ s'.input c = (s.input c).drop (d.run (view s.stream) (s.input c) room).consumed ∧
    s'.remaining c = (s.input c).drop (d.run (view s.stream) (s.input c) room).consumed ++
      (c.bufs.drop (s.crtBuf + 1)).flatMap Buf.data := by
  have hle := d.consumed_le (view s.stream) (s.input c) room
  have hlen : (s.input c).length = (bufAt c s.crtBuf).length - s.offset := List.length_drop ..
  have hinput : s'.input c = (s.input c).drop (d.run (view s.stream) (s.input c) room).consumed := by
    rw [Decompress.input, hfed.crtBuf, hfed.offset, Decompress.input, List.drop_drop]
  refine ⟨?_, hinput, ?_⟩
  · rw [hfed.crtBuf, hfed.offset]
    omega
  · rw [Decompress.remaining, hinput, hfed.crtBuf]

theorem Fed.keeps {s s' : Decompress σ} {room : Nat} {v : Held τ UInt8 Fault} {bytes : List UInt8}
    (hfed : Fed c view (d.run (view s.stream) (s.input c) room) s s') (hs : s.Keeps c view d v bytes) :
    s'.Keeps c view d v bytes := by
  obtain ⟨hoffset, -, hremaining⟩ := hfed.remaining hs.inBuf
  refine ⟨hfed.crtBuf ▸ hs.inChain, hoffset, ?_, ?_⟩
  · rw [hremaining, hfed.out, hfed.held, List.append_assoc, ← hs.feed, Decompress.remaining,
      d.feed_pending s.out.data (view s.stream),
      d.feed_run (view s.stream) (s.input c) _ room]
    exact d.feed_pending s.out.data (d.run (view s.stream) (s.input c) room).total _
  · have hle := hs.remaining
    rw [Decompress.remaining, List.length_append] at hle
    rw [hremaining, List.length_append, List.length_drop]
    omega

theorem Decompress.Keeps.advance {s s' : Decompress σ} {v : Held τ UInt8 Fault} {bytes : List UInt8}
    (hs : s.Keeps c view d v bytes)
    (hadvance : s.advance c = some s') : s'.Keeps c view d v bytes := by
  obtain ⟨hremaining, hstream, -, hout, hin, hoffset⟩ := advance_some hs.inChain hs.inBuf hadvance
  exact ⟨hin, hoffset, by rw [hremaining, hstream, hout]; exact hs.feed, by rw [hremaining]; exact hs.remaining⟩

theorem remaining_start (stream : σ) (status : Status) : (Decompress.start stream status).remaining c = c.data := rfl

theorem keeps_start (stream : σ) (status : Status) :
    (Decompress.start stream status).Keeps c view d (view stream) c.data := by
  refine ⟨Nat.succ_pos _, Nat.zero_le _, ?_, Nat.le_of_eq (congrArg List.length (remaining_start stream status))⟩
  have hout : (Decompress.start stream status).out.data = [] := IOBuf.data_create _
  rw [remaining_start, hout]
  rfl

theorem turn_inr {s s' : Decompress σ} (hturn : s.turn inflate c = .inr s') :
    ∃ s₁, s.advance c = some s₁ ∧ s₁.status ≠ .streamEnd ∧ s₁.call inflate c = .inr s' := by
  unfold Decompress.turn at hturn
  cases hadvance : s.advance c with
  | none =>
    rw [hadvance] at hturn
    cases hturn
  | some s₁ =>
    rw [hadvance] at hturn
    refine ⟨s₁, rfl, fun hend => ?_, hturn⟩
    have hcall : s₁.call inflate c = .inr s' := hturn
    rw [Decompress.call, if_pos hend] at hcall
    cases hcall

theorem Reaches.keeps (hz : Inflates inflate view d) (hshort : ∀ b ∈ c.bufs, b.data.length < 2 ^ 32) {stream : σ} {status : Status}
    {s : Decompress σ} (hreach : Reaches inflate c (.start stream status) s) : s.Keeps c view d (view stream) c.data := by
  induction hreach with
  | refl => exact keeps_start stream status
  | turn _ hturn ih =>
    obtain ⟨s₁, hadvance, hstatus, hcall⟩ := turn_inr hturn
    have hs₁ := ih.advance hadvance
    obtain ⟨r, hnull, -⟩ | ⟨s', hgoes, hfed⟩ := call_spec hz hshort hs₁.inChain hstatus
    · rw [hnull] at hcall
      cases hcall
    · rw [hgoes] at hcall
      cases hcall
      exact hfed.keeps hs₁

end Turns

/-! ### The end of a call -/

section Ends

variable {σ τ : Type} {inflate : Codec σ} {c : IOBuf} {view : σ → Held τ UInt8 Fault} {d : Decoder τ UInt8 UInt8 Fault}

/-- The loop returns from the state, when the bound of its turns is large enough. -/
def Returns (inflate : Codec σ) (c : IOBuf) (s : Decompress σ) (r : Decompressed σ) : Prop :=
  ∃ N, ∀ fuel ≥ N, decompressLoop inflate c fuel s = some r

theorem Returns.of_inl {s : Decompress σ} {r : Decompressed σ} (hturn : s.turn inflate c = .inl r) : Returns inflate c s r := by
  refine ⟨1, fun fuel hfuel => ?_⟩
  obtain ⟨fuel, rfl⟩ : ∃ k, fuel = k + 1 := ⟨fuel - 1, by omega⟩
  rw [decompressLoop, hturn]

theorem Returns.of_inr {s s' : Decompress σ} {r : Decompressed σ} (hturn : s.turn inflate c = .inr s')
    (hr : Returns inflate c s' r) :
    Returns inflate c s r := by
  obtain ⟨N, hN⟩ := hr
  refine ⟨N + 1, fun fuel hfuel => ?_⟩
  obtain ⟨fuel, rfl⟩ : ∃ k, fuel = k + 1 := ⟨fuel - 1, by omega⟩
  rw [decompressLoop, hturn]
  exact hN fuel (by omega)

theorem Returns.unique {s : Decompress σ} {r r' : Decompressed σ} (hr : Returns inflate c s r) (hr' : Returns inflate c s r') :
    r = r' := by
  obtain ⟨N, hN⟩ := hr
  obtain ⟨N', hN'⟩ := hr'
  have h := hN (max N N') (Nat.le_max_left ..)
  rw [hN' (max N N') (Nat.le_max_right ..)] at h
  exact (Option.some.inj h).symm

theorem Returns.of_reaches {s s' : Decompress σ} {r : Decompressed σ} (hreach : Reaches inflate c s s')
    (hr : Returns inflate c s' r) :
    Returns inflate c s r := by
  induction hreach with
  | refl => exact hr
  | turn _ hturn ih => exact ih (hr.of_inr hturn)

theorem starved_null (hz : Inflates inflate view d) (hshort : ∀ b ∈ c.bufs, b.data.length < 2 ^ 32) {stream : σ} {status : Status}
    (hstarved : Starved inflate c view stream status) :
    ∃ r, Returns inflate c (.start stream status) r ∧ r.out = none := by
  obtain ⟨s, s₁, hreach, hadvance, hinput, hstarves⟩ := hstarved
  have hturn : s.turn inflate c = s₁.call inflate c := by rw [Decompress.turn, hadvance]
  suffices hnull : ∃ r, s₁.call inflate c = .inl r ∧ r.out = none by
    obtain ⟨r, hcall, hout⟩ := hnull
    exact ⟨r, .of_reaches hreach (.of_inl (hturn.trans hcall)), hout⟩
  by_cases hend : s₁.status = .streamEnd
  · exact ⟨_, if_pos hend, rfl⟩
  obtain ⟨r, hcall, hout, -⟩ | ⟨s', -, hfed⟩ := call_spec hz hshort ((hreach.keeps hz hshort).advance hadvance).inChain hend
  · exact ⟨r, hcall, hout⟩
  · have hrun : d.run (view s₁.stream) (s₁.input c) s₁.room = Decoder.stop (view s₁.stream) s₁.room := by rw [hinput]; rfl
    have hstatus := hfed.status
    rw [hrun] at hstatus
    have hnothing := hstarves.resolve_left hend
    cases hphase : (view s₁.stream).phase with
    | running t =>
      rw [hphase] at hnothing
      obtain ⟨-, -, hended⟩ | ⟨-, -, hprogress⟩ := hstatus
      · rw [show (Decoder.stop (view s₁.stream) s₁.room).held.phase = _ from hphase] at hended
        cases hended
      · exact absurd ⟨rfl, (congrArg (List.take _) hnothing).trans List.take_nil⟩ hprogress
    | ended =>
      rw [hphase] at hnothing
      exact hnothing.elim
    | failed e =>
      rw [hphase] at hnothing
      have hkept : (Decoder.stop (view s₁.stream) s₁.room).held.pending = [] := List.drop_eq_nil_of_le hnothing
      obtain ⟨-, -, hended⟩ | ⟨-, hgoes, -⟩ := hstatus
      · rw [show (Decoder.stop (view s₁.stream) s₁.room).held.phase = _ from hphase] at hended
        cases hended
      · obtain hne | ⟨t, hrunning⟩ := hgoes
        · exact absurd hkept hne
        · rw [show (Decoder.stop (view s₁.stream) s₁.room).held.phase = _ from hphase] at hrunning
          cases hrunning

theorem advance_of_consumed {s : Decompress σ} (hlen : (bufAt c s.crtBuf).length = s.offset) (hlast : next c s.crtBuf = 0) :
    s.advance c = none := by
  rw [Decompress.advance, if_pos hlen, if_pos hlast]

theorem overflown_kept (hz : Inflates inflate view d) (hshort : ∀ b ∈ c.bufs, b.data.length < 2 ^ 32)
    {stream : σ} {status : Status}     (hoverflown : Overflown inflate c view d stream status) :
    ∃ r, Returns inflate c (.start stream status) r ∧ r.out ≠ none ∧ (view r.stream).pending ≠ [] := by
  obtain ⟨hrest, hempty, hpending⟩ | ⟨s, s₁, hreach, hadvance, hlast, hend, htaken, hbefore, hroom⟩ := hoverflown
  · have hnone : (Decompress.start stream status).advance c = none := by
      refine advance_of_consumed (congrArg List.length hempty) ((next_eq_zero_iff (Nat.succ_pos _)).2 ?_)
      rw [IOBuf.bufs, hrest]
      rfl
    exact ⟨_, .of_inl (by rw [Decompress.turn, hnone]), Option.some_ne_none _, hpending⟩
  have hs₁ := (hreach.keeps hz hshort).advance hadvance
  have hconsumed : (d.run (view s₁.stream) (s₁.input c) s₁.room).consumed = _ := (d.consumed_eq_length_iff htaken).2 hbefore
  have htotal : (d.feed (view s₁.stream) (s₁.input c)).1 = (d.run (view s₁.stream) (s₁.input c) s₁.room).total := by
    have hfeed := d.feed_run (view s₁.stream) (s₁.input c) [] s₁.room
    rw [hconsumed, List.append_nil, List.drop_length] at hfeed
    rw [hfeed]
    rfl
  have hkept : (d.run (view s₁.stream) (s₁.input c) s₁.room).held.pending ≠ [] := by
    intro hnil
    have hle := d.length_produced_le (view s₁.stream) (s₁.input c) s₁.room
    rw [htotal, Decoder.Run.total, hnil, List.append_nil] at hroom
    exact Nat.not_le_of_lt hroom hle
  obtain ⟨-, -, -, ⟨e, hfail⟩ | ⟨hinput, hnothing, -⟩⟩ | ⟨s', hcall, hfed⟩ := call_spec hz hshort hs₁.inChain hend
  · rw [hfail] at hkept
    exact absurd rfl hkept
  · rw [hinput, Decoder.feed, hnothing] at hroom
    exact absurd hroom (Nat.not_lt_zero _)
  · have hturn : s.turn inflate c = .inr s' := by rw [Decompress.turn, hadvance, ← hcall]
    have hnone : s'.advance c = none := by
      refine advance_of_consumed ?_ (hfed.crtBuf ▸ hlast)
      have hin := hs₁.inBuf
      rw [hfed.crtBuf, hfed.offset, hconsumed, Decompress.input, List.length_drop]
      omega
    refine ⟨{ out := some s'.out, stream := s'.stream, status := s'.status }, .of_reaches (hreach.turn hturn) (.of_inl ?_),
      Option.some_ne_none _, ?_⟩
    · rw [Decompress.turn, hnone]
    · rw [hfed.held]
      exact hkept

/-- What is known of a state behind a turn. -/
structure Called (inflate : Codec σ) (c : IOBuf) (view : σ → Held τ UInt8 Fault) (d : Decoder τ UInt8 UInt8 Fault) (stream : σ)
    (status : Status) (s : Decompress σ) : Prop where
  first : status ≠ .streamEnd
  held : (s.status = .streamEnd ∧ (view s.stream).pending = [] ∧ (view s.stream).phase = .ended) ∨
    (s.status = .ok ∧ ((view s.stream).pending ≠ [] ∨ ∃ t, (view s.stream).phase = .running t))
  last : s.advance c = none → (view s.stream).pending ≠ [] → Overflown inflate c view d stream status

/-- How a call can end. -/
def EndsWith (inflate : Codec σ) (c : IOBuf) (view : σ → Held τ UInt8 Fault) (d : Decoder τ UInt8 UInt8 Fault) (stream : σ)
    (status : Status) (r : Decompressed σ) : Prop :=
  (r.out.map IOBuf.data = some (d.feed (view stream) c.data).1.pending ∧ (view r.stream).pending = [] ∧
    ¬ Rejects d (view stream) status c.data) ∨
  (r.out ≠ none ∧ (view r.stream).pending ≠ [] ∧ Overflown inflate c view d stream status) ∨
  (r.out = none ∧ (Rejects d (view stream) status c.data ∨ Starved inflate c view stream status))

section Turn

variable {stream : σ} {status : Status} {s : Decompress σ}

theorem ends_returned (hs : s.Keeps c view d (view stream) c.data)
    (hwhere : Called inflate c view d stream status s ∨ s = .start stream status) (hnone : s.advance c = none) :
    EndsWith inflate c view d stream status { out := some s.out, stream := s.stream, status := s.status } := by
  obtain ⟨hremaining, hinput, hlast⟩ := advance_none hs.inChain hnone
  have hfeed := hs.feed
  rw [hremaining] at hfeed
  by_cases hpending : (view s.stream).pending = []
  · refine .inl ⟨?_, hpending, ?_⟩
    · rw [← hfeed, Decoder.feed, hpending, List.append_nil]
      rfl
    · rintro ⟨hne, hend | hleft | ⟨e, hphase⟩⟩
      · obtain hcalled | rfl := hwhere
        · exact hcalled.first hend
        · exact hne ((remaining_start stream status).symm.trans hremaining)
      · rw [← hfeed] at hleft
        exact hleft rfl
      · rw [← hfeed] at hphase
        obtain hcalled | rfl := hwhere
        · obtain ⟨-, -, hended⟩ | ⟨-, hne | ⟨t, hrunning⟩⟩ := hcalled.held
          · exact nomatch hended.symm.trans hphase
          · exact hne hpending
          · exact nomatch hrunning.symm.trans hphase
        · exact hne ((remaining_start stream status).symm.trans hremaining)
  · refine .inr (.inl ⟨Option.some_ne_none _, hpending, ?_⟩)
    obtain hcalled | rfl := hwhere
    · exact hcalled.last hnone hpending
    · refine .inl ⟨?_, hinput, hpending⟩
      have hlen : c.rest.length = 0 := Nat.add_right_cancel hlast.symm
      exact List.eq_nil_of_length_eq_zero hlen

theorem rejects_of_remaining {s : Decompress σ} (hs : s.Keeps c view d (view stream) c.data) (hne : s.remaining c ≠ [])
    (h : status = .streamEnd ∨ (d.feed (view stream) c.data).2 ≠ [] ∨ ∃ e, (d.feed (view stream) c.data).1.phase = .failed e) :
    Rejects d (view stream) status c.data := by
  refine ⟨fun hnil => hne (List.eq_nil_of_length_eq_zero ?_), h⟩
  have hle := hs.remaining
  rw [hnil] at hle
  exact Nat.le_zero.1 hle

theorem ends_after_end {s₁ : Decompress σ} (hs₁ : s₁.Keeps c view d (view stream) c.data)
    (hreach : Reaches inflate c (.start stream status) s) (hadvance : s.advance c = some s₁) (hend : s₁.status = .streamEnd)
    (hwhere : status = .streamEnd ∨ (view s₁.stream).phase = .ended) :
    Rejects d (view stream) status c.data ∨ Starved inflate c view stream status := by
  by_cases hinput : s₁.input c = []
  · exact .inr ⟨s, s₁, hreach, hadvance, hinput, .inl hend⟩
  have hne : s₁.remaining c ≠ [] := fun h => hinput (List.append_eq_nil_iff.1 h).1
  refine .inl (rejects_of_remaining hs₁ hne (hwhere.imp_right fun hended => .inl ?_))
  rw [← hs₁.feed, d.feed_pending s₁.out.data (view s₁.stream), d.feed_of_not_running fun t h => nomatch hended.symm.trans h]
  exact hne

theorem ends_failed {s₁ : Decompress σ} (hs₁ : s₁.Keeps c view d (view stream) c.data)
    (hreach : Reaches inflate c (.start stream status) s) (hadvance : s.advance c = some s₁) {e : Fault}
    (hfail : (d.run (view s₁.stream) (s₁.input c) s₁.room).held = { phase := .failed e }) :
    Rejects d (view stream) status c.data ∨ Starved inflate c view stream status := by
  by_cases hinput : s₁.input c = []
  · refine .inr ⟨s, s₁, hreach, hadvance, hinput, .inr ?_⟩
    rw [hinput] at hfail
    have hphase : (view s₁.stream).phase = .failed e := congrArg Held.phase hfail
    rw [hphase]
    exact List.drop_eq_nil_iff.1 (congrArg Held.pending hfail)
  refine .inl (rejects_of_remaining hs₁ (fun h => hinput (List.append_eq_nil_iff.1 h).1) (.inr (.inr ⟨e, ?_⟩)))
  have htotal : (d.run (view s₁.stream) (s₁.input c) s₁.room).total.phase = .failed e := congrArg Held.phase hfail
  rw [← hs₁.feed, Decompress.remaining, d.feed_pending s₁.out.data (view s₁.stream),
    d.feed_run (view s₁.stream) (s₁.input c) _ s₁.room,
    d.feed_of_not_running fun t h => nomatch htotal.symm.trans h]
  exact htotal

theorem called_of_fed {s₁ s' : Decompress σ} (hs₁ : s₁.Keeps c view d (view stream) c.data)
    (hreach : Reaches inflate c (.start stream status) s) (hadvance : s.advance c = some s₁) (hend : s₁.status ≠ .streamEnd)
    (hfirst : status ≠ .streamEnd) (hfed : Fed c view (d.run (view s₁.stream) (s₁.input c) s₁.room) s₁ s') :
    Called inflate c view d stream status s' := by
  refine ⟨hfirst, ?_, fun hnone hpending => .inr ⟨s, s₁, hreach, hadvance, ?_⟩⟩
  · rw [hfed.held]
    exact hfed.status.imp_right fun ⟨hok, hgoes, _⟩ => ⟨hok, hgoes⟩
  obtain ⟨hoffset, hdrop, -⟩ := hfed.remaining hs₁.inBuf
  have hin : s'.crtBuf < c.bufs.length := hfed.crtBuf ▸ hs₁.inChain
  obtain ⟨-, hinput, hlast⟩ := advance_none hin hnone
  have hconsumed : (d.run (view s₁.stream) (s₁.input c) s₁.room).consumed = (s₁.input c).length :=
    Nat.le_antisymm (d.consumed_le ..) (List.drop_eq_nil_iff.1 (hdrop.symm.trans hinput))
  have hfeed := d.feed_run (view s₁.stream) (s₁.input c) [] s₁.room
  rw [hconsumed, List.append_nil, List.drop_length] at hfeed
  have htaken : (d.feed (view s₁.stream) (s₁.input c)).2 = [] := by rw [hfeed]; rfl
  rw [hfed.held] at hpending
  refine ⟨(next_eq_zero_iff hs₁.inChain).2 (hfed.crtBuf ▸ hlast), hend, htaken, (d.consumed_eq_length_iff htaken).1 hconsumed, ?_⟩
  rw [hfeed]
  show _ < ((d.run (view s₁.stream) (s₁.input c) s₁.room).produced ++
    (d.run (view s₁.stream) (s₁.input c) s₁.room).held.pending).length
  rw [List.length_append, d.length_produced hpending]
  exact Nat.lt_add_of_pos_right (List.length_pos_of_ne_nil hpending)

/-- What the loop still has to do: it ends after a turn that ends the stream, and each other turn consumes or
delivers something. -/
def measure (d : Decoder τ UInt8 UInt8 Fault) (v : Held τ UInt8 Fault) (c : IOBuf) (s : Decompress σ) : Nat :=
  if s.status = .streamEnd then 0 else 1 + ((d.feed v c.data).1.pending.length - s.out.data.length) + (s.remaining c).length

theorem measure_lt {s₁ s' : Decompress σ} (hs₁ : s₁.Keeps c view d (view stream) c.data)
    (hend : s₁.status ≠ .streamEnd) (hfed : Fed c view (d.run (view s₁.stream) (s₁.input c) s₁.room) s₁ s') :
    measure d (view stream) c s' < measure d (view stream) c s₁ := by
  unfold measure
  rw [if_neg hend]
  by_cases hend' : s'.status = .streamEnd
  · rw [if_pos hend']
    omega
  rw [if_neg hend']
  obtain ⟨-, -, hremaining⟩ := hfed.remaining hs₁.inBuf
  have hprogress := (hfed.status.resolve_left fun h => hend' h.1).2.2
  have hle := d.consumed_le (view s₁.stream) (s₁.input c) s₁.room
  have hdelivered : (s₁.out.data ++ (d.run (view s₁.stream) (s₁.input c) s₁.room).produced).length ≤
      (d.feed (view stream) c.data).1.pending.length := by
    have hs' := hfed.keeps hs₁
    have hpending := d.le_length_feed { view s'.stream with pending := s'.out.data ++ (view s'.stream).pending } (s'.remaining c)
    rw [hs'.feed, hfed.out, List.length_append] at hpending
    exact Nat.le_trans (Nat.le_add_right ..) hpending
  rw [List.length_append] at hdelivered
  rw [hremaining, hfed.out, Decompress.remaining]
  simp only [List.length_append, List.length_drop]
  have hsome : 0 < (d.run (view s₁.stream) (s₁.input c) s₁.room).consumed ∨
      0 < (d.run (view s₁.stream) (s₁.input c) s₁.room).produced.length := by
    by_contra hnone
    exact hprogress ⟨by omega, List.eq_nil_of_length_eq_zero (by omega)⟩
  omega

theorem ends_turn (hz : Inflates inflate view d) (hshort : ∀ b ∈ c.bufs, b.data.length < 2 ^ 32)
    (hreach : Reaches inflate c (.start stream status) s)
    (hwhere : Called inflate c view d stream status s ∨ s = .start stream status) :
    (∃ r, s.turn inflate c = .inl r ∧ EndsWith inflate c view d stream status r) ∨
    ∃ s', s.turn inflate c = .inr s' ∧ Called inflate c view d stream status s' ∧
      measure d (view stream) c s' < measure d (view stream) c s := by
  have hs := hreach.keeps hz hshort
  cases hadvance : s.advance c with
  | none => exact .inl ⟨_, by rw [Decompress.turn, hadvance], ends_returned hs hwhere hadvance⟩
  | some s₁ =>
    have hs₁ := hs.advance hadvance
    obtain ⟨hremaining, hstream, hstatus, hout, -, -⟩ := advance_some hs.inChain hs.inBuf hadvance
    have hturn : s.turn inflate c = s₁.call inflate c := by rw [Decompress.turn, hadvance]
    rw [hturn]
    by_cases hend : s₁.status = .streamEnd
    · refine .inl ⟨_, if_pos hend, .inr (.inr ⟨rfl, ends_after_end hs₁ hreach hadvance hend ?_⟩)⟩
      obtain hcalled | rfl := hwhere
      · obtain ⟨-, -, hended⟩ | ⟨hok, -⟩ := hcalled.held
        · exact .inr (hstream ▸ hended)
        · exact nomatch hok.symm.trans (hstatus.symm.trans hend)
      · exact .inl (hstatus.symm.trans hend)
    obtain ⟨r, hcall, hnull, ⟨e, hfail⟩ | ⟨hinput, hnothing, t, hrunning⟩⟩ | ⟨s', hcall, hfed⟩ :=
      call_spec hz hshort hs₁.inChain hend
    · exact .inl ⟨r, hcall, .inr (.inr ⟨hnull, ends_failed hs₁ hreach hadvance hfail⟩)⟩
    · refine .inl ⟨r, hcall, .inr (.inr ⟨hnull, .inr ⟨s, s₁, hreach, hadvance, hinput, .inr ?_⟩⟩)⟩
      rw [hrunning]
      exact hnothing
    · have hfirst : status ≠ .streamEnd := by
        obtain hcalled | rfl := hwhere
        · exact hcalled.first
        · exact fun h => hend (hstatus.trans h)
      have hless := measure_lt hs₁ hend hfed
      have hsame : measure d (view stream) c s₁ = measure d (view stream) c s := by
        rw [measure, measure, hstatus, hout, hremaining]
      rw [hsame] at hless
      exact .inr ⟨s', hcall, called_of_fed hs₁ hreach hadvance hend hfirst hfed, hless⟩

end Turn

/-- **A call ends.** It returns the output of all bytes with nothing left in the stream, or with output left because the last turn has
too little room, or it returns null because of the bytes or of an empty buffer. -/
theorem ends (hz : Inflates inflate view d) (hshort : ∀ b ∈ c.bufs, b.data.length < 2 ^ 32) (stream : σ) (status : Status) :
    ∃ r, Returns inflate c (.start stream status) r ∧ EndsWith inflate c view d stream status r := by
  suffices hrun : ∀ k s, measure d (view stream) c s ≤ k → Reaches inflate c (.start stream status) s →
      (Called inflate c view d stream status s ∨ s = .start stream status) →
      ∃ r, Returns inflate c s r ∧ EndsWith inflate c view d stream status r from
    hrun _ _ (Nat.le_refl _) .refl (.inr rfl)
  intro k
  induction k with
  | zero =>
    intro s hk hreach hwhere
    obtain ⟨r, hturn, hends⟩ | ⟨s', -, -, hless⟩ := ends_turn hz hshort hreach hwhere
    · exact ⟨r, .of_inl hturn, hends⟩
    · omega
  | succ k ih =>
    intro s hk hreach hwhere
    obtain ⟨r, hturn, hends⟩ | ⟨s', hturn, hcalled, hless⟩ := ends_turn hz hshort hreach hwhere
    · exact ⟨r, .of_inl hturn, hends⟩
    · obtain ⟨r, hr, hends⟩ := ih s' (by omega) (hreach.turn hturn) (.inl hcalled)
      exact ⟨r, hr.of_inr hturn, hends⟩

theorem ends_iff (hz : Inflates inflate view d) (hshort : ∀ b ∈ c.bufs, b.data.length < 2 ^ 32) (stream : σ) (status : Status) :
    ∃ r, Returns inflate c (.start stream status) r ∧
      ((r.out ≠ none ∧ (view r.stream).pending ≠ []) ↔ Overflown inflate c view d stream status) ∧
      (¬ Overflown inflate c view d stream status →
        (r.out = none ↔ Rejects d (view stream) status c.data ∨ Starved inflate c view stream status) ∧
        (r.out ≠ none → (view r.stream).pending = [] ∧ r.out.map IOBuf.data = some (d.feed (view stream) c.data).1.pending)) := by
  obtain ⟨r, hr, hends⟩ := ends (c := c) hz hshort stream status
  have hover : Overflown inflate c view d stream status → r.out ≠ none ∧ (view r.stream).pending ≠ [] := fun h => by
    obtain ⟨r', hr', hkept⟩ := overflown_kept hz hshort h
    rwa [hr.unique hr']
  have hstarve : Starved inflate c view stream status → r.out = none := fun h => by
    obtain ⟨r', hr', hnull⟩ := starved_null hz hshort h
    rwa [hr.unique hr']
  refine ⟨r, hr, ⟨fun ⟨hout, hkept⟩ => ?_, hover⟩, fun hroom => ?_⟩
  · obtain ⟨-, hpending, -⟩ | ⟨-, -, hoverflown⟩ | ⟨hnull, -⟩ := hends
    · exact absurd hpending hkept
    · exact hoverflown
    · exact absurd hnull hout
  · obtain ⟨hdata, hpending, haccepts⟩ | ⟨-, -, hoverflown⟩ | ⟨hnull, hwhy⟩ := hends
    · have hsome : r.out ≠ none := fun h => by
        rw [h] at hdata
        cases hdata
      refine ⟨⟨fun h => absurd h hsome, fun h => ?_⟩, fun _ => ⟨hpending, hdata⟩⟩
      exact h.elim (fun h => absurd h haccepts) hstarve
    · exact absurd hoverflown hroom
    · exact ⟨⟨fun _ => hwhy, fun _ => hnull⟩, fun h => absurd hnull h⟩

theorem Returns.of_loop {s : Decompress σ} {r : Decompressed σ} (fuel : Nat) (hr : decompressLoop inflate c fuel s = some r) :
    Returns inflate c s r := by
  induction fuel generalizing s with
  | zero => cases hr
  | succ fuel ih =>
    rw [decompressLoop] at hr
    cases hturn : s.turn inflate c with
    | inl ended =>
      rw [hturn] at hr
      cases hr
      exact .of_inl hturn
    | inr s' =>
      rw [hturn] at hr
      exact (ih hr).of_inr hturn

theorem not_starved (hz : Inflates inflate view d) (hshort : ∀ b ∈ c.bufs, b.data.length < 2 ^ 32)
    (hfull : ∀ b ∈ c.rest, b.data ≠ [])
    (stream : σ) (status : Status) : ¬ Starved inflate c view stream status := by
  rintro ⟨s, s₁, hreach, hadvance, hinput, -⟩
  have hs := hreach.keeps hz hshort
  unfold Decompress.advance at hadvance
  split_ifs at hadvance with hlen hnext
  · cases hadvance
    obtain ⟨heq, hlt⟩ := next_of_ne_zero hs.inChain hnext
    rw [Decompress.input, heq, List.drop_zero, bufAt_eq hlt] at hinput
    exact hfull _ (List.getElem_mem (l := c.rest) (Nat.lt_of_succ_lt_succ hlt)) hinput
  · cases hadvance
    have hle := List.drop_eq_nil_iff.1 hinput
    exact hlen (Nat.le_antisymm hle hs.inBuf)

theorem not_overflown (hz : Inflates inflate view d) (hshort : ∀ b ∈ c.bufs, b.data.length < 2 ^ 32) {stream : σ} (status : Status)
    (hempty : (view stream).pending = []) (hsmall : (d.feed (view stream) c.data).1.pending.length ≤ decompressorMinsize) :
    ¬ Overflown inflate c view d stream status := by
  rintro (⟨-, -, hpending⟩ | ⟨s, s₁, hreach, hadvance, -, -, htaken, -, hroom⟩)
  · exact hpending hempty
  have hs₁ := (hreach.keeps hz hshort).advance hadvance
  have hfeed := hs₁.feed
  rw [Decompress.remaining, d.feed_pending s₁.out.data (view s₁.stream), d.feed_append htaken] at hfeed
  have hle := d.le_length_feed (d.feed (view s₁.stream) (s₁.input c)).1 ((c.bufs.drop (s₁.crtBuf + 1)).flatMap Buf.data)
  have htotal := congrArg (fun p => p.1.pending.length) hfeed
  rw [List.length_append] at htotal
  have hmin := le_room s₁
  omega

end Ends

/-! ### A decoder of stored blocks -/

/-- An `inflate` that is a decoder. -/
def codecOf {τ : Type} (d : Decoder τ UInt8 UInt8 Fault) : Codec (Held τ UInt8 Fault) := fun s input availOut _ =>
  let r := d.run s input availOut
  { stream := r.held, status := inflateStatus r, consumed := r.consumed, produced := r.produced }

theorem inflates_codecOf {τ : Type} (d : Decoder τ UInt8 UInt8 Fault) : Inflates (codecOf d) id d :=
  ⟨fun _ _ _ => rfl, fun _ _ _ => rfl, fun _ _ _ => rfl, fun _ _ _ => rfl⟩

/-- The part of a zlib stream that is read, with what has been read of it. -/
inductive StoredField
  | header (read : List UInt8)
  | block
  | lengths (final : Bool) (read : List UInt8)
  | bytes (final : Bool) (left : Nat)
  | check (read : List UInt8)
  deriving DecidableEq, Repr

structure StoredReader where
  field : StoredField := .header []
  adler : Nat × Nat := (1, 0)
  deriving DecidableEq, Repr

namespace StoredReader

/-- What follows the last byte of a block. -/
def behind (final : Bool) : StoredField := if final then .check [] else .block

/-- Reads a zlib stream of level 0: a header, stored blocks and the checksum. -/
def decoder : Decoder StoredReader UInt8 UInt8 Fault := fun s x =>
  match s.field with
  | .header [] => ([], .running { s with field := .header [x] })
  | .header (cmf :: _) => ([], if cmf = 0x78 ∧ x = 0x01 then .running { s with field := .block } else .failed .dataError)
  | .block => ([], if x.toNat % 8 ≤ 1 then .running { s with field := .lengths (x.toNat % 8 = 1) [] } else .failed .dataError)
  | .lengths final [l, h, l'] =>
    let length := l.toNat + 256 * h.toNat
    if length + l'.toNat + 256 * x.toNat ≠ 65535 then ([], .failed .dataError)
    else ([], .running { s with field := if length = 0 then behind final else .bytes final length })
  | .lengths final read => ([], .running { s with field := .lengths final (read ++ [x]) })
  | .bytes final left =>
    ([x], .running { field := if left ≤ 1 then behind final else .bytes final (left - 1), adler := adler32 s.adler [x] })
  | .check [b, b', a] =>
    ([], if [b, b', a, x] = (word16 s.adler.2).reverse ++ (word16 s.adler.1).reverse then .ended else .failed .dataError)
  | .check read => ([], .running { s with field := .check (read ++ [x]) })

end StoredReader

/-- The zlib stream of the text "A", in two parts. -/
def streamOfA : List UInt8 × List UInt8 := ([0x78, 0x01, 0x01, 0x01, 0x00, 0xfe], [0xff, 0x41, 0x00, 0x42, 0x00, 0x42])

def wholeStream : IOBuf := { head := { data := streamOfA.1 ++ streamOfA.2, tailroom := 0 } }

end Raster.Zlib
