import Raster.Net.Protocol
import Raster.Lib.Machine

/-!
# Length-prefixed frames

`raster/protocol/binary/Encoding.h` and `Protocol.h`: a frame is the length of the payload in four
bytes, in network order, and the payload. `Link` is a sender and a receiver with the bytes between
them: the sender encodes one payload after the other into fresh events and calls `writeData`, the
receiver calls `readData` and takes a fresh event after each frame.

`HBinaryProtocol::readData` finds its place from `rbuf` and `rlen` alone. `Receiving` says what they
are between two calls: while the header is incomplete, `rlen` is what is missing of the header and
the chain is one buffer; afterwards `rlen` is what is missing of the body.
-/

namespace Raster.Binary

open Raster.Protocol (chunkSize)

/-- The bytes of `htonl(n)`. -/
def be32 (n : Nat) : List UInt8 :=
  [UInt8.ofNat (n / 2 ^ 24), UInt8.ofNat (n / 2 ^ 16), UInt8.ofNat (n / 2 ^ 8), UInt8.ofNat n]

/-- The number in network order. -/
def ntohl (bytes : List UInt8) : Nat := bytes.foldl (fun acc b => acc * 256 + b.toNat) 0

/-- `BinaryProtocol::bodyLength`. -/
def bodyLength (header : List UInt8) : Nat := ntohl header

/-- `none` where a loop does not end. -/
def encodeData (buf : IOBuf) (obuf : List UInt8) : Option IOBuf :=
  let n := obuf.length % 2 ^ 32
  let buf := { buf with head := buf.head.pushElement (be32 n) }
  (IOBuf.pushAtMost chunkSize (n + 2) buf (obuf.take n)).map Prod.snd

/-- The payload, and the buffer after `coalesce`. -/
def decodeData (buf : IOBuf) : List UInt8 × IOBuf :=
  let buf := buf.coalesce
  (buf.head.data.drop 4, buf)

/-- `BinaryProtocol::readData`. -/
def readData (os : List Outcome) (i : Inbound) : Option (IOResult × Inbound × List Outcome) :=
  HBinaryProtocol.readData 4 bodyLength os i

/-! ### One frame -/

def frame (payload : List UInt8) : List UInt8 := be32 payload.length ++ payload

@[simp] theorem length_be32 (n : Nat) : (be32 n).length = 4 := rfl

theorem length_frame (p : List UInt8) : (frame p).length = 4 + p.length := by
  rw [frame, List.length_append, length_be32]

theorem ntohl_be32_mod (n : Nat) : ntohl (be32 n) = n % 2 ^ 32 := by
  simp only [ntohl, be32, List.foldl_cons, List.foldl_nil, UInt8.toNat_ofNat']
  omega

theorem ntohl_be32 {n : Nat} (hn : n < 2 ^ 32) : ntohl (be32 n) = n := by rw [ntohl_be32_mod, Nat.mod_eq_of_lt hn]

theorem encodeData_data (buf : IOBuf) {p : List UInt8} (hp : p.length < 2 ^ 32) :
    ∃ c, encodeData buf p = some c ∧ c.data = buf.head.data ++ (be32 p.length ++ (buf.dataBehind ++ p)) := by
  obtain ⟨c, hpush, hdata⟩ := IOBuf.pushAtMost_spec (show 0 < chunkSize by decide) (p.length + 2)
    { buf with head := buf.head.pushElement (be32 p.length) } p (by split_ifs <;> omega)
  refine ⟨c, ?_, ?_⟩
  · simp only [encodeData, Nat.mod_eq_of_lt hp, List.take_length, hpush, Option.map_some]
  · rw [hdata, IOBuf.data_eq_head, Buf.data_pushElement]
    simp only [List.append_assoc]
    rfl

theorem encodeData_spec {p : List UInt8} (hp : p.length < 2 ^ 32) :
    ∃ c, encodeData (IOBuf.create chunkSize) p = some c ∧ c.data = frame p := by
  obtain ⟨c, hc, hdata⟩ := encodeData_data (IOBuf.create chunkSize) hp
  refine ⟨c, hc, ?_⟩
  rw [hdata, frame, IOBuf.dataBehind, IOBuf.create, Buf.data_create]
  rfl

theorem decodeData_spec {c : IOBuf} {p : List UInt8} (hc : c.data = frame p) : (decodeData c).1 = p := by
  simp only [decodeData, IOBuf.head_data_coalesce, hc, frame]
  rw [← length_be32 p.length, List.drop_left]

/-! ### Receiving -/

/-- Between two calls of `readData`, part of the frame of `p` was received. -/
structure Receiving (p : List UInt8) (rbuf : IOBuf) (rlen : Nat) : Prop where
  data_prefix : rbuf.data <+: frame p
  lt : rbuf.data.length < (frame p).length
  header : rbuf.data.length < 4 → rbuf.rest = [] ∧ 4 - rbuf.data.length ≤ rbuf.last.tailroom ∧
    (rbuf.data ≠ [] → rlen = 4 - rbuf.data.length)
  body : 4 ≤ rbuf.data.length → rlen = (frame p).length - rbuf.data.length

theorem receiving_create (p : List UInt8) (rlen : Nat) : Receiving p (IOBuf.create chunkSize) rlen where
  data_prefix := by simp
  lt := by
    rw [length_frame, IOBuf.data_create, List.length_nil]
    omega
  header _ := ⟨rfl, Nat.le_trans (by decide) (Buf.le_tailroom_create chunkSize), by simp⟩
  body h := by simp at h

theorem Receiving.of_nil {p q : List UInt8} {rbuf : IOBuf} {rlen : Nat} (h : Receiving p rbuf rlen)
    (hnil : rbuf.data = []) : Receiving q rbuf rlen where
  data_prefix := by simp [hnil]
  lt := by
    rw [length_frame, hnil, List.length_nil]
    omega
  header := h.header
  body hlen := by simp [hnil] at hlen

theorem prefix_append_take {d f input later : List UInt8} {k : Nat} (hd : d <+: f)
    (hinput : input <+: f.drop d.length ++ later) (hk : k ≤ input.length) (hkf : k ≤ f.length - d.length) :
    d ++ input.take k <+: f := by
  obtain ⟨t, rfl⟩ := hd
  obtain ⟨u, hu⟩ := hinput
  rw [List.drop_left] at hu
  rw [List.length_append] at hkf
  have h1 : (input ++ u).take k = input.take k := List.take_append_of_le_length hk
  have h2 : (t ++ later).take k = t.take k := List.take_append_of_le_length (by omega)
  rw [← h1, hu, h2]
  exact (List.prefix_append_right_inj d).mpr (List.take_prefix k t)

/-- What a call of `readData` did: it took `k` bytes of the stream, and either the frame is complete or
the next call goes on with it. -/
structure Read (p : List UInt8) (i : Inbound) (k : Nat) (r : IOResult) (i' : Inbound) : Prop where
  le_input : k ≤ i.input.length
  data_eq : i'.rbuf.data = i.rbuf.data ++ i.input.take k
  input_eq : i'.input = i.input.drop k
  result : r = .complete ∧ i'.rbuf.data = frame p ∨ r = .again ∧ Receiving p i'.rbuf i'.rlen

theorem read_body {p : List UInt8} {i i' : Inbound} {k : Nat} {r : IOResult} {later : List UInt8}
    (hdata : i.rbuf.data <+: frame p) (hlen : 4 ≤ i.rbuf.data.length)
    (hrlen : i.rlen = (frame p).length - i.rbuf.data.length)
    (hinput : i.input <+: (frame p).drop i.rbuf.data.length ++ later)
    (hm : Protocol.Moved { i with rbuf := i.rbuf.ensure chunkSize i.rlen } k r i') : Read p i k r i' := by
  obtain ⟨hk, hki, hd, hr, hi, -, hroom, hres⟩ := hm
  simp only [IOBuf.data_ensure] at hk hki hd hr hi hres
  have hpre := prefix_append_take hdata hinput hki (by omega)
  have hle := hdata.length_le
  have hlength : (i.rbuf.data ++ i.input.take k).length = i.rbuf.data.length + k := by
    rw [List.length_append, List.length_take]
    omega
  refine ⟨hki, hd, hi, ?_⟩
  rcases hres with ⟨hr', hk'⟩ | ⟨hr', hk'⟩
  · refine Or.inl ⟨hr', ?_⟩
    rw [hd]
    exact hpre.eq_of_length (by omega)
  · refine Or.inr ⟨hr', ⟨hd ▸ hpre, ?_, fun h4 => ?_, fun _ => ?_⟩⟩ <;> rw [hd, hlength] at * <;> omega

theorem readData_spec {p : List UInt8} (hp : p.length < 2 ^ 32) {os : List Outcome} (hcalm : ∀ o ∈ os, o.Calm)
    {i : Inbound} {later : List UInt8} (h : Receiving p i.rbuf i.rlen)
    (hinput : i.input <+: (frame p).drop i.rbuf.data.length ++ later) :
    ∃ k r i' os', readData os i = some (r, i', os') ∧ Read p i k r i' := by
  by_cases hbody : 4 ≤ i.rbuf.data.length
  · -- the header is there: one call of `Protocol::readData`
    have hempty : ¬ i.rbuf.empty = true := by
      rw [IOBuf.empty_iff]
      intro hnil
      simp [hnil] at hbody
    obtain ⟨k, r, i', os', hread, -, hm⟩ := Protocol.readData_spec hcalm i
    have hspec := read_body h.data_prefix hbody (h.body hbody) hinput hm
    refine ⟨k, r, i', os', ?_, hspec⟩
    have hnot : ¬ (i'.rbuf.computeChainDataLength = 4 ∧ r = .complete) := by
      rintro ⟨h4, hr⟩
      rw [IOBuf.computeChainDataLength_eq] at h4
      rcases hspec.result with ⟨-, hd⟩ | ⟨hr', -⟩
      · have := h.lt
        rw [← hd] at this
        omega
      · rw [hr] at hr'
        cases hr'
    simp only [readData, HBinaryProtocol.readData, if_neg hempty, hread, if_neg hnot]
  · obtain ⟨hchain, hroom, hrlen⟩ := h.header (by omega)
    obtain ⟨i₀, hi₀⟩ : ∃ i₀ : Inbound, i₀ = { i with rlen := 4 - i.rbuf.data.length } := ⟨_, rfl⟩
    have hstart : (if i.rbuf.empty = true then { i with rlen := 4 } else i) = i₀ := by
      subst hi₀
      split_ifs with hempty
      · rw [(IOBuf.empty_iff i.rbuf).mp hempty]
        rfl
      · rw [← hrlen (mt (IOBuf.empty_iff i.rbuf).mpr hempty)]
    have hensure : i₀.rbuf.ensure chunkSize i₀.rlen = i₀.rbuf := by
      rw [hi₀, IOBuf.ensure, if_pos hroom]
    obtain ⟨k, r, i₁, os₁, hread, hcalm₁, hm⟩ := Protocol.readData_spec hcalm i₀
    rw [hensure] at hm
    obtain ⟨hk, hki, hd, hr, hi, hc, hroom₁, hres⟩ := hm
    simp only [hi₀] at hk hki hd hr hi hc hres
    have hF := length_frame p
    have hpre := prefix_append_take h.data_prefix hinput hki (by omega)
    have hlength : (i.rbuf.data ++ i.input.take k).length = i.rbuf.data.length + k := by
      rw [List.length_append, List.length_take]
      omega
    have hrest₁ : i₁.rbuf.rest = [] := by
      rw [hchain] at hc
      exact List.length_eq_zero_iff.mp hc
    rcases hres with ⟨rfl, hk'⟩ | ⟨rfl, hk'⟩
    · -- the header is complete, and the body is read with what is left of the outcomes
      have hd₁ : i₁.rbuf.data = be32 p.length := by
        rw [hd]
        refine (List.prefix_of_prefix_length_le hpre (List.prefix_append (be32 p.length) p) ?_).eq_of_length ?_
        · rw [hlength, length_be32]
          omega
        · rw [hlength, length_be32]
          omega
      have hhead : i₁.rbuf.head.data.take 4 = be32 p.length := by
        have : i₁.rbuf.data = i₁.rbuf.head.data := by simp [IOBuf.data, IOBuf.bufs, hrest₁]
        rw [← this, hd₁]
        rfl
      have hif : i₁.rbuf.computeChainDataLength = 4 := by
        rw [IOBuf.computeChainDataLength_eq, hd₁, length_be32]
      obtain ⟨k₂, r, i₂, os₂, hread₂, -, hm₂⟩ := Protocol.readData_spec hcalm₁ { i₁ with rlen := p.length }
      have hinput₁ : i₁.input <+: (frame p).drop i₁.rbuf.data.length ++ later := by
        obtain ⟨u, hu⟩ := hinput
        refine ⟨u, ?_⟩
        rw [hi, hd, hlength, ← List.drop_append_of_le_length hki, hu, List.drop_append_of_le_length, List.drop_drop]
        rw [List.length_drop]
        omega
      obtain ⟨h1, h2, h3, h4⟩ := read_body (i := { i₁ with rlen := p.length })
        (by rw [hd₁]; exact List.prefix_append _ _) (by rw [hd₁]; exact Nat.le_refl 4) (by rw [hd₁, hF, length_be32]; simp)
        hinput₁ hm₂
      simp only [hi, List.length_drop] at h1 h2 h3
      refine ⟨k + k₂, r, i₂, os₂, ?_, ⟨by omega, ?_, ?_, h4⟩⟩
      · simp only [readData, HBinaryProtocol.readData, hstart, hread, hif, and_self, if_true, hhead, bodyLength,
          ntohl_be32 hp]
        exact hread₂
      · rw [h2, hd, List.append_assoc, List.take_add]
      · rw [h3, List.drop_drop]
    · have hnot : ¬ (i₁.rbuf.computeChainDataLength = 4 ∧ IOResult.again = .complete) := by simp
      refine ⟨k, .again, i₁, os₁, ?_, ⟨hki, hd, hi, Or.inr ⟨rfl, ⟨hd ▸ hpre, ?_, fun _ => ⟨hrest₁, ?_, fun _ => ?_⟩,
        fun h4 => ?_⟩⟩⟩⟩
      · simp only [readData, HBinaryProtocol.readData, hstart, hread, if_neg hnot]
      · rw [hd, hlength]
        omega
      · rw [hd, hlength]
        omega
      · rw [hd, hlength]
        omega
      · rw [hd, hlength] at h4
        omega

/-! ### A sender, a receiver and the bytes between them -/

structure Link where
  /-- The payloads that were not encoded yet. -/
  queue : List (List UInt8)
  /-- `wbuf` and `wlen` of the event that is being written. -/
  sending : Option (IOBuf × Nat) := none
  /-- How often `writeData` returned 0. -/
  written : Nat := 0
  /-- All bytes that `send` took. -/
  sent : List UInt8 := []
  /-- Those that `recv` has not returned yet. -/
  wire : List UInt8 := []
  rbuf : IOBuf := IOBuf.create chunkSize
  rlen : Nat := 0
  /-- All bytes that `recv` returned. -/
  taken : List UInt8 := []
  /-- For each return of 0 of `readData`, `rbuf` and how many bytes `recv` had returned. -/
  received : List (IOBuf × Nat) := []

namespace Link

inductive Label
  /-- A call of `writeData`, and the sizes of its sends before an `EAGAIN`. -/
  | write (sizes : List Nat)
  /-- A call of `readData`, and the sizes of its receives before an `EAGAIN`. -/
  | read (sizes : List Nat)
  deriving DecidableEq, Repr

/-- `wbuf` and `wlen` for the next call of `writeData`: of the event that is being written, or of a fresh
one with the next payload. -/
def next (s : Link) : Option (IOBuf × Nat × List (List UInt8)) :=
  match s.sending, s.queue with
  | some (wbuf, wlen), queue => some (wbuf, wlen, queue)
  | none, [] => none
  | none, p :: queue => (encodeData (IOBuf.create chunkSize) p).map fun wbuf => (wbuf, 0, queue)

def write (s : Link) (os : List Outcome) : Option Link :=
  match s.next with
  | none => none
  | some (wbuf, wlen, queue) =>
    match Protocol.writeData os { wbuf, wlen, output := [] } with
    | none => none
    | some (r, w) =>
      let s := { s with queue, sent := s.sent ++ w.output, wire := s.wire ++ w.output }
      if r = .complete then some { s with sending := none, written := s.written + 1 }
      else some { s with sending := some (w.wbuf, w.wlen) }

def read (s : Link) (os : List Outcome) : Option Link :=
  match readData os { rbuf := s.rbuf, rlen := s.rlen, input := s.wire } with
  | none => none
  | some (r, i, _) =>
    let taken := s.taken ++ s.wire.take (s.wire.length - i.input.length)
    let s := { s with wire := i.input, taken }
    -- after a return of 0 the event is reset
    if r = .complete then
      some { s with rbuf := IOBuf.create chunkSize, rlen := 0, received := s.received ++ [(i.rbuf, taken.length)] }
    else some { s with rbuf := i.rbuf, rlen := i.rlen }

def step (s : Link) : Label → Option Link
  | .write sizes => s.write (sizes.map .bytes)
  | .read sizes => s.read (sizes.map .bytes)

def start (payloads : List (List UInt8)) : Link := { queue := payloads }

/-! ### The invariant -/

/-- The bytes of the first `n` frames. -/
def frames (payloads : List (List UInt8)) (n : Nat) : List UInt8 := (payloads.take n).flatMap frame

structure Inv (payloads : List (List UInt8)) (s : Link) : Prop where
  idle : s.sending = none → s.queue = payloads.drop s.written ∧ s.sent = frames payloads s.written
  busy : ∀ wbuf wlen, s.sending = some (wbuf, wlen) → ∃ p, payloads.drop s.written = p :: s.queue ∧
    wbuf.data = frame p ∧ wlen < (frame p).length ∧ s.sent = frames payloads s.written ++ (frame p).take wlen
  wire_eq : s.sent = s.taken ++ s.wire
  taken_eq : s.taken = frames payloads s.received.length ++ s.rbuf.data
  receiving : ∃ p, Receiving p s.rbuf s.rlen ∧ (s.rbuf.data ≠ [] → payloads[s.received.length]? = some p)
  received_eq : ∀ k c n, s.received[k]? = some (c, n) →
    ∃ p, payloads[k]? = some p ∧ c.data = frame p ∧ n = (frames payloads (k + 1)).length

theorem inv_start (payloads : List (List UInt8)) : Inv payloads (start payloads) where
  idle _ := ⟨rfl, rfl⟩
  busy _ _ h := by cases h
  wire_eq := rfl
  taken_eq := by simp [start, frames]
  receiving := ⟨[], receiving_create [] 0, by simp [start]⟩
  received_eq _ _ _ h := by simp [start] at h

theorem frames_succ {payloads : List (List UInt8)} {n : Nat} {p : List UInt8} (hp : payloads[n]? = some p) :
    frames payloads (n + 1) = frames payloads n ++ frame p := by
  rw [frames, List.take_add_one, hp]
  simp [frames]

theorem frames_append_drop (payloads : List (List UInt8)) (n : Nat) :
    frames payloads n ++ (payloads.drop n).flatMap frame = payloads.flatMap frame := by
  rw [frames, ← List.flatMap_append, List.take_append_drop]

theorem calm_bytes (sizes : List Nat) : ∀ o ∈ sizes.map Outcome.bytes, o.Calm := by
  intro o ho
  obtain ⟨n, -, rfl⟩ := List.mem_map.mp ho
  trivial

section

variable {payloads : List (List UInt8)} {s : Link}

theorem Inv.sent_prefix (h : Inv payloads s) : s.sent <+: payloads.flatMap frame := by
  cases hs : s.sending with
  | none =>
    rw [(h.idle hs).2, ← frames_append_drop payloads s.written]
    exact List.prefix_append _ _
  | some e =>
    obtain ⟨p, hdrop, -, -, hsent⟩ := h.busy e.1 e.2 hs
    rw [hsent, ← frames_append_drop payloads s.written, hdrop, List.flatMap_cons, List.prefix_append_right_inj]
    exact (List.take_prefix _ _).trans (List.prefix_append _ _)

theorem Inv.next_spec (h : Inv payloads s) (hlen : ∀ p ∈ payloads, p.length < 2 ^ 31)
    (hsome : s.sending ≠ none ∨ s.queue ≠ []) :
    ∃ wbuf wlen queue p, s.next = some (wbuf, wlen, queue) ∧ payloads.drop s.written = p :: queue ∧
      wbuf.data = frame p ∧ wlen < (frame p).length ∧ s.sent = frames payloads s.written ++ (frame p).take wlen := by
  cases hs : s.sending with
  | some e =>
    obtain ⟨p, hdrop, hdata, hlt, hsent⟩ := h.busy e.1 e.2 hs
    exact ⟨e.1, e.2, s.queue, p, by rw [next, hs], hdrop, hdata, hlt, hsent⟩
  | none =>
    obtain ⟨hqueue, hsent⟩ := h.idle hs
    obtain ⟨p, queue, hq⟩ := List.exists_cons_of_ne_nil (hsome.resolve_left fun hne => hne hs)
    have hmem : p ∈ payloads := by
      refine List.mem_of_mem_drop (i := s.written) ?_
      rw [← hqueue, hq]
      exact List.mem_cons_self
    obtain ⟨c, hencode, hc⟩ := encodeData_spec (p := p) (Nat.lt_trans (hlen p hmem) (by decide))
    refine ⟨c, 0, queue, p, ?_, by rw [← hqueue, hq], hc, by rw [length_frame]; omega, by simpa using hsent⟩
    simp only [next, hs, hq, hencode, Option.map_some]

theorem Inv.write (h : Inv payloads s) (hlen : ∀ p ∈ payloads, p.length < 2 ^ 31)
    (hsome : s.sending ≠ none ∨ s.queue ≠ []) {os : List Outcome} (hcalm : ∀ o ∈ os, o.Calm) :
    ∃ s', s.write os = some s' ∧ Inv payloads s' := by
  obtain ⟨wbuf, wlen, queue, p, hnext, hdrop, hdata, hlt, hsent⟩ := h.next_spec hlen hsome
  obtain ⟨k, r, w, hw, hwbuf, hwlen, hle, hout, hres⟩ :=
    Protocol.writeData_spec hcalm { wbuf, wlen, output := [] } (by simp only [hdata]; omega)
  simp only [hdata, List.nil_append] at hwbuf hwlen hle hout hres
  have hp : payloads[s.written]? = some p := by
    have := congrArg List.head? hdrop
    simpa [List.head?_drop] using this
  have hsent' : s.sent ++ w.output = frames payloads s.written ++ (frame p).take w.wlen := by
    rw [hsent, hout, List.append_assoc, ← List.take_add, hwlen]
  have hwire : s.sent ++ w.output = s.taken ++ (s.wire ++ w.output) := by
    rw [h.wire_eq, List.append_assoc]
  rcases hres with ⟨rfl, hfull⟩ | ⟨rfl, hpart⟩
  · refine ⟨{ s with queue, sent := s.sent ++ w.output, wire := s.wire ++ w.output, sending := none, written := s.written + 1 },
      by simp only [Link.write, hnext, hw, if_true], ⟨fun _ => ⟨?_, ?_⟩, ?_, hwire, h.taken_eq,
      h.receiving, h.received_eq⟩⟩
    · show queue = payloads.drop (s.written + 1)
      rw [← List.drop_drop, hdrop]
      rfl
    · show s.sent ++ w.output = frames payloads (s.written + 1)
      rw [hsent', hfull, List.take_length, frames_succ hp]
    · intro wbuf' wlen' hnone
      cases hnone
  · refine ⟨{ s with queue, sent := s.sent ++ w.output, wire := s.wire ++ w.output, sending := some (w.wbuf, w.wlen) },
      by simp only [Link.write, hnext, hw, reduceCtorEq, if_false], ⟨?_, ?_, hwire, h.taken_eq,
      h.receiving, h.received_eq⟩⟩
    · intro hnone
      cases hnone
    · intro wbuf' wlen' heq
      simp only [Option.some.injEq, Prod.mk.injEq] at heq
      obtain ⟨rfl, rfl⟩ := heq
      exact ⟨p, hdrop, by rw [hwbuf, hdata], hpart, hsent'⟩

theorem Inv.next_frame (h : Inv payloads s) (hlen : ∀ p ∈ payloads, p.length < 2 ^ 31) :
    ∃ p later, Receiving p s.rbuf s.rlen ∧ p.length < 2 ^ 32 ∧
      s.wire <+: (frame p).drop s.rbuf.data.length ++ later ∧
      (s.rbuf.data ++ s.wire ≠ [] → payloads[s.received.length]? = some p) := by
  obtain ⟨p, hrec, hp⟩ := h.receiving
  have hstream : s.rbuf.data ++ s.wire <+: (payloads.drop s.received.length).flatMap frame := by
    have := h.sent_prefix
    rw [h.wire_eq, h.taken_eq, List.append_assoc, ← frames_append_drop payloads s.received.length,
      List.prefix_append_right_inj] at this
    exact this
  cases hdrop : payloads.drop s.received.length with
  | nil =>
    rw [hdrop, List.flatMap_nil, List.prefix_nil, List.append_eq_nil_iff] at hstream
    exact ⟨[], [], hrec.of_nil hstream.1, by decide, by simp [hstream.2], by simp [hstream]⟩
  | cons q later =>
    have hq : payloads[s.received.length]? = some q := by
      have := congrArg List.head? hdrop
      simpa [List.head?_drop] using this
    have hrecq : Receiving q s.rbuf s.rlen := by
      by_cases hnil : s.rbuf.data = []
      · exact hrec.of_nil hnil
      · have hpq : q = p := by simpa [hq] using hp hnil
        exact hpq ▸ hrec
    refine ⟨q, later.flatMap frame, hrecq, ?_, ?_, fun _ => hq⟩
    · exact Nat.lt_trans (hlen q (List.mem_of_getElem? hq)) (by decide)
    · obtain ⟨t, ht⟩ := hrecq.data_prefix
      rw [hdrop, List.flatMap_cons, ← ht, List.append_assoc, List.prefix_append_right_inj] at hstream
      rwa [← ht, List.drop_left]

theorem Inv.read (h : Inv payloads s) (hlen : ∀ p ∈ payloads, p.length < 2 ^ 31)
    {os : List Outcome} (hcalm : ∀ o ∈ os, o.Calm) : ∃ s', s.read os = some s' ∧ Inv payloads s' := by
  obtain ⟨p, later, hrec, hp, hwire, hframe⟩ := h.next_frame hlen
  obtain ⟨k, r, i, os', hread, hk, hdata, hinput, hres⟩ :=
    readData_spec hp hcalm (i := { rbuf := s.rbuf, rlen := s.rlen, input := s.wire }) hrec hwire
  simp only at hk hdata hinput
  have hcount : s.wire.length - i.input.length = k := by
    rw [hinput, List.length_drop]
    omega
  have htaken : s.taken ++ s.wire.take k = frames payloads s.received.length ++ i.rbuf.data := by
    rw [h.taken_eq, hdata, List.append_assoc]
  have hsent : s.sent = (s.taken ++ s.wire.take k) ++ i.input := by
    rw [h.wire_eq, hinput, List.append_assoc, List.take_append_drop]
  have hsome : i.rbuf.data ≠ [] → payloads[s.received.length]? = some p := by
    refine fun hne => hframe fun hnil => hne ?_
    rw [List.append_eq_nil_iff] at hnil
    simp [hdata, hnil]
  rcases hres with ⟨rfl, hfull⟩ | ⟨rfl, hpart⟩
  · have hj := hsome (by rw [hfull]; exact List.ne_nil_of_length_pos (by rw [length_frame]; omega))
    have htaken' : s.taken ++ s.wire.take k = frames payloads (s.received.length + 1) := by
      rw [htaken, hfull, frames_succ hj]
    refine ⟨{ s with
        wire := i.input
        taken := s.taken ++ s.wire.take k
        rbuf := IOBuf.create chunkSize
        rlen := 0
        received := s.received ++ [(i.rbuf, (s.taken ++ s.wire.take k).length)] },
      by simp only [Link.read, hread, if_true, hcount], ⟨h.idle, h.busy, hsent, ?_,
      ⟨[], receiving_create [] 0, by simp⟩, ?_⟩⟩
    · simp [htaken']
    · intro j c n hget
      rw [List.getElem?_append] at hget
      split_ifs at hget with hlt
      · exact h.received_eq j c n hget
      · have hj0 : j = s.received.length := by
          have := List.getElem?_eq_some_iff.mp hget
          obtain ⟨hb, -⟩ := this
          simp only [List.length_singleton] at hb
          omega
        subst hj0
        simp only [Nat.sub_self, List.getElem?_cons_zero, Option.some.injEq, Prod.mk.injEq] at hget
        obtain ⟨rfl, rfl⟩ := hget
        exact ⟨p, hj, hfull, by rw [htaken']⟩
  · exact ⟨{ s with wire := i.input, taken := s.taken ++ s.wire.take k, rbuf := i.rbuf, rlen := i.rlen },
      by simp only [Link.read, hread, reduceCtorEq, if_false, hcount],
      ⟨h.idle, h.busy, hsent, htaken, ⟨p, hpart, hsome⟩, h.received_eq⟩⟩

end

theorem step_inv {payloads : List (List UInt8)} (hlen : ∀ p ∈ payloads, p.length < 2 ^ 31) {s s' : Link} (l : Label)
    (h : Inv payloads s) (hs : s.step l = some s') : Inv payloads s' := by
  cases l with
  | write sizes =>
    have hsome : s.sending ≠ none ∨ s.queue ≠ [] := by
      by_contra hnot
      simp only [not_or, not_not] at hnot
      simp [step, Link.write, next, hnot] at hs
    obtain ⟨u, hu, hinv⟩ := h.write hlen hsome (calm_bytes sizes)
    rw [step, hu, Option.some.injEq] at hs
    exact hs ▸ hinv
  | read sizes =>
    obtain ⟨u, hu, hinv⟩ := h.read hlen (calm_bytes sizes)
    rw [step, hu, Option.some.injEq] at hs
    exact hs ▸ hinv

theorem run_inv {payloads : List (List UInt8)} (hlen : ∀ p ∈ payloads, p.length < 2 ^ 31) {ls : List Label} {s : Link}
    (hrun : Lib.run step (start payloads) ls = some s) : Inv payloads s :=
  Lib.run_invariant (fun _ l _ h hs => step_inv hlen l h hs) (inv_start payloads) hrun

/-- Part of the frame of the payload `k`, but not all of it. -/
def Partial (payloads : List (List UInt8)) (k : Nat) (bytes : List UInt8) : Prop :=
  bytes = [] ∨ ∃ p, payloads[k]? = some p ∧ bytes <+: frame p ∧ bytes.length < (frame p).length

/-- **Frames arrive as they were sent, however the stream is cut.** In every state of every interleaving
of calls of `writeData` and `readData`: the next call returns; `writeData` has returned 0 exactly for
the frames whose bytes were all sent, once and in order; the `k`-th return of 0 of `readData` left the
`k`-th frame in `rbuf`, had taken the bytes of the frames up to it and no other, and `decodeData` gives
the `k`-th payload; and what was taken after the last one is part of the next frame. -/
theorem framing_exact {payloads : List (List UInt8)} (hlen : ∀ p ∈ payloads, p.length < 2 ^ 31) {ls : List Label}
    {s : Link} (hrun : Lib.run step (start payloads) ls = some s) :
    (s.written < payloads.length → ∀ sizes, ∃ s', s.step (.write sizes) = some s') ∧
    (∀ sizes, ∃ s', s.step (.read sizes) = some s') ∧
    (∃ part, s.sent = frames payloads s.written ++ part ∧ Partial payloads s.written part) ∧
    s.sent = s.taken ++ s.wire ∧
    (s.taken = frames payloads s.received.length ++ s.rbuf.data ∧
      Partial payloads s.received.length s.rbuf.data) ∧
    (∀ k c n, s.received[k]? = some (c, n) → ∃ p, payloads[k]? = some p ∧ c.data = be32 p.length ++ p ∧
      s.sent.take n = frames payloads (k + 1) ∧ (decodeData c).1 = p) := by
  have h := run_inv hlen hrun
  refine ⟨fun hlt sizes => ?_, fun sizes => ?_, ?_, h.wire_eq, ⟨h.taken_eq, ?_⟩, fun k c n hget => ?_⟩
  · have hsome : s.sending ≠ none ∨ s.queue ≠ [] := by
      by_contra hnot
      simp only [not_or, not_not] at hnot
      have := (h.idle hnot.1).1
      rw [hnot.2, eq_comm, List.drop_eq_nil_iff] at this
      omega
    obtain ⟨u, hu, -⟩ := h.write hlen hsome (calm_bytes sizes)
    exact ⟨u, hu⟩
  · obtain ⟨u, hu, -⟩ := h.read hlen (calm_bytes sizes)
    exact ⟨u, hu⟩
  · cases hs : s.sending with
    | none => exact ⟨[], by rw [(h.idle hs).2, List.append_nil], Or.inl rfl⟩
    | some e =>
      obtain ⟨p, hdrop, -, hlt, hsent⟩ := h.busy e.1 e.2 hs
      refine ⟨_, hsent, Or.inr ⟨p, ?_, List.take_prefix _ _, by rw [List.length_take]; omega⟩⟩
      have := congrArg List.head? hdrop
      simpa [List.head?_drop] using this
  · obtain ⟨p, hrec, hp⟩ := h.receiving
    by_cases hnil : s.rbuf.data = []
    · exact Or.inl hnil
    · exact Or.inr ⟨p, hp hnil, hrec.data_prefix, hrec.lt⟩
  · obtain ⟨p, hp, hc, rfl⟩ := h.received_eq k c n hget
    refine ⟨p, hp, hc, ?_, decodeData_spec hc⟩
    have hle : k + 1 ≤ s.received.length := (List.getElem?_eq_some_iff.mp hget).1
    have hsplit : frames payloads (k + 1) <+: s.sent := by
      have hpre : frames payloads (k + 1) <+: frames payloads s.received.length := by
        obtain ⟨m, hm⟩ := Nat.exists_eq_add_of_le hle
        rw [hm, frames, frames, List.take_add (i := k + 1), List.flatMap_append]
        exact List.prefix_append _ _
      rw [h.wire_eq, h.taken_eq, List.append_assoc]
      exact hpre.trans (List.prefix_append _ _)
    exact (List.prefix_iff_eq_take.mp hsplit).symm

/-- A payload of three bytes and an empty one; the first frame is cut inside its header. -/
theorem framing_exact_two_payloads :
    ∃ s, Lib.run step (start [[1, 2, 3], []])
        [.write [3], .read [2, 9], .write [9], .write [1, 9], .read [9, 9], .read [9]] = some s ∧
      ∃ c n, s.received[0]? = some (c, n) ∧ (decodeData c).1 = [1, 2, 3] ∧ n = 7 := by
  obtain ⟨s, hs⟩ : ∃ s, Lib.run step (start [[1, 2, 3], []])
      [.write [3], .read [2, 9], .write [9], .write [1, 9], .read [9, 9], .read [9]] = some s := ⟨_, rfl⟩
  have hfirst : ∃ c, s.received[0]? = some (c, 7) := by
    rw [← Option.some.inj hs]
    exact ⟨_, rfl⟩
  obtain ⟨c, hc⟩ := hfirst
  obtain ⟨p, hp, -, -, hdecode⟩ := (framing_exact (by decide) hs).2.2.2.2.2 0 c 7 hc
  refine ⟨s, hs, c, 7, hc, ?_, rfl⟩
  rw [hdecode]
  simpa using hp.symm

end Link

end Raster.Binary
