import Mathlib.Data.List.TakeDrop
import Raster.Protocol.Encoding

/-!
# `BinarySyncClient`

`raster/protocol/binary/Transport.h` and `SyncClient.h`. A transport has one buffer for all that it writes
and one for all that it reads, and neither is ever cleared. `send` encodes the request behind what is there
and sends what one `peek` at the front shows: the first buffer of the chain.

A call of `send` or `recv` on the socket transfers all bytes it is asked for. `none` stands for a `recv` that
waits for bytes that do not come.
-/

namespace Raster.Binary

open Raster.Protocol (chunkSize)

/-- The buffers of a transport, and what the peer has sent and was not read. -/
structure BinaryTransport where
  rbuf : IOBuf := IOBuf.create chunkSize
  wbuf : IOBuf := IOBuf.create chunkSize
  input : List UInt8 := []

namespace BinaryTransport

/-- The bytes that are sent, and the transport. -/
def send (t : BinaryTransport) (request : List UInt8) : Option (List UInt8 × BinaryTransport) :=
  (encodeData t.wbuf request).map fun wbuf => ((Cursor.make wbuf).peek.1, { t with wbuf })

/-- `appender.append(socket_.recv(appender.writableData(), n))` after `appender.ensure(n)`. -/
def fill (t : BinaryTransport) (n : Nat) : Option (List UInt8 × BinaryTransport) :=
  if n ≤ t.input.length then
    some (t.input.take n, { t with rbuf := (t.rbuf.ensure chunkSize n).append (t.input.take n), input := t.input.drop n })
  else none

/-- The bytes that are read, the response, and the transport. -/
def recv (t : BinaryTransport) : Option (List UInt8 × List UInt8 × BinaryTransport) :=
  (t.fill 4).bind fun (header, t) =>
    (t.fill (ntohl (t.rbuf.head.data.take 4))).map fun (body, t) =>
      let (response, rbuf) := decodeData t.rbuf
      (header ++ body, response, { t with rbuf })

/-- What one fetch does. -/
structure Fetched where
  sent : List UInt8
  read : List UInt8
  response : List UInt8
deriving DecidableEq

/-- `BinarySyncClient::fetch`; the peer sends the reply. -/
def fetch (t : BinaryTransport) (request reply : List UInt8) : Option (Fetched × BinaryTransport) :=
  (t.send request).bind fun (sent, t) =>
    (recv { t with input := t.input ++ frame reply }).map fun (read, response, t) => ({ sent, read, response }, t)

/-- One fetch after the other, of requests and their replies. -/
def fetches (t : BinaryTransport) : List (List UInt8 × List UInt8) → Option (List Fetched)
  | [] => some []
  | (request, reply) :: es =>
    (t.fetch request reply).bind fun (fetched, t) => (t.fetches es).map (fetched :: ·)

/-- What a fetch should do. -/
def expected (e : List UInt8 × List UInt8) : Fetched := { sent := frame e.1, read := frame e.2, response := e.2 }

end BinaryTransport

/-! ### Buffers -/

theorem peek_make {c : IOBuf} (hdata : c.head.data ≠ []) : (Cursor.make c).peek.1 = c.head.data := by
  have hpos : ¬ c.head.data.length - 0 = 0 := by
    rw [Nat.sub_zero, List.length_eq_zero_iff]
    exact hdata
  unfold Cursor.peek Cursor.make
  cases c.rest with
  | nil => simp only [Cursor.settle, if_neg hpos, List.drop_zero]
  | cons b bs => simp only [Cursor.settle, if_neg hpos, List.drop_zero]

theorem head_append (c : IOBuf) (bytes : List UInt8) :
    (c.append bytes).head.data = c.head.data ++ (if c.rest = [] then bytes else []) := by
  obtain ⟨head, rest⟩ := c
  cases rest with
  | nil => rfl
  | cons b bs => simp [IOBuf.append, IOBuf.setLast]

theorem head_pushAtMost {growth fuel : Nat} {c c' : IOBuf} {bytes : List UInt8} {copied : Nat}
    (h : IOBuf.pushAtMost growth fuel c bytes = some (copied, c')) :
    c'.head.data = c.head.data ++ (if c.rest = [] then bytes.take c.head.tailroom else []) := by
  have hlast : c.rest = [] → c.last = c.head := fun hrest => by rw [IOBuf.last, hrest]; rfl
  induction fuel generalizing c bytes copied with
  | zero => cases h
  | succ fuel ih =>
    simp only [IOBuf.pushAtMost] at h
    have htake : ∀ k, c.last.tailroom = k → (c.append (bytes.take k)).head.data =
        c.head.data ++ (if c.rest = [] then bytes.take c.head.tailroom else []) := by
      intro k hk
      rw [head_append]
      split_ifs with hrest
      · rw [← hk, hlast hrest]
      · rfl
    split_ifs at h with hfit hgrowth
    · cases h
      have hall := htake c.last.tailroom rfl
      rwa [List.take_of_length_le hfit] at hall
    · cases h
      exact htake c.last.tailroom rfl
    · split at h
      · cases h
      · next hrec =>
        cases h
        have hchained : (IOBuf.prependChain (c.append (bytes.take c.last.tailroom)) (IOBuf.create growth)).rest ≠ [] := by
          simp [IOBuf.prependChain, IOBuf.bufs]
        rw [ih hrec fun hrest => absurd hrest hchained, if_neg hchained, List.append_nil]
        exact htake c.last.tailroom rfl

/-! ### One fetch -/

theorem head_encodeData {buf c : IOBuf} {p : List UInt8} (hp : p.length < 2 ^ 32) (hrest : buf.rest = [])
    (hencode : encodeData buf p = some c) :
    ∃ k, c.head.data = buf.head.data ++ (be32 p.length ++ p.take k) ∧
      (4 ≤ buf.head.tailroom → k = buf.head.tailroom - 4) := by
  simp only [encodeData, Nat.mod_eq_of_lt hp, List.take_length] at hencode
  obtain ⟨⟨copied, c'⟩, hpush, rfl⟩ := Option.map_eq_some_iff.mp hencode
  refine ⟨(buf.head.pushElement (be32 p.length)).tailroom, ?_, fun hroom => ?_⟩
  · rw [head_pushAtMost hpush, if_pos hrest, Buf.data_pushElement, List.append_assoc]
  · rw [Buf.pushElement_of_room _ (by simp) (by simpa using hroom)]
    rfl

namespace BinaryTransport

variable {t : BinaryTransport}

theorem fill_eq_some {bytes later : List UInt8} (hinput : t.input = bytes ++ later) :
    ∃ rbuf, t.fill bytes.length = some (bytes, { t with rbuf, input := later }) ∧ rbuf.data = t.rbuf.data ++ bytes ∧
      (bytes.length ≤ t.rbuf.last.tailroom → rbuf.head.data = t.rbuf.head.data ++ (if t.rbuf.rest = [] then bytes else [])) := by
  have hle : bytes.length ≤ t.input.length := by
    rw [hinput, List.length_append]
    omega
  have htake : t.input.take bytes.length = bytes := by rw [hinput, List.take_left]
  have hdrop : t.input.drop bytes.length = later := by rw [hinput, List.drop_left]
  refine ⟨(t.rbuf.ensure chunkSize bytes.length).append bytes, ?_, ?_, fun hroom => ?_⟩
  · rw [fill, if_pos hle, htake, hdrop]
  · rw [IOBuf.data_append, IOBuf.data_ensure]
  · rw [IOBuf.ensure, if_pos hroom, head_append]

theorem recv_spec {reply : List UInt8} (hreply : reply.length < 2 ^ 32) (hrbuf : t.rbuf = IOBuf.create chunkSize)
    (hinput : t.input = frame reply) : ∃ t', t.recv = some (frame reply, reply, t') ∧ t'.wbuf = t.wbuf := by
  obtain ⟨rbuf, hfill, hdata, hhead⟩ := fill_eq_some (t := t) hinput
  rw [length_be32] at hfill hhead
  have hroom : 4 ≤ t.rbuf.last.tailroom := by
    rw [hrbuf]
    exact Nat.le_trans (by decide) (Buf.le_tailroom_create chunkSize)
  have hheader : rbuf.head.data = be32 reply.length := by
    rw [hhead hroom, hrbuf]
    rfl
  obtain ⟨rbuf', hfill', hdata', -⟩ :=
    fill_eq_some (t := { t with rbuf, input := reply }) (show reply = reply ++ [] by simp)
  have hlength : ntohl (rbuf.head.data.take 4) = reply.length := by
    rw [hheader, List.take_of_length_le (by simp), ntohl_be32 hreply]
  have hall : rbuf'.data = frame reply := by
    rw [hdata', hdata, hrbuf, IOBuf.data_create]
    rfl
  refine ⟨{ t with rbuf := (decodeData rbuf').2, input := [] }, ?_, rfl⟩
  rw [recv, hfill, Option.bind_some]
  simp only [hlength]
  rw [hfill', Option.map_some]
  simp only [← decodeData_spec hall]
  rw [decodeData_spec hall]
  rfl

theorem send_eq_some {request : List UInt8} (hrequest : request.length < 2 ^ 32) (hrest : t.wbuf.rest = []) :
    ∃ k wbuf, t.send request = some (t.wbuf.head.data ++ (be32 request.length ++ request.take k), { t with wbuf }) ∧
      encodeData t.wbuf request = some wbuf ∧
      wbuf.head.data = t.wbuf.head.data ++ (be32 request.length ++ request.take k) ∧
      (4 ≤ t.wbuf.head.tailroom → k = t.wbuf.head.tailroom - 4) := by
  obtain ⟨wbuf, hencode, -⟩ := encodeData_data t.wbuf hrequest
  obtain ⟨k, hhead, hk⟩ := head_encodeData hrequest hrest hencode
  refine ⟨k, wbuf, ?_, hencode, hhead, hk⟩
  have hne : wbuf.head.data ≠ [] := by
    rw [hhead]
    simp [be32]
  rw [send, hencode, Option.map_some, peek_make hne, hhead]

theorem fetch_first (request reply : List UInt8) (hrequest : request.length < 2 ^ 32) (hreply : reply.length < 2 ^ 32) :
    ∃ t, fetch {} request reply = some (⟨be32 request.length ++ request.take 4092, frame reply, reply⟩, t) ∧
      encodeData (IOBuf.create chunkSize) request = some t.wbuf ∧
      t.wbuf.head.data = be32 request.length ++ request.take 4092 := by
  obtain ⟨k, wbuf, hsend, hencode, hhead, hk⟩ := send_eq_some (t := {}) hrequest rfl
  obtain rfl : k = 4092 := hk (by decide)
  obtain ⟨t', hrecv, hwbuf⟩ := recv_spec (t := { wbuf, input := [] ++ frame reply }) hreply rfl rfl
  simp only at hwbuf
  refine ⟨t', ?_, by rw [hwbuf]; exact hencode, by rw [hwbuf]; exact hhead⟩
  rw [fetch, hsend, Option.bind_some]
  simp only
  rw [hrecv, Option.map_some]
  rfl

theorem header_take_eq_frame_iff (request : List UInt8) :
    be32 request.length ++ request.take 4092 = frame request ↔ request.length ≤ 4092 := by
  rw [frame, List.append_cancel_left_eq, List.take_eq_self_iff]

theorem rest_encodeData {p : List UInt8} {c : IOBuf} (hp : p.length ≤ 4092)
    (hencode : encodeData (IOBuf.create chunkSize) p = some c) : c.rest = [] := by
  have hroom : 4 ≤ (Buf.create chunkSize).tailroom := by decide
  have htailroom : (Buf.create chunkSize).tailroom - 4 = 4092 := by decide
  rw [encodeData, Nat.mod_eq_of_lt (by omega), List.take_length] at hencode
  simp only [IOBuf.create, Buf.pushElement_of_room _ (show 0 < (be32 p.length).length by simp) (by simpa using hroom)]
    at hencode
  have hfit : p.length ≤ (IOBuf.last { head := (Buf.create chunkSize).append (be32 p.length) }).tailroom := by
    show p.length ≤ (Buf.create chunkSize).tailroom - (be32 p.length).length
    rw [length_be32, htailroom]
    exact hp
  rw [IOBuf.pushAtMost, if_pos hfit, Option.map_some, Option.some.injEq] at hencode
  rw [← hencode]
  rfl

theorem frame_append_ne {p q more : List UInt8} (hp : p.length < 2 ^ 32) (hq : q.length < 2 ^ 32)
    (hmore : more ≠ []) : frame p ++ more ≠ frame q := by
  intro heq
  have hheader := congrArg (List.take 4) heq
  simp only [frame, List.append_assoc] at hheader
  rw [List.take_append_of_le_length (by simp), List.take_append_of_le_length (by simp),
    List.take_of_length_le (by simp), List.take_of_length_le (by simp)] at hheader
  have hlength : p.length = q.length := by rw [← ntohl_be32 hp, ← ntohl_be32 hq, hheader]
  have htotal := congrArg List.length heq
  rw [List.length_append, length_frame, length_frame] at htotal
  have := List.length_pos_iff.mpr hmore
  omega

theorem fetch_second {t' : BinaryTransport} {r request reply : List UInt8} {fetched : Fetched} (hr : r.length ≤ 4092)
    (hrequest : request.length < 2 ^ 32) (hencode : encodeData (IOBuf.create chunkSize) r = some t.wbuf)
    (hhead : t.wbuf.head.data = be32 r.length ++ r.take 4092) (hfetch : t.fetch request reply = some (fetched, t')) :
    fetched.sent ≠ frame request := by
  obtain ⟨k, wbuf, hsend, -⟩ := send_eq_some hrequest (rest_encodeData hr hencode)
  rw [fetch, hsend, Option.bind_some] at hfetch
  obtain ⟨received, -, heq⟩ := Option.map_eq_some_iff.mp hfetch
  rw [← (Prod.mk.inj heq).1]
  show t.wbuf.head.data ++ (be32 request.length ++ request.take k) ≠ frame request
  rw [hhead, (header_take_eq_frame_iff r).mpr hr]
  exact frame_append_ne (by omega) hrequest (by simp [be32])

/-- **The fetches of one client do what they should, if and only if there is at most one, and its request
fits into a buffer of `chunkSize` bytes with its header.** -/
theorem fetches_independent_iff (es : List (List UInt8 × List UInt8))
    (hes : ∀ e ∈ es, e.1.length < 2 ^ 31 ∧ e.2.length < 2 ^ 31) :
    fetches {} es = some (es.map expected) ↔ es.length ≤ 1 ∧ ∀ e ∈ es, 4 + e.1.length ≤ chunkSize := by
  match es with
  | [] => simp [fetches]
  | (r, p) :: es =>
    obtain ⟨hr, hp⟩ := hes (r, p) List.mem_cons_self
    simp only at hr hp
    obtain ⟨t, hfetch, hencode, hhead⟩ := fetch_first r p (by omega) (by omega)
    have hfirst : ({ sent := be32 r.length ++ r.take 4092, read := frame p, response := p } : Fetched) = expected (r, p) ↔
        r.length ≤ 4092 := by
      rw [← header_take_eq_frame_iff r]
      simp [expected]
    rw [fetches, hfetch, Option.bind_some, List.map_cons, Option.map_eq_some_iff]
    constructor
    · rintro ⟨fs, hfs, heq⟩
      obtain ⟨hf, rfl⟩ := List.cons.inj heq
      have hfit := hfirst.mp hf
      match es with
      | [] => simpa [chunkSize] using show 4 + r.length ≤ 4096 by omega
      | (r₂, p₂) :: es =>
        exfalso
        obtain ⟨hr₂, -⟩ := hes (r₂, p₂) (by simp)
        simp only at hr₂
        obtain ⟨⟨f₂, t₂⟩, hfetch₂, hmap⟩ := Option.bind_eq_some_iff.mp hfs
        obtain ⟨fs, -, heq₂⟩ := Option.map_eq_some_iff.mp hmap
        refine fetch_second hfit (by omega) hencode hhead hfetch₂ ?_
        rw [(List.cons.inj heq₂).1]
        rfl
    · rintro ⟨hlength, hfit⟩
      have hfit := hfit (r, p) List.mem_cons_self
      simp only [chunkSize] at hfit
      obtain rfl : es = [] := by simpa using hlength
      exact ⟨[], rfl, by rw [hfirst.mpr (by omega)]; rfl⟩

/-- One fetch. -/
theorem fetches_independent_one : fetches {} [([1, 2], [3])] =
    some [{ sent := [0, 0, 0, 2, 1, 2], read := [0, 0, 0, 1, 3], response := [3] }] :=
  (fetches_independent_iff [([1, 2], [3])] (by decide)).mpr (by decide)

/-- With the second request the first one is sent again, and the second reply is returned behind the first. -/
theorem second_fetch_repeats_first : fetches {} [([1], [3]), ([2], [4])] ≠ some ([([1], [3]), ([2], [4])].map expected) := by
  decide

end BinaryTransport

end Raster.Binary
