import Raster.Protocol.Binary
import Raster.Protocol.Proto.RpcChannel

/-!
# `PBSyncRpcChannel`

`raster/net/Socket.cpp` and `PBSyncRpcChannel::send` of `raster/protocol/proto/RpcChannel.h`: four calls on
the socket, whose results are not looked at. A connection takes and delivers bytes in pieces; it can break
after it has taken or delivered some.
-/

namespace Raster

open Raster.Binary (be32 ntohl frame)

/-- What the kernel does with one call of `::send` or `::recv`. -/
inductive Answer
  /-- At most `n` bytes are transferred, but one if there is one. -/
  | upTo (n : Nat)
  /-- `EINTR`. -/
  | interrupted
  deriving DecidableEq

def Answer.limit? : Answer → Option Nat
  | .upTo n => some n
  | .interrupted => none

structure Socket where
  /-- The answers to the next calls of `::send`; after the last one, all bytes are taken. -/
  sends : List Answer := []
  recvs : List Answer := []
  /-- How many bytes are taken before the connection breaks, if it does. -/
  room : Option Nat := none
  /-- The bytes that arrive, before the connection is closed or breaks. -/
  input : List UInt8 := []
  /-- Whether the end of the input is an error. -/
  reset : Bool := false
  /-- The bytes that were taken. -/
  sent : List UInt8 := []

namespace Socket

/-- How many of the bytes that were asked for are transferred. -/
def amount (limit : Option Nat) (asked : Nat) : Nat :=
  match limit with
  | none => asked
  | some n => min (max n 1) asked

/-- The loop of `Socket::recv`: what it returns, and the bytes that are written to the buffer. -/
def recvLoop (s : Socket) (n : Nat) : List Answer → Int × List UInt8 × Socket
  | .interrupted :: answers => s.recvLoop n answers
  | answers =>
    let k := amount (answers.head?.bind Answer.limit?) n
    let bytes := s.input.take k
    (if n ≠ 0 ∧ bytes = [] ∧ s.reset then -1 else bytes.length, bytes,
      { s with recvs := answers.tail, input := s.input.drop k })

def recv (s : Socket) (n : Nat) : Int × List UInt8 × Socket := s.recvLoop n s.recvs

/-- The loop of `Socket::send`. -/
def sendLoop (s : Socket) (buf : List UInt8) : List Answer → Int × Socket
  | .interrupted :: answers => s.sendLoop buf answers
  | answers =>
    let k := min (amount (answers.head?.bind Answer.limit?) buf.length) (s.room.getD buf.length)
    (if buf ≠ [] ∧ k = 0 then -1 else k,
      { s with sends := answers.tail, room := s.room.map (· - k), sent := s.sent ++ buf.take k })

def send (s : Socket) (buf : List UInt8) : Int × Socket := s.sendLoop buf s.sends

/-- The sizes of the pieces: interrupted calls are repeated. -/
def pieces (answers : List Answer) : List Nat := answers.filterMap Answer.limit?

theorem amount_le (limit : Option Nat) (asked : Nat) : amount limit asked ≤ asked := by
  unfold amount
  split <;> omega

/-- What a call of `recv` did: a piece of the input was read. -/
structure Received (s : Socket) (n : Nat) (bytes : List UInt8) (s' : Socket) : Prop where
  bytes_eq : bytes = s.input.take (amount (pieces s.recvs).head? n)
  input_eq : s'.input = s.input.drop (amount (pieces s.recvs).head? n)
  pieces_eq : pieces s'.recvs = (pieces s.recvs).tail
  sent_eq : s'.sent = s.sent

theorem recv_spec (s : Socket) (n : Nat) : ∃ r bytes s', s.recv n = (r, bytes, s') ∧ Received s n bytes s' := by
  unfold recv
  suffices h : ∀ answers, ∃ r s', s.recvLoop n answers = (r, s.input.take (amount (pieces answers).head? n), s') ∧
      s'.input = s.input.drop (amount (pieces answers).head? n) ∧ pieces s'.recvs = (pieces answers).tail ∧
      s'.sent = s.sent by
    obtain ⟨r, s', hrecv, hinput, hpieces, hsent⟩ := h s.recvs
    exact ⟨r, _, s', hrecv, rfl, hinput, hpieces, hsent⟩
  intro answers
  induction answers with
  | nil => exact ⟨_, _, rfl, rfl, rfl, rfl⟩
  | cons a answers ih =>
    cases a with
    | upTo n => exact ⟨_, _, rfl, rfl, rfl, rfl⟩
    | interrupted => exact ih

/-- What a call of `send` did: a piece of the bytes was taken. -/
structure Taken (s : Socket) (buf : List UInt8) (s' : Socket) : Prop where
  sent_eq : s'.sent = s.sent ++ buf.take (amount (pieces s.sends).head? buf.length)
  pieces_eq : pieces s'.sends = (pieces s.sends).tail
  room : ∀ m, (∀ r, s.room = some r → buf.length + m ≤ r) → ∀ r, s'.room = some r → m ≤ r
  recvs_eq : s'.recvs = s.recvs
  input_eq : s'.input = s.input

theorem send_spec (s : Socket) (buf : List UInt8) (hroom : ∀ r, s.room = some r → buf.length ≤ r) :
    ∃ r s', s.send buf = (r, s') ∧ Taken s buf s' := by
  have hk : ∀ limit, min (amount limit buf.length) (s.room.getD buf.length) = amount limit buf.length := by
    intro limit
    have hle := amount_le limit buf.length
    cases hr : s.room with
    | none => simpa using hle
    | some r => simpa using Nat.le_trans hle (hroom r hr)
  unfold send
  suffices h : ∀ answers, ∃ r s', s.sendLoop buf answers = (r, s') ∧
      s'.sent = s.sent ++ buf.take (amount (pieces answers).head? buf.length) ∧
      pieces s'.sends = (pieces answers).tail ∧
      s'.room = s.room.map (· - amount (pieces answers).head? buf.length) ∧ s'.recvs = s.recvs ∧ s'.input = s.input by
    obtain ⟨r, s', hsend, hsent, hpieces, hroom', hrecvs, hinput⟩ := h s.sends
    refine ⟨r, s', hsend, hsent, hpieces, fun m hm r hr => ?_, hrecvs, hinput⟩
    rw [hroom'] at hr
    obtain ⟨r', hr', rfl⟩ := Option.map_eq_some_iff.mp hr
    have := hm r' hr'
    have := amount_le (pieces s.sends).head? buf.length
    omega
  intro answers
  induction answers with
  | nil => exact ⟨_, _, rfl, by rw [hk]; rfl, rfl, by rw [hk]; rfl, rfl, rfl⟩
  | cons a answers ih =>
    cases a with
    | upTo n => exact ⟨_, _, rfl, by rw [hk]; rfl, rfl, by rw [hk]; rfl, rfl, rfl⟩
    | interrupted => exact ih

end Socket

namespace Proto

variable {P : Protobuf}

/-- A string of `size` zeros, after the bytes were written to its start. -/
def overwrite (size : Nat) (bytes : List UInt8) : List UInt8 := bytes ++ List.replicate (size - bytes.length) 0

/-- `send`: the socket after it, and the calls of `messageSent` (as `resultCb`) and of `process`. `n` has the
bytes `uninitialized` before it is written to. -/
def PBSyncRpcChannel.send (socket : Socket) (msg callId uninitialized : List UInt8) (throws : Bool) :
    Socket × List (Op P) :=
  let (_, socket) := socket.send (be32 msg.length)
  let (_, socket) := socket.send msg
  let (_, header, socket) := socket.recv 4
  let n := header ++ uninitialized.drop header.length
  let (_, body, socket) := socket.recv (ntohl n)
  let data := overwrite (ntohl n) body
  (socket, [.messageSent true [] callId throws, .process data throws])

/-- The messages that `process` is called with. -/
def processed (ops : List (Op P)) : List (List UInt8) :=
  ops.filterMap fun op => match op with
    | .process msg _ => some msg
    | _ => none

/-- The caller of the channel is told of a failure. -/
def Told (ops : List (Op P)) : Prop := ∃ reason callId throws, .messageSent false reason callId throws ∈ ops

/-- A connection on which the peer answers with the body: of its frame, the first `arrived` bytes come. -/
structure Exchanging where
  sends : List Answer := []
  recvs : List Answer := []
  room : Option Nat := none
  arrived : Nat
  reset : Bool := false
  msg : List UInt8
  body : List UInt8

namespace Exchanging

open Socket (amount pieces)

def socket (e : Exchanging) : Socket :=
  { sends := e.sends, recvs := e.recvs, room := e.room, input := (frame e.body).take e.arrived, reset := e.reset }

/-- The connection closes or breaks before the frames were transferred. -/
def Broken (e : Exchanging) : Prop :=
  (∃ r, e.room = some r ∧ r < (frame e.msg).length) ∨ e.arrived < (frame e.body).length

/-- On a connection that holds, the request frame is sent and the body is processed; on one that breaks, the
caller is told, and nothing is processed that was not received. -/
structure Independent (P : Protobuf) (e : Exchanging) (callId uninitialized : List UInt8) (throws : Bool) : Prop where
  whole : ¬ e.Broken →
    (PBSyncRpcChannel.send (P := P) e.socket e.msg callId uninitialized throws).1.sent = frame e.msg ∧
    processed (PBSyncRpcChannel.send (P := P) e.socket e.msg callId uninitialized throws).2 = [e.body]
  broken : e.Broken →
    Told (PBSyncRpcChannel.send (P := P) e.socket e.msg callId uninitialized throws).2 ∧
    ∀ data ∈ processed (PBSyncRpcChannel.send (P := P) e.socket e.msg callId uninitialized throws).2,
      frame data <+: e.socket.input

/-- Each call transfers all bytes, or those of the body that are not read are zero. -/
structure InOnePiece (e : Exchanging) : Prop where
  headerSent : amount (pieces e.sends)[0]? 4 = 4
  msgSent : amount (pieces e.sends)[1]? e.msg.length = e.msg.length
  headerRead : amount (pieces e.recvs)[0]? 4 = 4
  bodyRead : ∀ b ∈ e.body.drop (amount (pieces e.recvs)[1]? e.body.length), b = 0

variable {e : Exchanging} {callId uninitialized : List UInt8} {throws : Bool}

theorem not_told (socket : Socket) (msg : List UInt8) :
    ¬ Told (PBSyncRpcChannel.send (P := P) socket msg callId uninitialized throws).2 := by
  rintro ⟨reason, callId', throws', hmem⟩
  simp [PBSyncRpcChannel.send] at hmem

/-- What the last two calls read on a connection that holds. -/
def data (e : Exchanging) (uninitialized : List UInt8) : List UInt8 :=
  let k := amount (pieces e.recvs)[0]? 4
  let n := ntohl ((be32 e.body.length).take k ++ uninitialized.drop k)
  overwrite n (((frame e.body).drop k).take (amount (pieces e.recvs)[1]? n))

theorem send_of_held (P : Protobuf) (hheld : ¬ e.Broken) (callId uninitialized : List UInt8) (throws : Bool) :
    (PBSyncRpcChannel.send (P := P) e.socket e.msg callId uninitialized throws).1.sent =
      (be32 e.msg.length).take (amount (pieces e.sends)[0]? 4) ++ e.msg.take (amount (pieces e.sends)[1]? e.msg.length) ∧
    processed (PBSyncRpcChannel.send (P := P) e.socket e.msg callId uninitialized throws).2 = [e.data uninitialized] := by
  simp only [Broken, not_or, not_exists, not_and, not_lt] at hheld
  obtain ⟨hroom, harrived⟩ := hheld
  have hroom₀ : ∀ r, e.socket.room = some r → (be32 e.msg.length).length + e.msg.length ≤ r := fun r hr => by
    rw [Binary.length_be32, ← Binary.length_frame]
    exact hroom r hr
  have hinput : e.socket.input = frame e.body := List.take_of_length_le harrived
  obtain ⟨r₀, s₀, hsend₀, htaken₀⟩ := Socket.send_spec e.socket (be32 e.msg.length) fun r hr => by
    have := hroom₀ r hr
    omega
  obtain ⟨r₁, s₁, hsend₁, htaken₁⟩ := Socket.send_spec s₀ e.msg (htaken₀.room _ hroom₀)
  obtain ⟨r₂, header, s₂, hrecv₂, hread₂⟩ := Socket.recv_spec s₁ 4
  obtain ⟨r₃, body, s₃, hrecv₃, hread₃⟩ := Socket.recv_spec s₂ (ntohl (header ++ uninitialized.drop header.length))
  have hfirst : ∀ answers, (pieces answers).head? = (pieces answers)[0]? := fun _ => List.head?_eq_getElem?
  have hsecond : ∀ answers, (pieces answers).tail.head? = (pieces answers)[1]? := fun answers => by
    rw [List.head?_eq_getElem?, List.getElem?_tail]
  have hrecvs : s₁.recvs = e.recvs := htaken₁.recvs_eq.trans htaken₀.recvs_eq
  have hinput₁ : s₁.input = frame e.body := htaken₁.input_eq.trans (htaken₀.input_eq.trans hinput)
  have hheader : header = (be32 e.body.length).take (amount (pieces e.recvs)[0]? 4) := by
    rw [hread₂.bytes_eq, hinput₁, hrecvs, hfirst, frame,
      List.take_append_of_le_length (by simpa using Socket.amount_le (pieces e.recvs)[0]? 4)]
  have hlength : header.length = amount (pieces e.recvs)[0]? 4 := by
    rw [hheader, List.length_take, Binary.length_be32]
    exact Nat.min_eq_left (Socket.amount_le _ _)
  have hbody := hread₃.bytes_eq
  rw [hread₂.pieces_eq, hread₂.input_eq, hinput₁, hrecvs, hsecond, hfirst, hlength, hheader] at hbody
  rw [show PBSyncRpcChannel.send (P := P) e.socket e.msg callId uninitialized throws = (s₃, [.messageSent true [] callId
    throws, .process (overwrite (ntohl (header ++ uninitialized.drop header.length)) body) throws]) by
      simp only [PBSyncRpcChannel.send, hsend₀, hsend₁, hrecv₂, hrecv₃]]
  constructor
  · show s₃.sent = _
    rw [hread₃.sent_eq, hread₂.sent_eq, htaken₁.sent_eq, htaken₀.sent_eq, htaken₀.pieces_eq, hsecond, hfirst,
      Binary.length_be32]
    rfl
  · rw [hlength, hheader, hbody]
    rfl

theorem length_data (uninitialized : List UInt8) :
    (e.data uninitialized).length = ntohl ((be32 e.body.length).take (amount (pieces e.recvs)[0]? 4) ++
      uninitialized.drop (amount (pieces e.recvs)[0]? 4)) := by
  rw [data, overwrite, List.length_append, List.length_replicate, List.length_take]
  have := Socket.amount_le (pieces e.recvs)[1]? (ntohl ((be32 e.body.length).take (amount (pieces e.recvs)[0]? 4) ++
    uninitialized.drop (amount (pieces e.recvs)[0]? 4)))
  omega

theorem ntohl_append_mod (bytes : List UInt8) (b : UInt8) : ntohl (bytes ++ [b]) % 256 = b.toNat := by
  have := b.toNat_lt
  rw [ntohl, List.foldl_append, List.foldl_cons, List.foldl_nil]
  omega

theorem exists_data_ne (hshort : amount (pieces e.recvs)[0]? 4 < 4) :
    ∃ uninitialized, uninitialized.length = 4 ∧ e.data uninitialized ≠ e.body := by
  obtain ⟨k, hk⟩ : ∃ k, amount (pieces e.recvs)[0]? 4 = k := ⟨_, rfl⟩
  refine ⟨[0, 0, 0] ++ [UInt8.ofNat (e.body.length + 1)], rfl, fun heq => ?_⟩
  have hlength := congrArg List.length heq
  rw [length_data, hk, List.drop_append_of_le_length (by simp; omega), ← List.append_assoc] at hlength
  have hmod := congrArg (· % 256) hlength
  simp only [ntohl_append_mod, UInt8.toNat_ofNat'] at hmod
  omega

theorem overwrite_take_iff {bytes : List UInt8} {k : Nat} (hk : k ≤ bytes.length) :
    overwrite bytes.length (bytes.take k) = bytes ↔ ∀ b ∈ bytes.drop k, b = 0 := by
  have hsplit : overwrite bytes.length (bytes.take k) = bytes ↔ List.replicate (bytes.length - k) 0 = bytes.drop k := by
    rw [overwrite, List.length_take, Nat.min_eq_left hk]
    nth_rewrite 3 [← List.take_append_drop k bytes]
    rw [List.append_cancel_left_eq]
  rw [hsplit, eq_comm, List.eq_replicate_iff, List.length_drop]
  exact and_iff_right rfl

theorem data_eq_iff (hbody : e.body.length < 2 ^ 32) (hheader : amount (pieces e.recvs)[0]? 4 = 4)
    (hlength : uninitialized.length = 4) :
    e.data uninitialized = e.body ↔ ∀ b ∈ e.body.drop (amount (pieces e.recvs)[1]? e.body.length), b = 0 := by
  have hdata : e.data uninitialized = overwrite e.body.length (e.body.take (amount (pieces e.recvs)[1]? e.body.length)) := by
    simp only [data, hheader]
    rw [List.take_of_length_le (by simp), List.drop_of_length_le (by omega), List.append_nil, Binary.ntohl_be32 hbody, frame,
      ← Binary.length_be32 e.body.length, List.drop_left]
  have hle := Socket.amount_le (pieces e.recvs)[1]? e.body.length
  rw [hdata, overwrite_take_iff hle]

theorem held_of_inOnePiece (hpiece : e.InOnePiece) (hbody : e.body.length < 2 ^ 32) (hheld : ¬ e.Broken)
    (hlength : uninitialized.length = 4) : Independent P e callId uninitialized throws where
  whole _ := by
    obtain ⟨hsent, hprocessed⟩ := send_of_held P hheld callId uninitialized throws
    rw [hsent, hprocessed, hpiece.headerSent, hpiece.msgSent, List.take_length, List.take_of_length_le (by simp),
      (data_eq_iff hbody hpiece.headerRead hlength).mpr hpiece.bodyRead]
    exact ⟨rfl, rfl⟩
  broken hbroken := absurd hbroken hheld

theorem inOnePiece_of_independent (hbody : e.body.length < 2 ^ 32) (hheld : ¬ e.Broken)
    (hall : ∀ uninitialized : List UInt8, uninitialized.length = 4 → Independent P e callId uninitialized throws) :
    e.InOnePiece := by
  have hwhole : ∀ uninitialized : List UInt8, uninitialized.length = 4 →
      (be32 e.msg.length).take (amount (pieces e.sends)[0]? 4) ++ e.msg.take (amount (pieces e.sends)[1]? e.msg.length) =
        frame e.msg ∧ e.data uninitialized = e.body := by
    intro uninitialized hlength
    obtain ⟨hsent, hprocessed⟩ := (hall uninitialized hlength).whole hheld
    obtain ⟨hsent', hprocessed'⟩ := send_of_held P hheld callId uninitialized throws
    exact ⟨hsent'.symm.trans hsent, by simpa using hprocessed'.symm.trans hprocessed⟩
  have hheader : amount (pieces e.recvs)[0]? 4 = 4 := by
    by_contra hne
    have := Socket.amount_le (pieces e.recvs)[0]? 4
    obtain ⟨uninitialized, hlength, hdata⟩ := exists_data_ne (e := e) (by omega)
    exact hdata (hwhole uninitialized hlength).2
  obtain ⟨hsent, hdata⟩ := hwhole [0, 0, 0, 0] rfl
  have htotal := congrArg List.length hsent
  rw [List.length_append, List.length_take, List.length_take, Binary.length_be32, Binary.length_frame] at htotal
  have := Socket.amount_le (pieces e.sends)[0]? 4
  have := Socket.amount_le (pieces e.sends)[1]? e.msg.length
  exact ⟨by omega, by omega, hheader, (data_eq_iff hbody hheader rfl).mp hdata⟩

/-- **The channel does not depend on how the stream is cut, if and only if the connection holds and is not
cut**: each of the four calls transfers all bytes, except that zeros at the end of the body need not be
read. -/
theorem sync_send_independent_iff (P : Protobuf) (e : Exchanging) (hbody : e.body.length < 2 ^ 32)
    (callId : List UInt8) (throws : Bool) :
    (∀ uninitialized : List UInt8, uninitialized.length = 4 → Independent P e callId uninitialized throws) ↔
      ¬ e.Broken ∧ e.InOnePiece := by
  constructor
  · intro hall
    have hheld : ¬ e.Broken := fun hbroken => not_told e.socket e.msg ((hall [0, 0, 0, 0] rfl).broken hbroken).1
    exact ⟨hheld, inOnePiece_of_independent hbody hheld hall⟩
  · rintro ⟨hheld, hpiece⟩ uninitialized hlength
    exact held_of_inOnePiece hpiece hbody hheld hlength

/-- A request of one byte and a reply of two. -/
def twoBytes (recvs : List Answer) : Exchanging := { recvs, arrived := 6, msg := [7], body := [8, 9] }

theorem twoBytes_held (recvs : List Answer) : ¬ (twoBytes recvs).Broken := by
  rintro (⟨r, hr, -⟩ | hlt)
  · cases hr
  · exact Nat.lt_irrefl 6 hlt

/-- The reply is read in two calls, the first of which is repeated. -/
theorem sync_send_two_bytes :
    processed (PBSyncRpcChannel.send (P := flagProtobuf) { recvs := [.interrupted, .upTo 4], input := [0, 0, 0, 2, 8, 9] }
      [7] [1] [5, 5, 5, 5] false).2 = [[8, 9]] := by
  have hspec := (sync_send_independent_iff flagProtobuf (twoBytes [.interrupted, .upTo 4]) (by decide) [1] false).mpr
    ⟨twoBytes_held _, ⟨rfl, rfl, rfl, List.forall_mem_nil _⟩⟩ [5, 5, 5, 5] rfl
  exact (hspec.whole (twoBytes_held _)).2

/-- The body arrives in two pieces: zeros are processed in place of the second. -/
theorem sync_send_cut_body :
    ¬ Independent flagProtobuf (twoBytes [.upTo 4, .upTo 1]) [1] [0, 0, 0, 0] false := by
  intro h
  exact absurd (h.whole (twoBytes_held _)).2 (by decide)

end Exchanging

end Proto

end Raster
