import Raster.Net.AsyncClient
import Raster.Protocol.Thrift.SeqId

/-!
# `TAsyncClient`

`raster/protocol/thrift/AsyncClient.h` and `Encoding.h`. The generated functions of a client write their request to
`pobuf_` and read the reply from `pibuf_`, which are `TMemoryBuffer`s of the client. What a function writes is
appended to what is there, and `getBuffer` returns all of it; a buffer has less than `2 ^ 32` bytes.

The theorem is about the frames that `send` puts into the `wbuf` of the event: `pobuf_` is never emptied.
-/

namespace Raster.Thrift

open Raster.Binary (be32 frame)
open Raster.Protocol (chunkSize)

/-- The memory buffers of a client. -/
structure TBuffers where
  pobuf : List UInt8 := []
  pibuf : List UInt8 := []

abbrev TAsyncClient := AsyncClient TBuffers

abbrev TAsyncClients := Clients TBuffers

/-- How a call ends. -/
inductive Result
  | returned (value : Bool)
  | threw
  deriving DecidableEq

/-- The same body as that of `binary::encodeData`. -/
def encodeData (buf : IOBuf) (obuf : List UInt8) : Option IOBuf := Binary.encodeData buf obuf

namespace TAsyncClients

variable (s : TAsyncClients)

def setPobuf (c : Nat) (k : TAsyncClient) (pobuf : List UInt8) : TAsyncClients :=
  s.setClient c (some { k with own := { k.own with pobuf } })

/-- What `encodeData` of the client makes of the output buffer. -/
def numbered (k : TAsyncClient) (e : Nat) (obuf : List UInt8) : Option (List UInt8) :=
  if k.keepalive then setSeqId obuf (s.events e).seqid else some obuf

/-- The function of the client writes the bytes, and may throw then. -/
def send (c : Nat) (k : TAsyncClient) (written : List UInt8) (throws : Bool) : Option (Result × TAsyncClients) :=
  match k.event with
  | none => some (.returned false, s)
  | some e =>
    let pobuf := k.own.pobuf ++ written
    if throws then some (.threw, s.setPobuf c k pobuf)
    else
      match s.numbered k e pobuf with
      | none => some (.threw, { s with crashed := true })
      | some pobuf => (encodeData (s.events e).wbuf pobuf).map fun wbuf =>
        (.returned true, setPobuf (s.modifyEvent e fun ev => { ev with wbuf }) c k pobuf)

/-- Whether it returns, and the clients: the check of the sequence id comes at the end of the scope. -/
def decodeData (c : Nat) (k : TAsyncClient) (e : Nat) : Bool × TAsyncClients :=
  let rbuf := (s.events e).rbuf.coalesce
  let enough : Bool := 4 ≤ rbuf.head.data.length
  let pibuf := if enough then rbuf.head.data.drop 4 else k.own.pibuf
  let unmatched := k.keepalive ∧ getSeqId pibuf ≠ some (int32 (s.events e).seqid)
  (enough, (s.modifyEvent e fun ev =>
    let ev := { ev with rbuf }
    if unmatched then ev.setType .fail else ev).setClient c (some { k with own := { k.own with pibuf } }))

/-- The function of the client reads the reply, and may throw. -/
def recv (c : Nat) (k : TAsyncClient) (throws : Bool) : Result × TAsyncClients :=
  match k.event with
  | none => (.returned false, s)
  | some e =>
    if (s.events e).type = .fail then (.returned false, s)
    else
      let (decoded, s) := s.decodeData c k e
      (if decoded ∧ ¬ throws then .returned true else .threw, s)

end TAsyncClients

namespace TAsyncClients

inductive Op
  | base (l : Clients.Label Unit)
  | send (c : Nat) (written : List UInt8) (throws : Bool)
  | recv (c : Nat) (throws : Bool)

def step (s : TAsyncClients) : Op → Option TAsyncClients
  | .base l => Clients.step s (l.withOwn fun _ => {})
  | .send c written throws =>
    if s.crashed then none
    else (s.clients c).bind fun k =>
      if (k.own.pobuf ++ written).length < 2 ^ 32 then (s.send c k written throws).map Prod.snd else none
  | .recv c throws => if s.crashed then none else (s.clients c).map fun k => (s.recv c k throws).2

/-- A request that is sent is put as a frame behind what the `wbuf` has, and nothing else is. -/
def Exact (s : TAsyncClients) : Op → Prop
  | .send c m false => ∀ k e s', s.clients c = some k → k.event = some e → s.step (.send c m false) = some s' →
    s'.crashed = false ∧ ∃ m', s.numbered k e m = some m' ∧ (s'.events e).wbuf.data = (s.events e).wbuf.data ++ frame m'
  | _ => True

/-- Nothing was written to the output buffer before a request that is sent. -/
def Clear (s : TAsyncClients) : Op → Prop
  | .send c m false => ∀ k e s', s.clients c = some k → k.event = some e → s.step (.send c m false) = some s' →
    k.own.pobuf = []
  | _ => True

/-! ### What `send` and `recv` do -/

variable {s s' : TAsyncClients}

@[simp] theorem events_setPobuf (s : TAsyncClients) (c : Nat) (k : TAsyncClient) (pobuf : List UInt8) :
    (s.setPobuf c k pobuf).events = s.events := rfl

/-- What `send` does. -/
inductive Sent (s : TAsyncClients) (c : Nat) (k : TAsyncClient) (written : List UInt8) : Bool → TAsyncClients → Prop
  | unconnected {throws : Bool} (hevent : k.event = none) : Sent s c k written throws s
  | threw {e : Nat} (hevent : k.event = some e) : Sent s c k written true (s.setPobuf c k (k.own.pobuf ++ written))
  | crashed {e : Nat} (hevent : k.event = some e) (hnumbered : s.numbered k e (k.own.pobuf ++ written) = none) :
      Sent s c k written false { s with crashed := true }
  | sent {e : Nat} {pobuf : List UInt8} {wbuf : IOBuf} (hevent : k.event = some e)
      (hnumbered : s.numbered k e (k.own.pobuf ++ written) = some pobuf) (hwbuf : encodeData (s.events e).wbuf pobuf = some wbuf) :
      Sent s c k written false (setPobuf (s.modifyEvent e fun ev => { ev with wbuf }) c k pobuf)

theorem send_sent {c : Nat} {k : TAsyncClient} {written : List UInt8} {throws : Bool} {r : Result}
    (hsend : s.send c k written throws = some (r, s')) : Sent s c k written throws s' := by
  unfold send at hsend
  split at hsend
  · next hevent =>
    cases hsend
    exact .unconnected hevent
  · next e hevent =>
    simp only at hsend
    split_ifs at hsend with hthrows
    · cases hsend
      subst hthrows
      exact .threw hevent
    · replace hthrows : throws = false := by simpa using hthrows
      subst hthrows
      split at hsend
      · next hnumbered =>
        cases hsend
        exact .crashed hevent hnumbered
      · next pobuf hnumbered =>
        obtain ⟨wbuf, hwbuf, heq⟩ := Option.map_eq_some_iff.mp hsend
        cases heq
        exact .sent hevent hnumbered hwbuf

theorem step_send {c : Nat} {k : TAsyncClient} {written : List UInt8} {throws : Bool} (hk : s.clients c = some k)
    (hstep : s.step (.send c written throws) = some s') :
    s.crashed = false ∧ (k.own.pobuf ++ written).length < 2 ^ 32 ∧ Sent s c k written throws s' := by
  simp only [step] at hstep
  split_ifs at hstep with hcrashed
  obtain ⟨k', hk', hmap⟩ := Option.bind_eq_some_iff.mp hstep
  obtain rfl := Option.some.inj (hk.symm.trans hk')
  split_ifs at hmap with hlength
  obtain ⟨⟨r, s''⟩, hsend, rfl⟩ := Option.map_eq_some_iff.mp hmap
  exact ⟨by simpa using hcrashed, hlength, send_sent hsend⟩

theorem sent_of_step {c : Nat} {written : List UInt8} {throws : Bool} (hstep : s.step (.send c written throws) = some s') :
    ∃ k, s.clients c = some k ∧ Sent s c k written throws s' := by
  obtain ⟨k, hk⟩ : ∃ k, s.clients c = some k := by
    simp only [step] at hstep
    split_ifs at hstep
    obtain ⟨k, hk, -⟩ := Option.bind_eq_some_iff.mp hstep
    exact ⟨k, hk⟩
  exact ⟨k, hk, (step_send hk hstep).2.2⟩

theorem recv_of_step {c : Nat} {throws : Bool} (hstep : s.step (.recv c throws) = some s') :
    ∃ k, s.clients c = some k ∧ (s.recv c k throws).2 = s' := by
  simp only [step] at hstep
  split_ifs at hstep
  exact Option.map_eq_some_iff.mp hstep

/-- What `recv` does to an event. -/
structure Read (ev ev' : ClientEvent) : Prop where
  data_eq : ev'.rbuf.data = ev.rbuf.data
  wbuf_eq : ev'.wbuf = ev.wbuf
  seqid_eq : ev'.seqid = ev.seqid

theorem recv_eq (s : TAsyncClients) (c : Nat) (k : TAsyncClient) (throws : Bool) :
    (s.recv c k throws).2 = s ∨ ∃ e f pibuf, k.event = some e ∧ Read (s.events e) (f (s.events e)) ∧
      (∀ ev, (f ev).peer = ev.peer) ∧
      (s.recv c k throws).2 = (s.modifyEvent e f).setClient c (some { k with own := { k.own with pibuf } }) := by
  unfold recv
  split
  · exact .inl rfl
  · next e hevent =>
    split_ifs
    · exact .inl rfl
    · refine .inr ⟨e, _, _, hevent, ?_, fun ev => ?_, rfl⟩
      · dsimp only
        split_ifs <;> exact ⟨IOBuf.data_coalesce _, rfl, rfl⟩
      · dsimp only
        split_ifs <;> rfl

/-! ### The output buffer -/

/-- A client that has written nothing has an event to which nothing was written. -/
structure Tidy (s : TAsyncClients) : Prop where
  owned : s.Owned
  fresh : ∀ c k e, s.clients c = some k → k.event = some e → k.own.pobuf = [] →
    (s.events e).wbuf = IOBuf.create chunkSize

theorem Tidy.changeClient (h : s.Tidy) {c : Nat} {k k' : TAsyncClient} (hc : s.clients c = some k)
    (hevent : k'.event = k.event) (hpeer : k'.peer = k.peer) (hpobuf : k'.own.pobuf = [] → k.own.pobuf = []) :
    Tidy (s.setClient c (some k')) := by
  refine ⟨h.owned.changeClient hc hevent hpeer, fun c' k'' e hk'' he hempty => ?_⟩
  rcases Clients.clients_setClient_cases hk'' with ⟨-, hmade⟩ | ⟨-, hold⟩
  · cases hmade
    exact h.fresh c k e hc (hevent ▸ he) (hpobuf hempty)
  · exact h.fresh c' k'' e hold he hempty

theorem Tidy.changeEvent (h : s.Tidy) {c e : Nat} {k k' : TAsyncClient} (hc : s.clients c = some k)
    (he : k.event = some e) (hevent : k'.event = k.event) (hpeer : k'.peer = k.peer) {f : ClientEvent → ClientEvent}
    (hf : ∀ ev, (f ev).peer = ev.peer) (hfresh : k'.own.pobuf = [] → (f (s.events e)).wbuf = IOBuf.create chunkSize) :
    Tidy ((s.modifyEvent e f).setClient c (some k')) := by
  refine ⟨(h.owned.modifyEvent e hf).changeClient hc hevent hpeer, fun c' k'' e' hk'' he' hempty => ?_⟩
  rcases Clients.clients_setClient_cases hk'' with ⟨-, hmade⟩ | ⟨hne, hold⟩
  · cases hmade
    obtain rfl : e' = e := Option.some.inj (he'.symm.trans (hevent.trans he))
    exact (congrArg ClientEvent.wbuf (Clients.events_modifyEvent_self e' f)).trans (hfresh hempty)
  · have hother : e' ≠ e := by
      rintro rfl
      exact hne (h.owned.held_once c' c e' ⟨k'', hold, he'⟩ ⟨k, hc, he⟩)
    exact (congrArg ClientEvent.wbuf (Clients.events_modifyEvent_of_ne f hother)).trans (h.fresh c' k'' e' hold he' hempty)

theorem Tidy.base {l : Clients.Label TBuffers} (h : s.Tidy) (hstep : Clients.step s l = some s') : s'.Tidy := by
  refine ⟨h.owned.step hstep, fun c k e hk he hempty => ?_⟩
  cases Clients.step_moved hstep with
  | new hc =>
    rcases Clients.clients_setClient_cases hk with ⟨-, hmade⟩ | ⟨-, hold⟩
    · cases hmade
      cases he
    · exact h.fresh c k e hold he hempty
  | set hc keepalive callbackMode hkeep =>
    rcases Clients.clients_setClient_cases hk with ⟨-, hmade⟩ | ⟨-, hold⟩
    · cases hmade
      exact h.fresh _ _ e hc he hempty
    · exact h.fresh c k e hold he hempty
  | connect hc hconnected =>
    cases hconnected with
    | failed pools => exact h.fresh c k e hk he hempty
    | held pools nextEvent e₀ ev hev =>
      rcases Clients.clients_setClient_cases hk with ⟨-, hmade⟩ | ⟨-, hold⟩
      · cases hmade
        cases he
        exact (congrArg ClientEvent.wbuf (Function.update_self ..)).trans hev.wbuf_eq
      · have hother : e ≠ e₀ := by
          rintro rfl
          exact hev.not_held h.owned c ⟨k, hold, he⟩
        exact (congrArg ClientEvent.wbuf (Function.update_of_ne hother ..)).trans (h.fresh c k e hold he hempty)
  | setType e₀ type =>
    have hold := h.fresh c k e hk he hempty
    exact Clients.modifyEvent_rule (P := fun ev => ev.wbuf = _) hold hold
  | close hc pools givenBack =>
    rcases Clients.clients_setClient_cases hk with ⟨-, hmade⟩ | ⟨-, hold⟩
    · cases hmade
      cases he
    · exact h.fresh c k e hold he hempty
  | destroy c₀ pools givenBack =>
    rcases Clients.clients_setClient_cases hk with ⟨-, hmade⟩ | ⟨-, hold⟩
    · cases hmade
    · exact h.fresh c k e hold he hempty
  | crash => exact h.fresh c k e hk he hempty

theorem length_numbered {k : TAsyncClient} {e : Nat} {obuf pobuf : List UInt8} (h : s.numbered k e obuf = some pobuf) :
    pobuf.length = obuf.length := by
  unfold numbered at h
  split_ifs at h
  · exact length_setSeqId h
  · cases h
    rfl

theorem Tidy.step {op : Op} (hmessage : ∀ c m, op = .send c m false → Message m) (h : s.Tidy)
    (hstep : s.step op = some s') : s'.Tidy := by
  cases op with
  | base l => exact h.base hstep
  | send c written throws =>
    obtain ⟨k, hk, hsent⟩ := sent_of_step hstep
    cases hsent with
    | unconnected hevent => exact h
    | threw hevent => exact h.changeClient hk rfl rfl fun hnil => (List.append_eq_nil_iff.mp hnil).1
    | crashed hevent hnumbered => exact ⟨h.owned.of_record _ _, h.fresh⟩
    | @sent e pobuf wbuf hevent hnumbered hwbuf =>
      refine h.changeEvent hk hevent ?_ ?_ ?_ fun hnil => absurd (length_numbered hnumbered) ?_
      · rfl
      · rfl
      · exact fun _ => rfl
      have hpos := List.length_pos_iff.mpr (hmessage c written rfl).ne_nil
      simp only at hnil
      rw [hnil, List.length_nil, List.length_append]
      omega
  | recv c throws =>
    obtain ⟨k, hk, rfl⟩ := recv_of_step hstep
    rcases recv_eq s c k throws with hsame | ⟨e, f, pibuf, hevent, hread, hpeer, heq⟩
    · rw [hsame]
      exact h
    · rw [heq]
      refine h.changeEvent hk hevent ?_ ?_ hpeer fun hnil => ?_
      · rfl
      · rfl
      · rw [hread.wbuf_eq]
        exact h.fresh c k e hk hevent hnil

theorem wbuf_sent (s : TAsyncClients) (e c : Nat) (k : TAsyncClient) (wbuf : IOBuf) (pobuf : List UInt8) :
    ((setPobuf (s.modifyEvent e fun ev => { ev with wbuf }) c k pobuf).events e).wbuf = wbuf := by
  rw [events_setPobuf, Clients.events_modifyEvent_self]

theorem length_encodeData {buf c : IOBuf} {p : List UInt8} (hp : p.length < 2 ^ 32) (hc : encodeData buf p = some c) :
    c.data.length = buf.data.length + (4 + p.length) := by
  obtain ⟨c', hc', hdata⟩ := Binary.encodeData_data buf hp
  obtain rfl := Option.some.inj (hc.symm.trans hc')
  rw [hdata, IOBuf.data_eq_head]
  simp only [List.length_append, Binary.length_be32]
  omega

theorem pobuf_eq_nil_of_sent {k : TAsyncClient} {e : Nat} {m m' pobuf : List UInt8} {wbuf : IOBuf}
    (hlength : (k.own.pobuf ++ m).length < 2 ^ 32) (hnumbered : s.numbered k e (k.own.pobuf ++ m) = some pobuf)
    (hwbuf : encodeData (s.events e).wbuf pobuf = some wbuf) (hm' : s.numbered k e m = some m')
    (hdata : wbuf.data = (s.events e).wbuf.data ++ frame m') : k.own.pobuf = [] := by
  have hpobuf := length_numbered hnumbered
  have htotal := length_encodeData (by omega) hwbuf
  rw [hdata, List.length_append, Binary.length_frame, length_numbered hm', hpobuf, List.length_append] at htotal
  exact List.length_eq_zero_iff.mp (by omega)

theorem Tidy.op_exact_iff {op : Op} (hmessage : ∀ c m, op = .send c m false → Message m) (h : s.Tidy) :
    Exact s op ↔ Clear s op := by
  cases op with
  | base l => exact Iff.rfl
  | recv c throws => exact Iff.rfl
  | send c m throws =>
    cases throws with
    | true => exact Iff.rfl
    | false =>
      constructor
      · intro hexact k e s' hk hevent hstep
        obtain ⟨hcrashed, m', hm', hdata⟩ := hexact k e s' hk hevent hstep
        obtain ⟨-, hlength, hsent⟩ := step_send hk hstep
        cases hsent with
        | unconnected hnone => rw [hevent] at hnone; cases hnone
        | crashed => cases hcrashed
        | @sent e' pobuf wbuf hevent' hnumbered hwbuf =>
          obtain rfl := Option.some.inj (hevent.symm.trans hevent')
          rw [wbuf_sent] at hdata
          exact pobuf_eq_nil_of_sent hlength hnumbered hwbuf hm' hdata
      · intro hclear k e s' hk hevent hstep
        have hnil := hclear k e s' hk hevent hstep
        obtain ⟨hcrashed, hlength, hsent⟩ := step_send hk hstep
        obtain ⟨m', hm'⟩ : ∃ m', s.numbered k e m = some m' := by
          unfold numbered
          split_ifs
          · obtain ⟨m', hm', -⟩ := (hmessage c m rfl).setSeqId (s.events e).seqid
            exact ⟨m', hm'⟩
          · exact ⟨m, rfl⟩
        rw [hnil, List.nil_append] at hlength
        cases hsent with
        | unconnected hnone => rw [hevent] at hnone; cases hnone
        | @crashed e' hevent' hnumbered =>
          obtain rfl := Option.some.inj (hevent.symm.trans hevent')
          rw [hnil, List.nil_append, hm'] at hnumbered
          cases hnumbered
        | @sent e' pobuf wbuf hevent' hnumbered hwbuf =>
          obtain rfl := Option.some.inj (hevent.symm.trans hevent')
          rw [hnil, List.nil_append, hm', Option.some.injEq] at hnumbered
          subst hnumbered
          obtain ⟨c', hc', hdata⟩ := Binary.encodeData_spec (show m'.length < 2 ^ 32 by rw [length_numbered hm']; exact hlength)
          rw [h.fresh c k e hk hevent hnil] at hwbuf
          obtain rfl := Option.some.inj (hwbuf.symm.trans hc')
          refine ⟨hcrashed, m', hm', ?_⟩
          rw [wbuf_sent, hdata, h.fresh c k e hk hevent hnil, IOBuf.data_create, List.nil_append]

/-- **Each frame carries its request and nothing else, if and only if nothing was written to the output buffer
of the client before**, by another request or by a function that threw. -/
theorem frames_exact_iff (ops : List Op) (hmessage : ∀ c m, .send c m false ∈ ops → Message m) :
    Lib.StepsMeet step Exact {} ops ↔ Lib.StepsMeet step Clear {} ops := by
  refine Lib.StepsMeet.congr (I := Tidy) (fun s op s' hop hs hstep => ?_) (fun s op hop hs => ?_) ?_
  · exact hs.step (fun c m hsend => hmessage c m (hsend ▸ hop)) hstep
  · exact hs.op_exact_iff fun c m hsend => hmessage c m (hsend ▸ hop)
  · exact ⟨Clients.owned_start, fun c k e hk => by cases hk⟩

/-- A call of the method with the name of one byte. -/
def callOf (name : UInt8) : List UInt8 := be32 1 ++ [name, 1, 0, 0, 0, 0]

theorem message_callOf (name : UInt8) : Message (callOf name) :=
  ⟨be32 1 ++ [name] ++ [1], [0, 0, 0, 0], [], .plain [name] 1 (show 2 < 2 ^ 31 by decide), rfl, rfl⟩

def connectOps : List Op := [.base (.new 0 ⟨"h", 80⟩ ()), .base (.connect 0 0 true true)]

/-- A client that sends after it has connected again, and one with keep-alive. -/
def firstOps : List Op :=
  connectOps ++ [.base (.connect 0 0 true true), .send 0 (callOf 97) false, .base (.new 1 ⟨"h", 80⟩ ()),
    .base (.setKeepAlive 1), .base (.connect 1 0 true true), .send 1 (callOf 98) false]

/-- Each sends its first request. -/
theorem frames_exact_firsts : (Lib.run step {} firstOps).isSome ∧ Lib.StepsMeet step Exact {} firstOps := by
  refine ⟨rfl, (frames_exact_iff _ fun c m hmem => ?_).mpr ?_⟩
  · simp only [firstOps, connectOps, List.cons_append, List.nil_append, List.mem_cons, reduceCtorEq, false_or,
      List.not_mem_nil, or_false, Op.send.injEq] at hmem
    obtain ⟨-, rfl, -⟩ | ⟨-, rfl, -⟩ := hmem
    · exact message_callOf 97
    · exact message_callOf 98
  · refine ⟨trivial, fun s₁ h₁ => ⟨trivial, fun s₂ h₂ => ⟨trivial, fun s₃ h₃ => ⟨?_, fun s₄ h₄ => ⟨trivial, fun s₅ h₅ =>
      ⟨trivial, fun s₆ h₆ => ⟨trivial, fun s₇ h₇ => ⟨?_, fun _ _ => trivial⟩⟩⟩⟩⟩⟩⟩⟩
    · cases h₁
      cases h₂
      cases h₃
      rintro k e s' hk - -
      cases hk
      rfl
    · cases h₁
      cases h₂
      cases h₃
      cases h₄
      cases h₅
      cases h₆
      cases h₇
      rintro k e s' hk - -
      cases hk
      rfl

/-- The second request of a client is sent behind the first one, in one frame. -/
theorem second_frame_repeats_first :
    ¬ Lib.StepsMeet step Exact {} (connectOps ++ [.send 0 (callOf 97) false, .send 0 (callOf 98) false]) := by
  intro h
  obtain ⟨-, m', hm', hdata⟩ := (((h.2 _ rfl).2 _ rfl).2 _ rfl).1 _ _ _ rfl rfl rfl
  cases hm'
  exact absurd hdata (by decide)

end TAsyncClients

end Raster.Thrift
