import Raster.Protocol.Thrift.AsyncClient

/-!
# Keep-alive calls

The keep-alive clients of `raster/protocol/thrift/AsyncClient.h` with the connections of their events. A connection
is used again through the pool: `Event::reset` advances the sequence id and makes new buffers, but what the peer has
still to answer, and what it has answered, stays on the connection.

A peer answers the requests that reached it in any order, each at most once, with the sequence id of the request.
The loop writes the requests in the `wbuf` of an event, and reads one reply into its `rbuf`.

`decodeData` compares the sequence ids at the end of its scope and makes the type of the event `FAIL`, but `recv` has
tested the type before, and it returns `true` with the reply of another request.
-/

namespace Raster.Thrift

open Raster.Binary (be32 frame)
open Raster.Protocol (chunkSize)

/-- The connection of an event. A request is given by the sequence id that is found in it. -/
structure Link where
  /-- Put into the `wbuf` since the event was reset. -/
  requests : List (Option Int) := []
  /-- How many of them were written. -/
  written : Nat := 0
  /-- Written and not answered, also before the event was reset. -/
  outstanding : List (Option Int) := []
  /-- Not yet read. -/
  replies : List (List UInt8) := []

namespace Link

def reset (link : Link) : Link := { link with requests := [], written := 0 }

def write (link : Link) : Link :=
  { link with
    written := link.requests.length
    outstanding := link.outstanding ++ link.requests.drop link.written }

def reply (link : Link) (msg : List UInt8) : Link :=
  { link with
    outstanding := link.outstanding.erase (getSeqId msg)
    replies := link.replies ++ [msg] }

/-- After an operation that made `ev'` of the event and put the requests into its `wbuf`. -/
def after (link : Link) (ev ev' : ClientEvent) (requests : List (Option Int)) : Link :=
  let link := if ev'.seqid = ev.seqid then link else link.reset
  { link with requests := link.requests ++ requests }

end Link

/-- The requests that an operation has put into the `wbuf` of the event. -/
def TAsyncClients.requestsOf (t : TAsyncClients) (e : Nat) : TAsyncClients.Op → List (Option Int)
  | .send c _ false => ((t.clients c).filter fun k => k.event = some e).toList.map fun k => getSeqId k.own.pobuf
  | _ => []

/-- Keep-alive clients, and the connections of their events. -/
structure KeepAlive where
  clients : TAsyncClients := {}
  links : Nat → Link := fun _ => {}

namespace KeepAlive

inductive Label
  /-- A client is made, and `setKeepAlive` is called. -/
  | new (c : Nat) (peer : Peer)
  | client (op : TAsyncClients.Op)
  | write (e : Nat)
  | reply (e : Nat) (msg : List UInt8)
  /-- What is read is in the buffers of `rbuf`. -/
  | read (e : Nat) (rbuf : IOBuf)

def isNew : TAsyncClients.Op → Bool
  | .base (.new ..) => true
  | _ => false

def setLink (s : KeepAlive) (e : Nat) (link : Link) : KeepAlive := { s with links := Function.update s.links e link }

def step (s : KeepAlive) : Label → Option KeepAlive
  | .new c peer =>
    (Lib.run TAsyncClients.step s.clients [.base (.new c peer ()), .base (.setKeepAlive c)]).map fun clients =>
      { s with clients }
  | .client op =>
    if isNew op then none
    else (s.clients.step op).map fun clients =>
      { clients, links := fun e => (s.links e).after (s.clients.events e) (clients.events e) (clients.requestsOf e op) }
  | .write e => some (s.setLink e (s.links e).write)
  | .reply e msg =>
    if getSeqId msg ∈ (s.links e).outstanding ∧ msg.length < 2 ^ 32 then some (s.setLink e ((s.links e).reply msg)) else none
  | .read e rbuf =>
    match (s.links e).replies with
    | [] => none
    | msg :: replies =>
      if (s.clients.events e).rbuf.data = [] ∧ rbuf.data = frame msg then
        some { s.setLink e { s.links e with replies } with clients := s.clients.modifyEvent e fun ev => { ev with rbuf } }
      else none

/-- A reply that is returned has the sequence id of the event, which is that of the requests sent on it. -/
def Matched (s : KeepAlive) : Label → Prop
  | .client (.recv c throws) => ∀ k e, s.clients.clients c = some k → k.event = some e →
    (s.clients.recv c k throws).1 = .returned true →
      ∃ k', (s.clients.recv c k throws).2.clients c = some k' ∧
        getSeqId k'.own.pibuf = some (int32 (s.clients.events e).seqid) ∧
        ∀ id ∈ (s.links e).requests, id = getSeqId k'.own.pibuf
  | _ => True

/-- An event is taken from the pool only if all requests on its connection were answered, and the replies read. -/
def Quiet (s : KeepAlive) : Label → Prop
  | .client (.base (.connect c _ true _)) => ∀ k ∈ s.clients.clients c, ∀ e ∈ (s.clients.pools k.peer.port k.peer).head?,
    (s.links e).outstanding = [] ∧ (s.links e).replies = []
  | _ => True

instance (s : KeepAlive) : ∀ l, Decidable (s.Quiet l)
  | .client (.base (.connect c _ true _)) => inferInstanceAs (Decidable (∀ k ∈ s.clients.clients c, ∀ e ∈ _, _ ∧ _))
  | .client (.base (.connect _ _ false _)) | .client (.base (.new ..)) | .client (.base (.setKeepAlive _))
  | .client (.base (.setCallbackMode _)) | .client (.base (.setType ..)) | .client (.base (.close _))
  | .client (.base (.destroy _)) | .client (.send ..) | .client (.recv ..) | .new .. | .write _ | .reply .. | .read .. =>
    isTrue trivial

/-- What the function of a client writes: a message, or nothing before it throws. -/
def Wrote (written : List UInt8) (throws : Bool) : Prop := Message written ∨ throws = true ∧ written = []

/-! ### The sequence ids on a connection -/

/-- All that is on the connection has the sequence id of the event. -/
structure Settled (link : Link) (ev : ClientEvent) : Prop where
  requests : ∀ id ∈ link.requests, id = some (int32 ev.seqid)
  outstanding : ∀ id ∈ link.outstanding, id = some (int32 ev.seqid)
  replies : ∀ msg ∈ link.replies, getSeqId msg = some (int32 ev.seqid)
  rbuf : ev.rbuf.data = [] ∨ ∃ msg, ev.rbuf.data = frame msg ∧ getSeqId msg = some (int32 ev.seqid)

variable {link : Link} {ev ev' : ClientEvent}

theorem Settled.write (h : Settled link ev) : Settled link.write ev where
  requests := h.requests
  outstanding id hid := by
    rcases List.mem_append.mp hid with hold | hnew
    · exact h.outstanding id hold
    · exact h.requests id (List.mem_of_mem_drop hnew)
  replies := h.replies
  rbuf := h.rbuf

theorem Settled.reply (h : Settled link ev) {msg : List UInt8} (hmsg : getSeqId msg ∈ link.outstanding) :
    Settled (link.reply msg) ev where
  requests := h.requests
  outstanding id hid := h.outstanding id (List.mem_of_mem_erase hid)
  replies m hm := by
    rcases List.mem_append.mp hm with hold | hnew
    · exact h.replies m hold
    · rw [List.mem_singleton.mp hnew]
      exact h.outstanding _ hmsg
  rbuf := h.rbuf

theorem Settled.read (h : Settled link ev) {msg : List UInt8} {replies : List (List UInt8)} {rbuf : IOBuf}
    (hreplies : link.replies = msg :: replies) (hrbuf : rbuf.data = frame msg) :
    Settled { link with replies } { ev with rbuf } where
  requests := h.requests
  outstanding := h.outstanding
  replies m hm := h.replies m (hreplies ▸ List.mem_cons_of_mem _ hm)
  rbuf := .inr ⟨msg, hrbuf, h.replies msg (hreplies ▸ List.mem_cons_self)⟩

theorem Settled.after (h : Settled link ev) (hsame : Clients.SameRead ev ev') {requests : List (Option Int)}
    (hrequests : ∀ id ∈ requests, id = some (int32 ev.seqid)) : Settled (link.after ev ev' requests) ev' := by
  rw [Link.after, if_pos hsame.seqid_eq]
  refine ⟨fun id hid => ?_, ?_, ?_, ?_⟩
  · rw [hsame.seqid_eq]
    exact (List.mem_append.mp hid).elim (h.requests id) (hrequests id)
  · rw [hsame.seqid_eq]
    exact h.outstanding
  · rw [hsame.seqid_eq]
    exact h.replies
  · rw [hsame.seqid_eq, hsame.data_eq]
    exact h.rbuf

theorem settled_reset (hrequests : ev'.seqid = ev.seqid → link.requests = []) (houtstanding : link.outstanding = [])
    (hreplies : link.replies = []) (hrbuf : ev'.rbuf.data = []) : Settled (link.after ev ev' []) ev' := by
  unfold Link.after
  split_ifs with hseqid
  · exact ⟨by simp [hrequests hseqid], by simp [houtstanding], by simp [hreplies], .inl hrbuf⟩
  · exact ⟨by simp [Link.reset], by simp [Link.reset, houtstanding], by simp [Link.reset, hreplies], .inl hrbuf⟩

theorem after_start (ev ev' : ClientEvent) : Link.after {} ev ev' [] = {} := by
  unfold Link.after
  split_ifs <;> rfl

/-! ### The clients -/

/-- All clients are keep-alive, and an output buffer is empty or starts with a message. -/
structure Kept (s : TAsyncClients) : Prop where
  tidy : s.Tidy
  keepalive : ∀ c k, s.clients c = some k → k.keepalive = true
  pobuf : ∀ c k, s.clients c = some k → k.own.pobuf = [] ∨ Message k.own.pobuf

section Clients

variable {s t : TAsyncClients} {op : TAsyncClients.Op}

theorem Wrote.message {written : List UInt8} (h : Wrote written false) : Message written :=
  h.resolve_right fun hthrows => Bool.false_ne_true hthrows.1

theorem Kept.message (h : Kept s) {c : Nat} {k : TAsyncClient} (hk : s.clients c = some k) {m : List UInt8}
    (hm : Message m) : Message (k.own.pobuf ++ m) := by
  rcases h.pobuf c k hk with hnil | hmessage
  · rw [hnil]
    exact hm
  · exact hmessage.append m

theorem Kept.numbered (h : Kept s) {c : Nat} {k : TAsyncClient} (hk : s.clients c = some k) {m : List UInt8}
    (hm : Message m) (e : Nat) : ∃ pobuf, s.numbered k e (k.own.pobuf ++ m) = some pobuf ∧ Message pobuf ∧
      getSeqId pobuf = some (int32 (s.events e).seqid) := by
  obtain ⟨pobuf, hset, hmessage, -, hget⟩ := (h.message hk hm).setSeqId (s.events e).seqid
  refine ⟨pobuf, ?_, hmessage, hget⟩
  rw [TAsyncClients.numbered, if_pos (h.keepalive c k hk)]
  exact hset

theorem Kept.changed (h : Kept s) (ht : t.Tidy) {c : Nat} {k : TAsyncClient}
    (hclients : t.clients = Function.update s.clients c (some k)) (hkeep : k.keepalive = true)
    (hpobuf : k.own.pobuf = [] ∨ Message k.own.pobuf) : Kept t := by
  have hcases : ∀ c' k', t.clients c' = some k' → k' = k ∨ s.clients c' = some k' := by
    intro c' k' hk'
    rw [hclients] at hk'
    rcases Clients.clients_setClient_cases (s := s) hk' with ⟨-, hmade⟩ | ⟨-, hold⟩
    · exact .inl (Option.some.inj hmade).symm
    · exact .inr hold
  refine ⟨ht, fun c' k' hk' => ?_, fun c' k' hk' => ?_⟩
  · rcases hcases c' k' hk' with rfl | hold
    · exact hkeep
    · exact h.keepalive c' k' hold
  · rcases hcases c' k' hk' with rfl | hold
    · exact hpobuf
    · exact h.pobuf c' k' hold

theorem Kept.step (hnew : isNew op = false) (hwrote : ∀ c m throws, op = .send c m throws → Wrote m throws) (h : Kept s)
    (hstep : s.step op = some t) : Kept t := by
  have htidy : t.Tidy := h.tidy.step (fun c m hsend => (hwrote c m false hsend).message) hstep
  cases op with
  | base l =>
    have hclient : ∀ c k', t.clients c = some k' →
        ∃ k, s.clients c = some k ∧ k'.own = k.own ∧ (k.keepalive = true → k'.keepalive = true) := by
      intro c k' hk'
      refine (Clients.own_step hstep hk').resolve_left ?_
      rintro ⟨peer, hl⟩
      cases l with
      | new c peer own => cases hnew
      | _ => cases hl
    refine ⟨htidy, fun c k' hk' => ?_, fun c k' hk' => ?_⟩
    · obtain ⟨k, hk, -, hkeep⟩ := hclient c k' hk'
      exact hkeep (h.keepalive c k hk)
    · obtain ⟨k, hk, hown, -⟩ := hclient c k' hk'
      rw [hown]
      exact h.pobuf c k hk
  | send c m throws =>
    obtain ⟨k, hk, hsent⟩ := TAsyncClients.sent_of_step hstep
    cases hsent with
    | unconnected hevent => exact h
    | threw hevent =>
      refine h.changed htidy rfl (h.keepalive c k hk) ?_
      rcases hwrote c m true rfl with hm | ⟨-, rfl⟩
      · exact .inr (h.message hk hm)
      · rw [List.append_nil]
        exact h.pobuf c k hk
    | crashed hevent hnumbered => exact ⟨htidy, h.keepalive, h.pobuf⟩
    | @sent e pobuf wbuf hevent hnumbered hwbuf =>
      obtain ⟨pobuf', hpobuf', hmessage, -⟩ := h.numbered hk (hwrote c m false rfl).message e
      obtain rfl := Option.some.inj (hnumbered.symm.trans hpobuf')
      exact h.changed htidy rfl (h.keepalive c k hk) (.inr hmessage)
  | recv c throws =>
    obtain ⟨k, hk, rfl⟩ := TAsyncClients.recv_of_step hstep
    rcases TAsyncClients.recv_eq s c k throws with hsame | ⟨e, f, pibuf, hevent, hread, hpeer, heq⟩
    · rw [hsame]
      exact h
    · rw [heq] at htidy ⊢
      exact h.changed htidy rfl (h.keepalive c k hk) (h.pobuf c k hk)

theorem mem_requestsOf {e : Nat} {id : Option Int} (hid : id ∈ t.requestsOf e op) :
    ∃ c m k, op = .send c m false ∧ t.clients c = some k ∧ k.event = some e ∧ id = getSeqId k.own.pobuf := by
  cases op with
  | base l => cases hid
  | recv c throws => cases hid
  | send c m throws =>
    cases throws with
    | true => cases hid
    | false =>
      obtain ⟨k, hk, rfl⟩ := List.mem_map.mp hid
      obtain ⟨hclient, hevent⟩ := Option.filter_eq_some_iff.mp (Option.mem_toList.mp hk)
      exact ⟨c, m, k, rfl, hclient, of_decide_eq_true hevent, rfl⟩

theorem requestsOf_eq_nil (h : t.Owned) {e : Nat} (he : t.nextEvent ≤ e) : t.requestsOf e op = [] := by
  refine List.eq_nil_iff_forall_not_mem.mpr fun id hid => ?_
  obtain ⟨c, m, k, -, hk, hevent, -⟩ := mem_requestsOf hid
  have hlt := (h.held c k e hk hevent).1
  omega

theorem Kept.requests (hwrote : ∀ c m throws, op = .send c m throws → Wrote m throws) (h : Kept s)
    (hstep : s.step op = some t) {e : Nat} {id : Option Int} (hid : id ∈ t.requestsOf e op) :
    id = some (int32 (s.events e).seqid) := by
  obtain ⟨c, m, k', rfl, hk', hevent', rfl⟩ := mem_requestsOf hid
  obtain ⟨k, hk, hsent⟩ := TAsyncClients.sent_of_step hstep
  have hm := (hwrote c m false rfl).message
  cases hsent with
  | unconnected hevent =>
    obtain rfl := Option.some.inj (hk.symm.trans hk')
    rw [hevent] at hevent'
    cases hevent'
  | @crashed e' hevent hnumbered =>
    obtain ⟨pobuf, hpobuf, -⟩ := h.numbered hk hm e'
    rw [hpobuf] at hnumbered
    cases hnumbered
  | @sent e' pobuf wbuf hevent hnumbered hwbuf =>
    obtain ⟨pobuf', hpobuf', -, hget⟩ := h.numbered hk hm e'
    obtain rfl := Option.some.inj (hnumbered.symm.trans hpobuf')
    rcases Clients.clients_setClient_cases hk' with ⟨-, hmade⟩ | ⟨hne, -⟩
    · cases hmade
      obtain rfl := Option.some.inj (hevent.symm.trans hevent')
      exact hget
    · exact absurd rfl hne

theorem events_step (hstep : s.step op = some t) (e : Nat) :
    Clients.SameRead (s.events e) (t.events e) ∨
      ∃ c f isConnected opened k nextEvent, op = .base (.connect c f isConnected opened) ∧ s.clients c = some k ∧
        Clients.Fresh s k isConnected e (t.events e) nextEvent := by
  cases op with
  | base l =>
    rcases Clients.events_step hstep e with hsame | ⟨c, f, isConnected, opened, k, nextEvent, hl, hk, hev⟩
    · exact .inl hsame
    · cases l with
      | connect c' f' isConnected' opened' =>
        cases hl
        exact .inr ⟨c, f, isConnected, opened, k, nextEvent, rfl, hk, hev⟩
      | _ => cases hl
  | send c m throws =>
    obtain ⟨k, hk, hsent⟩ := TAsyncClients.sent_of_step hstep
    cases hsent with
    | unconnected hevent => exact .inl ⟨rfl, rfl⟩
    | threw hevent => exact .inl ⟨rfl, rfl⟩
    | crashed hevent hnumbered => exact .inl ⟨rfl, rfl⟩
    | @sent e' pobuf wbuf hevent hnumbered hwbuf =>
      rw [TAsyncClients.events_setPobuf]
      exact .inl (Clients.modifyEvent_rule (P := Clients.SameRead (s.events e)) ⟨rfl, rfl⟩ ⟨rfl, rfl⟩)
  | recv c throws =>
    obtain ⟨k, hk, rfl⟩ := TAsyncClients.recv_of_step hstep
    rcases TAsyncClients.recv_eq s c k throws with hsame | ⟨e', f, pibuf, hevent, hread, hpeer, heq⟩
    · rw [hsame]
      exact .inl ⟨rfl, rfl⟩
    · rw [heq, Clients.events_setClient]
      by_cases he : e = e'
      · subst he
        rw [Clients.events_modifyEvent_self]
        exact .inl ⟨hread.seqid_eq, hread.data_eq⟩
      · rw [Clients.events_modifyEvent_of_ne _ he]
        exact .inl ⟨rfl, rfl⟩

theorem nextEvent_step (hstep : s.step op = some t) : s.nextEvent ≤ t.nextEvent := by
  cases op with
  | base l => exact Clients.nextEvent_step hstep
  | send c m throws =>
    obtain ⟨k, hk, hsent⟩ := TAsyncClients.sent_of_step hstep
    cases hsent <;> exact Nat.le_refl _
  | recv c throws =>
    obtain ⟨k, hk, rfl⟩ := TAsyncClients.recv_of_step hstep
    rcases TAsyncClients.recv_eq s c k throws with hsame | ⟨e', f, pibuf, hevent, hread, hpeer, heq⟩
    · exact Nat.le_of_eq (congrArg Clients.nextEvent hsame.symm)
    · rw [heq]
      exact Nat.le_refl _

theorem new_eq {c : Nat} {peer : Peer}
    (hrun : Lib.run TAsyncClients.step s [.base (.new c peer ()), .base (.setKeepAlive c)] = some t) :
    t = s.setClient c (some { peer, keepalive := true, own := {} }) := by
  obtain ⟨u, hu, hrest⟩ := Lib.run_cons_eq_some.mp hrun
  obtain ⟨v, hv, hlast⟩ := Lib.run_cons_eq_some.mp hrest
  cases hlast
  simp only [TAsyncClients.step, Clients.Label.withOwn, Clients.step] at hu hv
  split_ifs at hu hv
  cases hu
  obtain ⟨k, hk, rfl⟩ := Option.map_eq_some_iff.mp hv
  rw [Clients.clients_setClient_self] at hk
  cases hk
  simp only [Clients.setClient, Function.update_idem]

theorem Kept.new {c : Nat} {peer : Peer} (h : Kept s)
    (hrun : Lib.run TAsyncClients.step s [.base (.new c peer ()), .base (.setKeepAlive c)] = some t) : Kept t := by
  have htidy : t.Tidy := by
    obtain ⟨u, hu, hrest⟩ := Lib.run_cons_eq_some.mp hrun
    obtain ⟨v, hv, hlast⟩ := Lib.run_cons_eq_some.mp hrest
    cases hlast
    exact (h.tidy.step (fun _ _ hop => by cases hop) hu).step (fun _ _ hop => by cases hop) hv
  obtain rfl := new_eq hrun
  exact h.changed htidy rfl rfl (.inl rfl)

theorem Kept.read (h : Kept s) (e : Nat) (rbuf : IOBuf) : Kept (s.modifyEvent e fun ev => { ev with rbuf }) where
  tidy := by
    refine ⟨h.tidy.owned.modifyEvent e fun _ => rfl, fun c k e' hk hevent hnil => ?_⟩
    have hfresh := h.tidy.fresh c k e' hk hevent hnil
    exact Clients.modifyEvent_rule (P := fun ev => ev.wbuf = _) hfresh hfresh
  keepalive := h.keepalive
  pobuf := h.pobuf

theorem pibuf_recv {c e : Nat} {k : TAsyncClient} {throws : Bool} (hevent : k.event = some e)
    (hreturned : (s.recv c k throws).1 = .returned true) :
    ∃ k', (s.recv c k throws).2.clients c = some k' ∧ 4 ≤ (s.events e).rbuf.data.length ∧
      k'.own.pibuf = (s.events e).rbuf.data.drop 4 := by
  simp only [TAsyncClients.recv, hevent] at hreturned ⊢
  split_ifs at hreturned ⊢ with htype hdecoded
  · cases hreturned
  have henough : 4 ≤ (s.events e).rbuf.coalesce.head.data.length := of_decide_eq_true hdecoded.1
  rw [IOBuf.head_data_coalesce] at henough
  refine ⟨_, Clients.clients_setClient_self .., henough, ?_⟩
  simp only [IOBuf.head_data_coalesce]
  exact if_pos (decide_eq_true henough)

end Clients

/-! ### Whole runs -/

/-- As long as events are only taken from the pool when they are quiet. -/
structure InStep (s : KeepAlive) : Prop where
  kept : Kept s.clients
  fresh : ∀ e, s.clients.nextEvent ≤ e → s.links e = {}
  settled : ∀ e, Settled (s.links e) (s.clients.events e)

variable {s s' : KeepAlive}

theorem InStep.client (h : s.InStep) {op : TAsyncClients.Op} {t : TAsyncClients} (hnew : isNew op = false)
    (hwrote : ∀ c m throws, op = .send c m throws → Wrote m throws) (hquiet : s.Quiet (.client op))
    (hstep : s.clients.step op = some t) :
    InStep ⟨t, fun e => (s.links e).after (s.clients.events e) (t.events e) (t.requestsOf e op)⟩ := by
  have hkept := h.kept.step hnew hwrote hstep
  refine ⟨hkept, fun e he => ?_, fun e => ?_⟩
  · have hlink := h.fresh e (Nat.le_trans (nextEvent_step hstep) he)
    simp only [hlink, requestsOf_eq_nil hkept.tidy.owned he]
    exact after_start _ _
  · rcases events_step hstep e with hsame | ⟨c, f, isConnected, opened, k, nextEvent, rfl, hk, hev⟩
    · exact (h.settled e).after hsame fun id hid => h.kept.requests hwrote hstep hid
    · have hrbuf : (t.events e).rbuf.data = [] := by rw [hev.rbuf_eq, IOBuf.data_create]
      rcases hev.origin with ⟨rfl, hpool⟩ | rfl
      · obtain ⟨houtstanding, hreplies⟩ := hquiet k hk e hpool
        have hlt := (h.kept.tidy.owned.pooled _ _ e (List.mem_of_head? hpool)).1
        exact settled_reset (fun hseqid => absurd hseqid (hev.seqid_ne (by omega))) houtstanding hreplies hrbuf
      · have hlink := h.fresh _ (Nat.le_refl _)
        exact settled_reset (fun _ => by rw [hlink]) (by rw [hlink]) (by rw [hlink]) hrbuf

theorem InStep.setLink (h : s.InStep) (e : Nat) {link : Link} (hfresh : s.links e = {} → link = {})
    (hsettled : Settled link (s.clients.events e)) : (s.setLink e link).InStep where
  kept := h.kept
  fresh := (Function.forall_update_iff s.links fun e' link => s.clients.nextEvent ≤ e' → link = {}).mpr
    ⟨fun he => hfresh (h.fresh e he), fun e' _ => h.fresh e'⟩
  settled := (Function.forall_update_iff s.links fun e' link => Settled link (s.clients.events e')).mpr
    ⟨hsettled, fun e' _ => h.settled e'⟩

theorem InStep.read (h : s.InStep) {e : Nat} {msg : List UInt8} {replies : List (List UInt8)} {rbuf : IOBuf}
    (hreplies : (s.links e).replies = msg :: replies) (hrbuf : rbuf.data = frame msg) :
    InStep { s.setLink e { s.links e with replies } with clients := s.clients.modifyEvent e fun ev => { ev with rbuf } } where
  kept := h.kept.read e rbuf
  fresh := by
    refine (Function.forall_update_iff s.links fun e' link => s.clients.nextEvent ≤ e' → link = {}).mpr
      ⟨fun he => ?_, fun e' _ => h.fresh e'⟩
    rw [h.fresh e he] at hreplies
    cases hreplies
  settled := by
    refine (Function.forall_update_iff s.links fun e' link => Settled link _).mpr ⟨?_, fun e' he => ?_⟩
    · rw [Clients.events_modifyEvent_self]
      exact (h.settled e).read hreplies hrbuf
    · rw [Clients.events_modifyEvent_of_ne _ he]
      exact h.settled e'

theorem InStep.step {l : Label} (hwrote : ∀ c m throws, l = .client (.send c m throws) → Wrote m throws) (h : s.InStep)
    (hquiet : s.Quiet l) (hstep : s.step l = some s') : s'.InStep := by
  cases l with
  | new c peer =>
    obtain ⟨t, hrun, rfl⟩ := Option.map_eq_some_iff.mp hstep
    have hkept := h.kept.new hrun
    obtain rfl := new_eq hrun
    exact ⟨hkept, h.fresh, h.settled⟩
  | client op =>
    simp only [KeepAlive.step] at hstep
    split_ifs at hstep with hnew
    obtain ⟨t, ht, rfl⟩ := Option.map_eq_some_iff.mp hstep
    refine h.client (by simpa using hnew) (fun c m throws hop => ?_) hquiet ht
    exact hwrote c m throws (congrArg Label.client hop)
  | write e =>
    cases hstep
    refine h.setLink e (fun hlink => ?_) (h.settled e).write
    rw [hlink]
    rfl
  | reply e msg =>
    simp only [KeepAlive.step] at hstep
    split_ifs at hstep with hmsg
    cases hstep
    refine h.setLink e (fun hlink => ?_) ((h.settled e).reply hmsg.1)
    rw [hlink] at hmsg
    cases hmsg.1
  | read e rbuf =>
    simp only [KeepAlive.step] at hstep
    split at hstep
    · cases hstep
    · next msg replies hreplies =>
      split_ifs at hstep with hread
      cases hstep
      exact h.read hreplies hread.2

theorem InStep.matched (h : s.InStep) (l : Label) : s.Matched l := by
  unfold Matched
  split
  · next c throws =>
    intro k e hk hevent hreturned
    obtain ⟨k', hk', hlength, hpibuf⟩ := pibuf_recv hevent hreturned
    have hid : getSeqId k'.own.pibuf = some (int32 (s.clients.events e).seqid) := by
      rcases (h.settled e).rbuf with hnil | ⟨msg, hframe, hmsg⟩
      · rw [hnil] at hlength
        cases hlength
      · rw [hpibuf, hframe, frame, List.drop_left' (Binary.length_be32 _)]
        exact hmsg
    exact ⟨k', hk', hid, fun id hmem => ((h.settled e).requests id hmem).trans hid.symm⟩
  · trivial

theorem inStep_start : ({} : KeepAlive).InStep where
  kept := ⟨⟨Clients.owned_start, nofun⟩, nofun, nofun⟩
  fresh _ _ := rfl
  settled _ := ⟨by simp, by simp, by simp, .inl (IOBuf.data_create _)⟩

/-- **A call gets a reply with the sequence id of its request**, in every run in which events are taken from the
pool only after the requests on their connections were answered and the replies were read. -/
theorem replies_matched (ls : List Label) (hwrote : ∀ c m throws, .client (.send c m throws) ∈ ls → Wrote m throws)
    (hquiet : Lib.StepsMeet step Quiet {} ls) : Lib.StepsMeet step Matched {} ls := by
  refine Lib.StepsMeet.imp (I := InStep) (fun s l s' hl hs hq hstep => ?_) (fun s l hl hs hq => hs.matched l) inStep_start hquiet
  exact hs.step (fun c m throws hsend => hwrote c m throws (hsend ▸ hl)) hq hstep

/-- A new client connects and sends a request, which is written. -/
def callLabels (c : Nat) : List Label :=
  [.new c ⟨"h", 80⟩, .client (.base (.connect c 0 true true)), .client (.send c (TAsyncClients.callOf 97) false), .write 0,
    .client (.base (.setType 0 .toread))]

def replyOf (seqid : Nat) : List UInt8 := be32 1 ++ [97, 2] ++ be32 seqid ++ [0]

/-- The peer answers the request with the sequence id, and the client gets the reply. -/
def replyLabels (c seqid : Nat) : List Label :=
  [.reply 0 (replyOf seqid), .read 0 ((IOBuf.create chunkSize).append (frame (replyOf seqid))), .client (.recv c false)]

/-- Two calls on one connection, one after the other. -/
theorem replies_matched_in_turn :
    Lib.StepsMeet step Matched {}
      (callLabels 0 ++ replyLabels 0 1 ++ [.client (.base (.close 0))] ++ callLabels 1 ++ replyLabels 1 2) := by
  refine replies_matched _ (fun c m throws hmem => ?_) (by decide +kernel)
  simp only [callLabels, replyLabels, List.cons_append, List.nil_append, List.mem_cons, reduceCtorEq, false_or,
    List.not_mem_nil, or_false, Label.client.injEq, TAsyncClients.Op.send.injEq] at hmem
  rcases hmem with ⟨-, rfl, -⟩ | ⟨-, rfl, -⟩ <;> exact .inl (TAsyncClients.message_callOf 97)

/-- A client is closed before its request is answered; the next one takes the connection and gets the late reply. -/
theorem late_reply_returned :
    ¬ Lib.StepsMeet step Matched {} (callLabels 0 ++ [.client (.base (.close 0))] ++ callLabels 1 ++ replyLabels 1 1) := by
  intro h
  obtain ⟨t, ht⟩ : ∃ t, Lib.run step {} (callLabels 0 ++ [.client (.base (.close 0))] ++ callLabels 1 ++
      [.reply 0 (replyOf 1), .read 0 ((IOBuf.create chunkSize).append (frame (replyOf 1)))]) = some t := ⟨_, rfl⟩
  have hlast : Lib.StepsMeet step Matched t [.client (.recv 1 false)] := Lib.StepsMeet.at_append h ht
  cases ht
  obtain ⟨k', hk', hid, -⟩ := hlast.1 _ 0 rfl rfl rfl
  cases hk'
  exact absurd hid (by decide +kernel)

end KeepAlive

end Raster.Thrift
