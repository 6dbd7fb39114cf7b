import Raster.Net.AsyncClient
import Raster.Protocol.Encoding

/-!
# `PBAsyncClient`

`raster/protocol/proto/AsyncClient.h` and `PBAsyncRpcChannel` of `RpcChannel.h`. The channel gets the event of
the client when the client is made, and there is none then. A request goes from the stub to
`PBRpcChannel::CallMethod` and from there, as a message, to `send` of the channel.
-/

namespace Raster.Proto

open Raster.Binary (frame)

/-- `PBAsyncRpcChannel`: its own pointer to an event. -/
structure PBAsyncRpcChannel where
  event : Option Nat

abbrev PBAsyncClient := AsyncClient PBAsyncRpcChannel

/-- All clients, with their events and the pools. -/
abbrev PBAsyncClients := Clients PBAsyncRpcChannel

namespace PBAsyncClients

/-- The constructor: `event()` is that of the base class, which was just made. -/
def rpcChannel (base : AsyncClient Unit) : PBAsyncRpcChannel := { event := base.event }

/-- `PBAsyncRpcChannel::send`. -/
def channelSend (s : PBAsyncClients) (channel : PBAsyncRpcChannel) (msg : List UInt8) : Option PBAsyncClients :=
  match channel.event with
  | none => some { s with crashed := true }
  | some e => (encodeData (s.events e).wbuf msg).map fun wbuf => s.modifyEvent e fun ev => { ev with wbuf }

/-- What it returns, and the clients. -/
def send (s : PBAsyncClients) (k : PBAsyncClient) (msg : List UInt8) : Option (Bool × PBAsyncClients) :=
  match k.event with
  | none => some (false, s)
  | some _ => (s.channelSend k.own msg).map fun s => (true, s)

/-- `recv`; what the channel does with the message does not touch events. -/
def recv (s : PBAsyncClients) (k : PBAsyncClient) : Bool × PBAsyncClients :=
  match k.event with
  | none => (false, s)
  | some e =>
    if (s.events e).type = .fail then (false, s)
    else (true, s.modifyEvent e fun ev => { ev with rbuf := (decodeData ev.rbuf).2 })

inductive Op
  | base (l : Clients.Label Unit)
  | send (c : Nat) (msg : List UInt8)
  | recv (c : Nat)

def step (s : PBAsyncClients) : Op → Option PBAsyncClients
  | .base l => Clients.step s (l.withOwn rpcChannel)
  | .send c msg => if s.crashed then none else (s.clients c).bind fun k => (s.send k msg).map Prod.snd
  | .recv c => if s.crashed then none else (s.clients c).map fun k => (s.recv k).2

/-- The request goes to the event of the client and to no other. -/
def Writes (s : PBAsyncClients) (c e : Nat) (msg : List UInt8) : Prop :=
  ∃ s', s.step (.send c msg) = some s' ∧ s'.crashed = false ∧ (s'.events e).wbuf.data = (s.events e).wbuf.data ++ frame msg ∧
    ∀ e', e' ≠ e → s'.events e' = s.events e'

/-! ### The channel has no event -/

/-- The channels have the null pointer of the constructor. -/
def Null (s : PBAsyncClients) : Prop := ∀ c k, s.clients c = some k → k.own.event = none

theorem clients_send {s s' : PBAsyncClients} {k : PBAsyncClient} {msg : List UInt8} {r : Bool}
    (hsend : s.send k msg = some (r, s')) : s'.clients = s.clients := by
  unfold send at hsend
  split at hsend
  · cases hsend
    rfl
  · obtain ⟨s₁, hchannel, heq⟩ := Option.map_eq_some_iff.mp hsend
    cases heq
    unfold channelSend at hchannel
    split at hchannel
    · cases hchannel
      rfl
    · obtain ⟨wbuf, -, rfl⟩ := Option.map_eq_some_iff.mp hchannel
      rfl

theorem clients_recv (s : PBAsyncClients) (k : PBAsyncClient) : (s.recv k).2.clients = s.clients := by
  unfold recv
  split
  · rfl
  · split_ifs <;> rfl

theorem Null.step {s s' : PBAsyncClients} {op : Op} (h : s.Null) (hstep : s.step op = some s') : s'.Null := by
  intro c k' hk'
  cases op with
  | base l =>
    rcases Clients.own_step hstep hk' with ⟨peer, hnew⟩ | ⟨k, hk, hown, -⟩
    · cases l with
      | new c' peer' base =>
        rw [← (Clients.Label.new.inj hnew).2.2]
        rfl
      | _ => cases hnew
    · rw [hown]
      exact h c k hk
  | send c' msg =>
    simp only [PBAsyncClients.step] at hstep
    split_ifs at hstep
    obtain ⟨k, -, hmap⟩ := Option.bind_eq_some_iff.mp hstep
    obtain ⟨⟨r, s''⟩, hsend, rfl⟩ := Option.map_eq_some_iff.mp hmap
    exact h c k' (by rw [← clients_send hsend, hk'])
  | recv c' =>
    simp only [PBAsyncClients.step] at hstep
    split_ifs at hstep
    obtain ⟨k, -, rfl⟩ := Option.map_eq_some_iff.mp hstep
    exact h c k' (by rw [← clients_recv s k, hk'])

theorem run_null {ops : List Op} {t : PBAsyncClients} (hrun : Lib.run step {} ops = some t) : t.Null :=
  Lib.run_invariant (fun _ _ _ h hs => h.step hs) (fun _ _ hk => by cases hk) hrun

/-- **A request is never written to the event of its client.** In every state of every run, `send` of a client
that has an event dereferences the null pointer of its channel. -/
theorem send_never_writes {ops : List Op} {t : PBAsyncClients} (hrun : Lib.run step {} ops = some t)
    (hcrashed : t.crashed = false) {c e : Nat} (hc : t.Holds c e) (msg : List UInt8) :
    t.step (.send c msg) = some { t with crashed := true } ∧ ¬ t.Writes c e msg := by
  obtain ⟨k, hk, he⟩ := hc
  have hstep : t.step (.send c msg) = some { t with crashed := true } := by
    simp only [step, hcrashed, Bool.false_eq_true, if_false, hk, Option.bind_some, send, he, channelSend,
      run_null hrun c k hk, Option.map_some]
  refine ⟨hstep, ?_⟩
  rintro ⟨s', hs', hnot, -⟩
  rw [hstep, Option.some.injEq] at hs'
  rw [← hs'] at hnot
  cases hnot

/-- A client that is connected. -/
def connectedOps : List Op :=
  [.base (.new 0 ⟨"h", 80⟩ ()), .base (.connect 0 0 true true)]

theorem send_never_writes_connected :
    ∃ t, Lib.run step {} connectedOps = some t ∧ t.Holds 0 0 ∧ t.step (.send 0 [1]) = some { t with crashed := true } := by
  obtain ⟨t, ht⟩ : ∃ t, Lib.run step {} connectedOps = some t := ⟨_, rfl⟩
  have hcrashed : t.crashed = false := by cases ht; rfl
  have hc : t.Holds 0 0 := by cases ht; exact ⟨_, rfl, rfl⟩
  exact ⟨t, ht, hc, (send_never_writes ht hcrashed hc [1]).1⟩

/-- The first request of a client that is connected. -/
theorem send_dereferences_null : ∃ t, Lib.run step {} connectedOps = some t ∧ t.Holds 0 0 ∧ ¬ t.Writes 0 0 [1] := by
  obtain ⟨t, ht⟩ : ∃ t, Lib.run step {} connectedOps = some t := ⟨_, rfl⟩
  refine ⟨t, ht, by cases ht; exact ⟨_, rfl, rfl⟩, ?_⟩
  rintro ⟨s', hs', hnot, -⟩
  cases ht
  cases hs'
  cases hnot

end PBAsyncClients

end Raster.Proto
