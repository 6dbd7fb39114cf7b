import Raster.Buffer.IOBuf
import Raster.Event.Event
import Raster.Lib.Machine
import Raster.Net.Protocol
import Mathlib.Data.List.Nodup

/-!
# Clients and their connections

`raster/net/AsyncClient.cpp` and `raster/io/event/EventPool.cpp`. A client has at most one event; a keep-alive
client gives it back to the pool of its port when it is closed, and the next client of the same peer takes
it from there. Events are given by their addresses, which are not used again. What a client of a certain
protocol has besides is `κ`.

Each operation of a client is one step. The framework changes the types of events between the steps.
-/

namespace Raster

open Raster.Protocol (chunkSize)

structure Peer where
  host : String
  port : Int
  deriving DecidableEq

/-- An event of a client, with the peer of its socket and its buffers. -/
structure ClientEvent extends Event where
  peer : Peer
  rbuf : IOBuf := IOBuf.create chunkSize
  wbuf : IOBuf := IOBuf.create chunkSize

namespace ClientEvent

def reset (e : ClientEvent) : ClientEvent :=
  { e with toEvent := e.toEvent.reset 0, rbuf := IOBuf.create chunkSize, wbuf := IOBuf.create chunkSize }

def setType (e : ClientEvent) (type : EventType) : ClientEvent := { e with toEvent := e.toEvent.setType type }

def setExecutor (e : ClientEvent) (executor : Nat) : ClientEvent := { e with toEvent := e.toEvent.setExecutor executor }

end ClientEvent

variable {κ : Type}

structure AsyncClient (κ : Type) where
  peer : Peer
  keepalive : Bool := false
  callbackMode : Bool := false
  event : Option Nat := none
  own : κ

/-- All clients, their events and the pools. -/
structure Clients (κ : Type) where
  clients : Nat → Option (AsyncClient κ) := fun _ => none
  events : Nat → ClientEvent := fun _ => { peer := ⟨"", 0⟩ }
  /-- `EventPoolManager` by ports, and `EventPool` by peers. -/
  pools : Int → Peer → List Nat := fun _ _ => []
  nextEvent : Nat := 0
  /-- The types of the events that were given back. -/
  givenBack : List EventType := []
  /-- A null pointer was dereferenced. -/
  crashed : Bool := false

namespace Clients

def modifyEvent (s : Clients κ) (e : Nat) (f : ClientEvent → ClientEvent) : Clients κ :=
  { s with events := Function.update s.events e (f (s.events e)) }

def setClient (s : Clients κ) (c : Nat) (k : Option (AsyncClient κ)) : Clients κ :=
  { s with clients := Function.update s.clients c k }

def setPool (s : Clients κ) (port : Int) (peer : Peer) (q : List Nat) : Clients κ :=
  { s with pools := Function.update s.pools port (Function.update (s.pools port) peer q) }

/-- `EventPool::get` of the pool of the port. -/
def get (s : Clients κ) (port : Int) (peer : Peer) : Option Nat × Clients κ :=
  match s.pools port peer with
  | [] => (none, s)
  | e :: q => (some e, s.setPool port peer q)

/-- `EventPool::giveBack`. -/
def giveBack (s : Clients κ) (port : Int) (e : Nat) : Clients κ :=
  let q := s.pools port (s.events e).peer
  if q.length > 1000000 then s else s.setPool port (s.events e).peer (q ++ [e])

/-- The event, for `true`. `isConnected` is the state of the socket of an event of the pool, and `opened` says
that a new socket can be connected. -/
def initConnection (s : Clients κ) (c : Nat) (k : AsyncClient κ) (isConnected opened : Bool) : Option Nat × Clients κ :=
  let (event, s) := if k.keepalive then s.get k.peer.port k.peer else (none, s)
  match event, isConnected with
  | some e, true =>
    (some e, (s.modifyEvent e fun ev => ev.reset.setType .towrite).setClient c (some { k with event := some e }))
  | _, _ =>
    if opened then
      let event : ClientEvent := { peer := k.peer, role := .client }
      (some s.nextEvent, { s with
        events := Function.update s.events s.nextEvent (event.reset.setType .connect)
        nextEvent := s.nextEvent + 1 }.setClient c (some { k with event := some s.nextEvent }))
    else (none, s)

/-- In the fiber `f`; the callback that adds the event to a loop is left out. -/
def connect (s : Clients κ) (c : Nat) (k : AsyncClient κ) (f : Nat) (isConnected opened : Bool) : Clients κ :=
  match s.initConnection c k isConnected opened with
  | (none, s) => s
  | (some e, s) => if k.callbackMode then s else s.modifyEvent e fun ev => ev.setExecutor f

def freeConnection (s : Clients κ) (c : Nat) (k : AsyncClient κ) : Clients κ :=
  if k.keepalive then
    match k.event with
    | none => { s with crashed := true }
    | some e =>
      let s := if (s.events e).type ≠ .fail then
          { s.giveBack k.peer.port e with givenBack := s.givenBack ++ [(s.events e).type] }
        else s
      s.setClient c (some { k with event := none })
  else s.setClient c (some { k with event := none })

/-- The destructor. -/
def destroy (s : Clients κ) (c : Nat) (k : AsyncClient κ) : Clients κ :=
  let s := s.freeConnection c k
  if s.crashed then s else s.setClient c none

inductive Label (κ : Type)
  | new (c : Nat) (peer : Peer) (own : κ)
  | setKeepAlive (c : Nat)
  | setCallbackMode (c : Nat)
  | connect (c f : Nat) (isConnected opened : Bool)
  /-- The type of an event is changed by the framework. -/
  | setType (e : Nat) (type : EventType)
  | close (c : Nat)
  | destroy (c : Nat)

/-- The operations on the clients of a protocol, whose constructor makes `own` of the base class. -/
def Label.withOwn (own : AsyncClient Unit → κ) : Label Unit → Label κ
  | .new c peer base => .new c peer (own { peer, own := base })
  | .setKeepAlive c => .setKeepAlive c
  | .setCallbackMode c => .setCallbackMode c
  | .connect c f isConnected opened => .connect c f isConnected opened
  | .setType e type => .setType e type
  | .close c => .close c
  | .destroy c => .destroy c

def step (s : Clients κ) (l : Label κ) : Option (Clients κ) :=
  if s.crashed then none
  else
    match l with
    | .new c peer own => if s.clients c = none then some (s.setClient c (some { peer, own })) else none
    | .setKeepAlive c => (s.clients c).map fun k => s.setClient c (some { k with keepalive := true })
    | .setCallbackMode c => (s.clients c).map fun k => s.setClient c (some { k with callbackMode := true })
    | .connect c f isConnected opened => (s.clients c).map fun k => s.connect c k f isConnected opened
    | .setType e type => if e < s.nextEvent then some (s.modifyEvent e fun ev => ev.setType type) else none
    | .close c => (s.clients c).map fun k => s.freeConnection c k
    | .destroy c => (s.clients c).map fun k => s.destroy c k

/-! ### Each event has one place -/

/-- The client holds the event. -/
def Holds (s : Clients κ) (c e : Nat) : Prop := ∃ k, s.clients c = some k ∧ k.event = some e

/-- Events that are held or in a pool have their place by their peer. -/
structure Owned (s : Clients κ) : Prop where
  held : ∀ c k e, s.clients c = some k → k.event = some e → e < s.nextEvent ∧ (s.events e).peer = k.peer
  held_once : ∀ c c' e, s.Holds c e → s.Holds c' e → c = c'
  pooled : ∀ port peer e, e ∈ s.pools port peer → e < s.nextEvent ∧ (s.events e).peer = peer ∧ peer.port = port
  nodup : ∀ port peer, (s.pools port peer).Nodup
  apart : ∀ c e port peer, s.Holds c e → e ∉ s.pools port peer

variable {s : Clients κ}

@[simp] theorem events_modifyEvent_self (e : Nat) (f : ClientEvent → ClientEvent) :
    (s.modifyEvent e f).events e = f (s.events e) := Function.update_self ..

@[simp] theorem events_modifyEvent_of_ne {e e' : Nat} (f : ClientEvent → ClientEvent) (he : e' ≠ e) :
    (s.modifyEvent e f).events e' = s.events e' := Function.update_of_ne he ..

@[simp] theorem clients_setClient_self (c : Nat) (k : Option (AsyncClient κ)) : (s.setClient c k).clients c = k :=
  Function.update_self ..

@[simp] theorem clients_setClient_of_ne {c c' : Nat} (k : Option (AsyncClient κ)) (hc : c' ≠ c) :
    (s.setClient c k).clients c' = s.clients c' := Function.update_of_ne hc ..

@[simp] theorem events_setClient (c : Nat) (k : Option (AsyncClient κ)) : (s.setClient c k).events = s.events := rfl

theorem clients_setClient_cases {c c' : Nat} {k : Option (AsyncClient κ)} {k' : AsyncClient κ}
    (hk' : (s.setClient c k).clients c' = some k') : c' = c ∧ k = some k' ∨ c' ≠ c ∧ s.clients c' = some k' := by
  by_cases hc : c' = c
  · rw [hc, clients_setClient_self] at hk'
    exact .inl ⟨hc, hk'⟩
  · rw [clients_setClient_of_ne k hc] at hk'
    exact .inr ⟨hc, hk'⟩

theorem modifyEvent_rule {P : ClientEvent → Prop} {e e' : Nat} {f : ClientEvent → ClientEvent} (hold : P (s.events e'))
    (hnew : P (f (s.events e'))) : P ((s.modifyEvent e f).events e') := by
  by_cases he : e' = e
  · subst he
    rw [events_modifyEvent_self]
    exact hnew
  · rw [events_modifyEvent_of_ne f he]
    exact hold

theorem modifyEvent_peer {f : ClientEvent → ClientEvent} (hf : ∀ ev, (f ev).peer = ev.peer) (e e' : Nat) :
    ((s.modifyEvent e f).events e').peer = (s.events e').peer :=
  modifyEvent_rule (P := fun ev => ev.peer = (s.events e').peer) rfl (hf _)

theorem Owned.modifyEvent (h : s.Owned) (e : Nat) {f : ClientEvent → ClientEvent} (hf : ∀ ev, (f ev).peer = ev.peer) :
    (s.modifyEvent e f).Owned where
  held c k e' hc hk := by
    rw [modifyEvent_peer hf]
    exact h.held c k e' hc hk
  held_once := h.held_once
  pooled port peer e' he' := by
    rw [modifyEvent_peer hf]
    exact h.pooled port peer e' he'
  nodup := h.nodup
  apart := h.apart

theorem holds_setClient {c c' e : Nat} {k : Option (AsyncClient κ)} :
    (s.setClient c k).Holds c' e ↔ c' = c ∧ (∃ k', k = some k' ∧ k'.event = some e) ∨ c' ≠ c ∧ s.Holds c' e := by
  by_cases hc : c' = c
  · simp [Holds, hc]
  · simp [Holds, hc]

/-- The event is nowhere but with the client `c`. -/
structure Free (s : Clients κ) (c e : Nat) : Prop where
  lt : e < s.nextEvent
  only : ∀ c', s.Holds c' e → c' = c
  not_pooled : ∀ port peer, e ∉ s.pools port peer

theorem Owned.free (h : s.Owned) {c e : Nat} {k : AsyncClient κ} (hc : s.clients c = some k) (hk : k.event = some e) :
    s.Free c e where
  lt := (h.held c k e hc hk).1
  only c' hc' := h.held_once c' c e hc' ⟨k, hc, hk⟩
  not_pooled port peer := h.apart c e port peer ⟨k, hc, hk⟩

theorem Owned.setClient (h : s.Owned) (c : Nat) (k : Option (AsyncClient κ))
    (hk : ∀ k' e, k = some k' → k'.event = some e → s.Free c e ∧ (s.events e).peer = k'.peer) :
    (s.setClient c k).Owned where
  held c' k' e hc' hk' := by
    rcases clients_setClient_cases hc' with ⟨-, hmade⟩ | ⟨-, hold⟩
    · obtain ⟨hfree, hpeer⟩ := hk k' e hmade hk'
      exact ⟨hfree.lt, hpeer⟩
    · exact h.held c' k' e hold hk'
  held_once c₁ c₂ e h₁ h₂ := by
    rw [holds_setClient] at h₁ h₂
    rcases h₁ with ⟨rfl, k', hk', he⟩ | ⟨hne, hold⟩
    · rcases h₂ with ⟨rfl, -⟩ | ⟨hne', hold'⟩
      · rfl
      · exact absurd ((hk k' e hk' he).1.only c₂ hold') hne'
    · rcases h₂ with ⟨rfl, k', hk', he⟩ | ⟨hne', hold'⟩
      · exact absurd ((hk k' e hk' he).1.only c₁ hold) hne
      · exact h.held_once c₁ c₂ e hold hold'
  pooled := h.pooled
  nodup := h.nodup
  apart c' e port peer hc' := by
    rw [holds_setClient] at hc'
    rcases hc' with ⟨rfl, k', hk', he⟩ | ⟨hne, hold⟩
    · exact (hk k' e hk' he).1.not_pooled port peer
    · exact h.apart c' e port peer hold

theorem Owned.changeClient (h : s.Owned) {c : Nat} {k k' : AsyncClient κ} (hc : s.clients c = some k)
    (hevent : k'.event = k.event) (hpeer : k'.peer = k.peer) : (s.setClient c (some k')).Owned := by
  refine h.setClient c _ fun k'' e hk'' he => ?_
  cases hk''
  rw [hevent] at he
  rw [hpeer]
  exact ⟨h.free hc he, (h.held c k e hc he).2⟩

theorem mem_setPool {port port' : Int} {peer peer' : Peer} {q : List Nat} {e : Nat} :
    e ∈ (s.setPool port peer q).pools port' peer' ↔
      port' = port ∧ peer' = peer ∧ e ∈ q ∨ ¬ (port' = port ∧ peer' = peer) ∧ e ∈ s.pools port' peer' := by
  by_cases hport : port' = port
  · subst hport
    by_cases hpeer : peer' = peer
    · simp [setPool, hpeer]
    · simp [setPool, hpeer]
  · simp [setPool, hport]

theorem nodup_setPool {port : Int} {peer : Peer} {q : List Nat} (h : s.Owned) (hq : q.Nodup) (port' : Int) (peer' : Peer) :
    ((s.setPool port peer q).pools port' peer').Nodup := by
  by_cases hport : port' = port
  · subst hport
    by_cases hpeer : peer' = peer
    · simpa [setPool, hpeer] using hq
    · simpa [setPool, hpeer] using h.nodup port' peer'
  · simpa [setPool, hport] using h.nodup port' peer'

theorem Owned.setPool (h : s.Owned) {port : Int} {peer : Peer} {q : List Nat} (hnodup : q.Nodup)
    (hq : ∀ e ∈ q, e < s.nextEvent ∧ (s.events e).peer = peer ∧ peer.port = port ∧ ∀ c, ¬ s.Holds c e) :
    (s.setPool port peer q).Owned where
  held := h.held
  held_once := h.held_once
  pooled port' peer' e he := by
    rcases mem_setPool.mp he with ⟨rfl, rfl, heq⟩ | ⟨-, hold⟩
    · obtain ⟨hlt, hpeer, hport, -⟩ := hq e heq
      exact ⟨hlt, hpeer, hport⟩
    · exact h.pooled port' peer' e hold
  nodup := nodup_setPool h hnodup
  apart c e port' peer' hc he := by
    rcases mem_setPool.mp he with ⟨rfl, rfl, heq⟩ | ⟨-, hold⟩
    · exact (hq e heq).2.2.2 c hc
    · exact h.apart c e port' peer' hc hold

theorem Owned.giveBack (h : s.Owned) {e : Nat} (hlt : e < s.nextEvent) (hheld : ∀ c, ¬ s.Holds c e)
    (hpooled : ∀ port peer, e ∉ s.pools port peer) : (s.giveBack (s.events e).peer.port e).Owned := by
  simp only [Clients.giveBack]
  split_ifs
  · exact h
  · refine h.setPool ?_ fun e' he' => ?_
    · rw [← List.concat_eq_append]
      exact List.Nodup.concat (hpooled _ _) (h.nodup _ _)
    · rcases List.mem_append.mp he' with hold | hnew
      · obtain ⟨hlt', hpeer, hport⟩ := h.pooled _ _ e' hold
        exact ⟨hlt', hpeer, hport, fun c hc => h.apart c e' _ _ hc hold⟩
      · rw [List.mem_singleton.mp hnew]
        exact ⟨hlt, rfl, rfl, hheld⟩

/-! ### The operations keep the places -/

theorem Owned.newEvent (h : s.Owned) (ev : ClientEvent) :
    Owned { s with events := Function.update s.events s.nextEvent ev, nextEvent := s.nextEvent + 1 } := by
  have hpeer : ∀ e, e < s.nextEvent → (Function.update s.events s.nextEvent ev e).peer = (s.events e).peer := by
    intro e he
    rw [Function.update_of_ne (by omega)]
  refine ⟨fun c k e hc hk => ?_, h.held_once, fun port peer e he => ?_, h.nodup, h.apart⟩
  · obtain ⟨hlt, hp⟩ := h.held c k e hc hk
    exact ⟨Nat.lt_succ_of_lt hlt, (hpeer e hlt).trans hp⟩
  · obtain ⟨hlt, hp, hport⟩ := h.pooled port peer e he
    exact ⟨Nat.lt_succ_of_lt hlt, (hpeer e hlt).trans hp, hport⟩

theorem Owned.get (h : s.Owned) {port : Int} {peer : Peer} {event : Option Nat} {s' : Clients κ}
    (hget : s.get port peer = (event, s')) :
    s'.Owned ∧ ∀ c, ∀ e ∈ event, s'.Free c e ∧ (s'.events e).peer = peer := by
  unfold Clients.get at hget
  split at hget
  · cases hget
    exact ⟨h, by simp⟩
  · next e q hq =>
    cases hget
    have hmem : ∀ e' ∈ e :: q, e' ∈ s.pools port peer := fun e' he' => hq ▸ he'
    have hnodup := hq ▸ h.nodup port peer
    refine ⟨h.setPool (List.nodup_cons.mp hnodup).2 fun e' he' => ?_, fun c e' he' => ?_⟩
    · obtain ⟨hlt, hpeer, hport⟩ := h.pooled port peer e' (hmem e' (List.mem_cons_of_mem _ he'))
      exact ⟨hlt, hpeer, hport, fun c hc => h.apart c e' port peer hc (hmem e' (List.mem_cons_of_mem _ he'))⟩
    · cases he'
      obtain ⟨hlt, hpeer, hport⟩ := h.pooled port peer e (hmem e List.mem_cons_self)
      refine ⟨⟨hlt, fun c' hc' => absurd (hmem e List.mem_cons_self) (h.apart c' e port peer hc'), ?_⟩, hpeer⟩
      intro port' peer' hin
      rcases mem_setPool.mp hin with ⟨-, -, heq⟩ | ⟨hne, hold⟩
      · exact (List.nodup_cons.mp hnodup).1 heq
      · obtain ⟨-, hpeer', hport'⟩ := h.pooled port' peer' e hold
        refine hne ⟨?_, hpeer'.symm.trans hpeer⟩
        rw [← hport', ← hport, ← hpeer', hpeer]

theorem Owned.holdNew (h : s.Owned) (c : Nat) (k : AsyncClient κ) {ev : ClientEvent} (hev : ev.peer = k.peer) :
    Owned ({ s with events := Function.update s.events s.nextEvent ev, nextEvent := s.nextEvent + 1 }.setClient c
      (some { k with event := some s.nextEvent })) := by
  refine (h.newEvent ev).setClient c _ fun k' e hk' he => ?_
  cases hk'
  cases he
  refine ⟨⟨Nat.lt_succ_self _, fun c' hc' => ?_, fun port peer hin => ?_⟩, ?_⟩
  · obtain ⟨k', hk', he⟩ := hc'
    exact absurd (h.held c' k' _ hk' he).1 (Nat.lt_irrefl _)
  · exact absurd (h.pooled port peer _ hin).1 (Nat.lt_irrefl _)
  · rw [← hev]
    exact congrArg ClientEvent.peer (Function.update_self ..)

theorem Owned.initConnection (h : s.Owned) (c : Nat) (k : AsyncClient κ) (isConnected opened : Bool) :
    (s.initConnection c k isConnected opened).2.Owned := by
  obtain ⟨event, s', hget⟩ : ∃ event s', (if k.keepalive then s.get k.peer.port k.peer else (none, s)) = (event, s') :=
    ⟨_, _, rfl⟩
  have hgot : s'.Owned ∧ ∀ c, ∀ e ∈ event, s'.Free c e ∧ (s'.events e).peer = k.peer := by
    split_ifs at hget with hkeep
    · exact h.get hget
    · cases hget
      exact ⟨h, by simp⟩
  obtain ⟨howned, hfree⟩ := hgot
  simp only [Clients.initConnection, hget]
  split
  · next e =>
    obtain ⟨hfree, hpeer⟩ := hfree c e rfl
    have hmodify := howned.modifyEvent e (f := fun ev => ev.reset.setType .towrite) fun _ => rfl
    refine hmodify.setClient c _ fun k' e' hk' he' => ?_
    cases hk'
    cases he'
    refine ⟨⟨hfree.lt, hfree.only, hfree.not_pooled⟩, ?_⟩
    rw [events_modifyEvent_self]
    exact hpeer
  · split_ifs
    · exact howned.holdNew c k rfl
    · exact howned

theorem Owned.connect (h : s.Owned) (c : Nat) (k : AsyncClient κ) (f : Nat) (isConnected opened : Bool) :
    (s.connect c k f isConnected opened).Owned := by
  have hinit := h.initConnection c k isConnected opened
  unfold Clients.connect
  split
  · next s' hs' =>
    rw [hs'] at hinit
    exact hinit
  · next e s' hs' =>
    rw [hs'] at hinit
    split_ifs
    · exact hinit
    · exact hinit.modifyEvent e fun _ => rfl

theorem Owned.of_record (h : s.Owned) (givenBack : List EventType) (crashed : Bool) :
    Owned { s with givenBack, crashed } := ⟨h.held, h.held_once, h.pooled, h.nodup, h.apart⟩

theorem setClient_giveBack (port : Int) (e c : Nat) (k : Option (AsyncClient κ)) (givenBack : List EventType) :
    setClient { s.giveBack port e with givenBack } c k = { (s.setClient c k).giveBack port e with givenBack } := by
  by_cases hfull : (s.pools port (s.events e).peer).length > 1000000
  · rw [show s.giveBack port e = s from if_pos hfull, show (s.setClient c k).giveBack port e = s.setClient c k from if_pos hfull]
    rfl
  · rw [show s.giveBack port e = s.setPool port _ _ from if_neg hfull,
      show (s.setClient c k).giveBack port e = (s.setClient c k).setPool port _ _ from if_neg hfull]
    rfl

theorem Owned.freeConnection (h : s.Owned) {c : Nat} {k : AsyncClient κ} (hc : s.clients c = some k) :
    (s.freeConnection c k).Owned := by
  have hrelease : (s.setClient c (some { k with event := none })).Owned := h.setClient c _ fun k' e hk' he => by
    cases hk'
    cases he
  unfold Clients.freeConnection
  split_ifs
  · split
    · exact h.of_record _ _
    · next e he =>
      have hfree := h.free hc he
      have hheld : ∀ c', ¬ (s.setClient c (some { k with event := none })).Holds c' e := by
        intro c' hc'
        rcases holds_setClient.mp hc' with ⟨-, k', hk', he'⟩ | ⟨hne, hold⟩
        · cases hk'
          cases he'
        · exact hne (hfree.only c' hold)
      have hback := hrelease.giveBack hfree.lt hheld hfree.not_pooled
      rw [show ((s.setClient c (some { k with event := none })).events e).peer = k.peer from (h.held c k e hc he).2] at hback
      split_ifs
      -- the client lets go of the event before the pool gets it
      · rw [setClient_giveBack]
        exact hback.of_record _ _
      · exact hrelease
  · exact hrelease

theorem Owned.step {s' : Clients κ} {l : Label κ} (h : s.Owned) (hstep : s.step l = some s') : s'.Owned := by
  unfold Clients.step at hstep
  split_ifs at hstep
  cases l with
  | new c peer own =>
    simp only at hstep
    split_ifs at hstep
    cases hstep
    refine h.setClient c _ fun k' e hk' he => ?_
    cases hk'
    cases he
  | setKeepAlive c =>
    obtain ⟨k, hk, rfl⟩ := Option.map_eq_some_iff.mp hstep
    exact h.changeClient hk rfl rfl
  | setCallbackMode c =>
    obtain ⟨k, hk, rfl⟩ := Option.map_eq_some_iff.mp hstep
    exact h.changeClient hk rfl rfl
  | connect c f isConnected opened =>
    obtain ⟨k, hk, rfl⟩ := Option.map_eq_some_iff.mp hstep
    exact h.connect c k f isConnected opened
  | setType e type =>
    simp only at hstep
    split_ifs at hstep
    cases hstep
    exact h.modifyEvent e fun _ => rfl
  | close c =>
    obtain ⟨k, hk, rfl⟩ := Option.map_eq_some_iff.mp hstep
    exact h.freeConnection hk
  | destroy c =>
    obtain ⟨k, hk, rfl⟩ := Option.map_eq_some_iff.mp hstep
    have hfree := h.freeConnection hk
    simp only [destroy]
    split_ifs
    · exact hfree
    · exact hfree.setClient c none fun _ _ hk' => by cases hk'

/-! ### What `connect` and `freeConnection` change -/

/-- The event that a client gets: the first of the pool, which was reset, or a new one. -/
structure Fresh (s : Clients κ) (k : AsyncClient κ) (isConnected : Bool) (e : Nat) (ev : ClientEvent) (nextEvent : Nat) :
    Prop where
  rbuf_eq : ev.rbuf = IOBuf.create chunkSize
  wbuf_eq : ev.wbuf = IOBuf.create chunkSize
  seqid_ne : e ≠ s.nextEvent → ev.seqid ≠ (s.events e).seqid
  origin : (isConnected = true ∧ (s.pools k.peer.port k.peer).head? = some e) ∨ e = s.nextEvent
  le : s.nextEvent ≤ nextEvent

theorem Fresh.not_held {k : AsyncClient κ} {isConnected : Bool} {e nextEvent : Nat} {ev : ClientEvent}
    (hev : Fresh s k isConnected e ev nextEvent) (h : s.Owned) (c : Nat) : ¬ s.Holds c e := by
  rintro ⟨k', hk', he⟩
  rcases hev.origin with ⟨-, hpool⟩ | rfl
  · exact h.apart c e _ _ ⟨k', hk', he⟩ (List.mem_of_head? hpool)
  · exact Nat.lt_irrefl _ (h.held c k' _ hk' he).1

/-- What `connect` does: the client gets an event, or nothing but the pool is changed. -/
inductive Connected (s : Clients κ) (c : Nat) (k : AsyncClient κ) (isConnected : Bool) : Clients κ → Prop
  | failed (pools : Int → Peer → List Nat) : Connected s c k isConnected { s with pools }
  | held (pools : Int → Peer → List Nat) (nextEvent e : Nat) (ev : ClientEvent)
      (hev : Fresh s k isConnected e ev nextEvent) :
      Connected s c k isConnected (setClient { s with pools, nextEvent, events := Function.update s.events e ev } c
        (some { k with event := some e }))

theorem get_eq (s : Clients κ) (port : Int) (peer : Peer) :
    ∃ event pools, s.get port peer = (event, { s with pools }) ∧ ∀ e ∈ event, (s.pools port peer).head? = some e := by
  unfold get
  split
  · exact ⟨none, s.pools, rfl, nofun⟩
  · next e q hq =>
    refine ⟨some e, _, rfl, fun e' he' => ?_⟩
    cases he'
    rw [hq, List.head?_cons]

theorem initConnection_eq (s : Clients κ) (c : Nat) (k : AsyncClient κ) (isConnected opened : Bool) :
    ∃ pools, s.initConnection c k isConnected opened = (none, { s with pools }) ∨
      ∃ nextEvent e ev, Fresh s k isConnected e ev nextEvent ∧ s.initConnection c k isConnected opened =
        (some e, setClient { s with pools, nextEvent, events := Function.update s.events e ev } c
          (some { k with event := some e })) := by
  obtain ⟨event, pools, hget, hevent⟩ : ∃ event pools, (if k.keepalive then s.get k.peer.port k.peer else (none, s)) =
      (event, { s with pools }) ∧ ∀ e ∈ event, (s.pools k.peer.port k.peer).head? = some e := by
    split_ifs
    · exact get_eq s k.peer.port k.peer
    · exact ⟨none, s.pools, rfl, nofun⟩
  refine ⟨pools, ?_⟩
  simp only [initConnection, hget]
  split
  · next e =>
    have hadvanced : (if (s.events e).seqid + 1 < 2 ^ 31 then (s.events e).seqid + 1 else 1) ≠ (s.events e).seqid := by
      split_ifs <;> omega
    exact .inr ⟨s.nextEvent, e, _, ⟨rfl, rfl, fun _ => hadvanced, .inl ⟨rfl, hevent e rfl⟩, Nat.le_refl _⟩, rfl⟩
  · split_ifs
    · exact .inr ⟨s.nextEvent + 1, s.nextEvent, _, ⟨rfl, rfl, fun hne => absurd rfl hne, .inr rfl, Nat.le_succ _⟩, rfl⟩
    · exact .inl rfl

theorem connect_connected (s : Clients κ) (c : Nat) (k : AsyncClient κ) (f : Nat) (isConnected opened : Bool) :
    Connected s c k isConnected (s.connect c k f isConnected opened) := by
  obtain ⟨pools, hinit | ⟨nextEvent, e, ev, hev, hinit⟩⟩ := initConnection_eq s c k isConnected opened
  · rw [connect, hinit]
    exact .failed pools
  · rw [connect, hinit]
    simp only
    split_ifs
    · exact .held pools nextEvent e ev hev
    · have hheld := Connected.held (c := c) pools nextEvent e (ev.setExecutor f)
        ⟨hev.rbuf_eq, hev.wbuf_eq, hev.seqid_ne, hev.origin, hev.le⟩
      simpa [modifyEvent, setClient] using hheld

theorem giveBack_eq (s : Clients κ) (port : Int) (e : Nat) : ∃ pools, s.giveBack port e = { s with pools } := by
  simp only [giveBack]
  split_ifs
  · exact ⟨s.pools, rfl⟩
  · exact ⟨_, rfl⟩

theorem freeConnection_eq (s : Clients κ) (c : Nat) (k : AsyncClient κ) :
    s.freeConnection c k = { s with crashed := true } ∨
      ∃ pools givenBack, s.freeConnection c k = setClient { s with pools, givenBack } c (some { k with event := none }) := by
  unfold freeConnection
  split_ifs
  · split
    · exact .inl rfl
    · next e he =>
      split_ifs
      · obtain ⟨pools, hpools⟩ := giveBack_eq s k.peer.port e
        rw [hpools]
        exact .inr ⟨pools, _, rfl⟩
      · exact .inr ⟨s.pools, s.givenBack, rfl⟩
  · exact .inr ⟨s.pools, s.givenBack, rfl⟩

/-- What a step does to the clients and the events. -/
inductive Moved (s : Clients κ) : Label κ → Clients κ → Prop
  | new {c : Nat} {peer : Peer} {own : κ} (hc : s.clients c = none) :
      Moved s (.new c peer own) (s.setClient c (some { peer, own }))
  | set {l : Label κ} {c : Nat} {k : AsyncClient κ} (hc : s.clients c = some k) (keepalive callbackMode : Bool)
      (hkeep : k.keepalive = true → keepalive = true) : Moved s l (s.setClient c (some { k with keepalive, callbackMode }))
  | connect {c f : Nat} {isConnected opened : Bool} {k : AsyncClient κ} {s' : Clients κ} (hc : s.clients c = some k)
      (hconnected : Connected s c k isConnected s') : Moved s (.connect c f isConnected opened) s'
  | setType (e : Nat) (type : EventType) : Moved s (.setType e type) (s.modifyEvent e fun ev => ev.setType type)
  | close {l : Label κ} {c : Nat} {k : AsyncClient κ} (hc : s.clients c = some k) (pools : Int → Peer → List Nat)
      (givenBack : List EventType) : Moved s l (setClient { s with pools, givenBack } c (some { k with event := none }))
  | destroy {l : Label κ} (c : Nat) (pools : Int → Peer → List Nat) (givenBack : List EventType) :
      Moved s l (setClient { s with pools, givenBack } c none)
  | crash {l : Label κ} : Moved s l { s with crashed := true }

theorem step_moved {s' : Clients κ} {l : Label κ} (hstep : s.step l = some s') : Moved s l s' := by
  unfold step at hstep
  split_ifs at hstep with hcrashed
  cases l with
  | new c peer own =>
    simp only at hstep
    split_ifs at hstep with hnone
    cases hstep
    exact .new hnone
  | setKeepAlive c =>
    obtain ⟨k, hk, rfl⟩ := Option.map_eq_some_iff.mp hstep
    exact .set hk true k.callbackMode fun _ => rfl
  | setCallbackMode c =>
    obtain ⟨k, hk, rfl⟩ := Option.map_eq_some_iff.mp hstep
    exact .set hk k.keepalive true id
  | connect c f isConnected opened =>
    obtain ⟨k, hk, rfl⟩ := Option.map_eq_some_iff.mp hstep
    exact .connect hk (connect_connected s c k f isConnected opened)
  | setType e type =>
    simp only at hstep
    split_ifs at hstep
    cases hstep
    exact .setType e type
  | close c =>
    obtain ⟨k, hk, rfl⟩ := Option.map_eq_some_iff.mp hstep
    rcases freeConnection_eq s c k with hfree | ⟨pools, givenBack, hfree⟩
    · rw [hfree]
      exact .crash
    · rw [hfree]
      exact .close hk pools givenBack
  | destroy c =>
    obtain ⟨k, hk, rfl⟩ := Option.map_eq_some_iff.mp hstep
    rcases freeConnection_eq s c k with hfree | ⟨pools, givenBack, hfree⟩
    · rw [destroy, hfree]
      exact .crash
    · rw [destroy, hfree]
      simp only [setClient, if_neg hcrashed, Function.update_idem]
      exact .destroy c pools givenBack

theorem own_step {s' : Clients κ} {l : Label κ} (hstep : s.step l = some s') {c : Nat} {k' : AsyncClient κ}
    (hk' : s'.clients c = some k') : (∃ peer, l = .new c peer k'.own) ∨
      ∃ k, s.clients c = some k ∧ k'.own = k.own ∧ (k.keepalive = true → k'.keepalive = true) := by
  have hsame : s.clients c = some k' →
      ∃ k, s.clients c = some k ∧ k'.own = k.own ∧ (k.keepalive = true → k'.keepalive = true) :=
    fun hold => ⟨k', hold, rfl, id⟩
  cases step_moved hstep with
  | new hc =>
    rcases clients_setClient_cases hk' with ⟨rfl, hmade⟩ | ⟨-, hold⟩
    · cases hmade
      exact .inl ⟨_, rfl⟩
    · exact .inr (hsame hold)
  | set hc keepalive callbackMode hkeep =>
    rcases clients_setClient_cases hk' with ⟨rfl, hmade⟩ | ⟨-, hold⟩
    · cases hmade
      exact .inr ⟨_, hc, rfl, hkeep⟩
    · exact .inr (hsame hold)
  | connect hc hconnected =>
    cases hconnected with
    | failed pools => exact .inr (hsame hk')
    | held pools nextEvent e ev hev =>
      rcases clients_setClient_cases hk' with ⟨rfl, hmade⟩ | ⟨-, hold⟩
      · cases hmade
        exact .inr ⟨_, hc, rfl, id⟩
      · exact .inr (hsame hold)
  | setType e type => exact .inr (hsame hk')
  | close hc pools givenBack =>
    rcases clients_setClient_cases hk' with ⟨rfl, hmade⟩ | ⟨-, hold⟩
    · cases hmade
      exact .inr ⟨_, hc, rfl, id⟩
    · exact .inr (hsame hold)
  | destroy c' pools givenBack =>
    rcases clients_setClient_cases hk' with ⟨rfl, hmade⟩ | ⟨-, hold⟩
    · cases hmade
    · exact .inr (hsame hold)
  | crash => exact .inr (hsame hk')

/-- An event keeps its sequence id and what was read. -/
structure SameRead (ev ev' : ClientEvent) : Prop where
  seqid_eq : ev'.seqid = ev.seqid
  data_eq : ev'.rbuf.data = ev.rbuf.data

theorem events_step {s' : Clients κ} {l : Label κ} (hstep : s.step l = some s') (e : Nat) :
    SameRead (s.events e) (s'.events e) ∨
      ∃ c f isConnected opened k nextEvent, l = .connect c f isConnected opened ∧ s.clients c = some k ∧
        Fresh s k isConnected e (s'.events e) nextEvent := by
  cases step_moved hstep with
  | connect hc hconnected =>
    cases hconnected with
    | failed pools => exact .inl ⟨rfl, rfl⟩
    | held pools nextEvent e₀ ev hev =>
      simp only [setClient]
      by_cases he : e = e₀
      · subst he
        rw [Function.update_self]
        exact .inr ⟨_, _, _, _, _, nextEvent, rfl, hc, hev⟩
      · rw [Function.update_of_ne he]
        exact .inl ⟨rfl, rfl⟩
  | setType e₀ type => exact .inl (modifyEvent_rule (P := SameRead (s.events e)) ⟨rfl, rfl⟩ ⟨rfl, rfl⟩)
  | _ => exact .inl ⟨rfl, rfl⟩

theorem nextEvent_step {s' : Clients κ} {l : Label κ} (hstep : s.step l = some s') : s.nextEvent ≤ s'.nextEvent := by
  cases step_moved hstep with
  | connect hc hconnected =>
    cases hconnected with
    | failed pools => exact Nat.le_refl _
    | held pools nextEvent e ev hev => exact hev.le
  | _ => exact Nat.le_refl _

/-! ### Whole runs -/

/-- A keep-alive client is closed or destroyed only while it has an event. -/
def Ready (s : Clients κ) : Label κ → Prop
  | .close c => ∀ k, s.clients c = some k → k.keepalive = true → k.event ≠ none
  | .destroy c => ∀ k, s.clients c = some k → k.keepalive = true → k.event ≠ none
  | _ => True

/-- What a step does to the records. -/
structure Recorded (s : Clients κ) (l : Label κ) (s' : Clients κ) : Prop where
  crashed_iff : s'.crashed = false ↔ Ready s l
  givenBack : (∀ type ∈ s.givenBack, type ≠ .fail) → ∀ type ∈ s'.givenBack, type ≠ .fail

/-- The records are those of another state. -/
structure SameRecords (s s' : Clients κ) : Prop where
  crashed_eq : s'.crashed = s.crashed
  givenBack_eq : s'.givenBack = s.givenBack

theorem sameRecords_giveBack (port : Int) (e : Nat) : SameRecords s (s.giveBack port e) := by
  simp only [giveBack]
  split_ifs <;> exact ⟨rfl, rfl⟩

theorem sameRecords_connect (c : Nat) (k : AsyncClient κ) (f : Nat) (isConnected opened : Bool) :
    SameRecords s (s.connect c k f isConnected opened) := by
  have hconnected := connect_connected s c k f isConnected opened
  generalize s.connect c k f isConnected opened = s' at hconnected
  cases hconnected with
  | failed pools => exact ⟨rfl, rfl⟩
  | held pools nextEvent e ev hev => exact ⟨rfl, rfl⟩

theorem recorded_freeConnection {l : Label κ} (c : Nat) (k : AsyncClient κ) (hcrashed : s.crashed = false)
    (hl : Ready s l ↔ (k.keepalive = true → k.event ≠ none)) : Recorded s l (s.freeConnection c k) := by
  unfold freeConnection
  split_ifs with hkeep
  · split
    · next hnone => exact ⟨iff_of_false nofun fun hready => hl.mp hready hkeep hnone, id⟩
    · next e he =>
      have hready : Ready s l := hl.mpr fun _ => by simp [he]
      split_ifs with htype
      · refine ⟨iff_of_true ?_ hready, fun hall type hmem => ?_⟩
        · exact (sameRecords_giveBack k.peer.port e).crashed_eq.trans hcrashed
        · rcases List.mem_append.mp hmem with hold | hnew
          · exact hall type hold
          · rw [List.mem_singleton.mp hnew]
            exact htype
      · exact ⟨iff_of_true hcrashed hready, id⟩
  · exact ⟨iff_of_true hcrashed (hl.mpr fun h => absurd h hkeep), id⟩

theorem SameRecords.recorded {s' : Clients κ} {l : Label κ} (h : SameRecords s s') (hcrashed : s.crashed = false)
    (hl : Ready s l) : Recorded s l s' :=
  ⟨iff_of_true (h.crashed_eq.trans hcrashed) hl, fun hall type hmem => hall type (h.givenBack_eq ▸ hmem)⟩

theorem step_recorded {s' : Clients κ} {l : Label κ} (hstep : s.step l = some s') : s.crashed = false ∧ Recorded s l s' := by
  unfold step at hstep
  split_ifs at hstep with hcrashed
  replace hcrashed : s.crashed = false := by simpa using hcrashed
  refine ⟨hcrashed, ?_⟩
  have hready : ∀ {c : Nat} {k : AsyncClient κ}, s.clients c = some k →
      ((∀ k', s.clients c = some k' → k'.keepalive = true → k'.event ≠ none) ↔ (k.keepalive = true → k.event ≠ none)) := by
    intro c k hk
    constructor
    · exact fun hall => hall k hk
    · intro h k' hk'
      obtain rfl := Option.some.inj (hk.symm.trans hk')
      exact h
  cases l with
  | new c peer own =>
    simp only at hstep
    split_ifs at hstep
    cases hstep
    exact SameRecords.recorded ⟨rfl, rfl⟩ hcrashed trivial
  | setKeepAlive c =>
    obtain ⟨k, hk, rfl⟩ := Option.map_eq_some_iff.mp hstep
    exact SameRecords.recorded ⟨rfl, rfl⟩ hcrashed trivial
  | setCallbackMode c =>
    obtain ⟨k, hk, rfl⟩ := Option.map_eq_some_iff.mp hstep
    exact SameRecords.recorded ⟨rfl, rfl⟩ hcrashed trivial
  | connect c f isConnected opened =>
    obtain ⟨k, hk, rfl⟩ := Option.map_eq_some_iff.mp hstep
    exact (sameRecords_connect c k f isConnected opened).recorded hcrashed trivial
  | setType e type =>
    simp only at hstep
    split_ifs at hstep
    cases hstep
    exact SameRecords.recorded ⟨rfl, rfl⟩ hcrashed trivial
  | close c =>
    obtain ⟨k, hk, rfl⟩ := Option.map_eq_some_iff.mp hstep
    exact recorded_freeConnection c k hcrashed (hready hk)
  | destroy c =>
    obtain ⟨k, hk, rfl⟩ := Option.map_eq_some_iff.mp hstep
    have hfree := recorded_freeConnection (l := .destroy c) c k hcrashed (hready hk)
    simp only [destroy]
    split_ifs
    · exact hfree
    · exact ⟨hfree.crashed_iff, hfree.givenBack⟩

theorem owned_start : ({} : Clients κ).Owned where
  held _ _ _ hc := by cases hc
  held_once _ _ _ := by rintro ⟨k, hk, -⟩; cases hk
  pooled _ _ _ he := by cases he
  nodup _ _ := List.nodup_nil
  apart _ _ _ _ := by rintro ⟨k, hk, -⟩; cases hk

/-- Each event is held by one client, or once in one pool. -/
structure Exclusive (s : Clients κ) : Prop where
  one_client : ∀ e c c', s.Holds c e → s.Holds c' e → c = c'
  not_both : ∀ e c port peer, s.Holds c e → e ∉ s.pools port peer
  one_pool : ∀ e port peer port' peer', e ∈ s.pools port peer → e ∈ s.pools port' peer' → port = port' ∧ peer = peer'
  once : ∀ e port peer, (s.pools port peer).count e ≤ 1

theorem Owned.exclusive (h : s.Owned) : s.Exclusive where
  one_client e c c' := h.held_once c c' e
  not_both e c port peer := h.apart c e port peer
  one_pool e port peer port' peer' he he' := by
    obtain ⟨-, hpeer, hport⟩ := h.pooled port peer e he
    obtain ⟨-, hpeer', hport'⟩ := h.pooled port' peer' e he'
    obtain rfl : peer = peer' := hpeer.symm.trans hpeer'
    exact ⟨hport.symm.trans hport', rfl⟩
  once e port peer := List.nodup_iff_count.mp (h.nodup port peer) e

/-- **The life cycle of clients.** In every state of every run, each event has one place and none that
failed was given back; and no null pointer was dereferenced, if and only if keep-alive clients were closed
and destroyed only while they had an event. -/
theorem life_cycle {ls : List (Label κ)} {t : Clients κ} (hrun : Lib.run step {} ls = some t) :
    (t.crashed = false ↔ Lib.StepsMeet step Ready {} ls) ∧ t.Exclusive ∧ ∀ type ∈ t.givenBack, type ≠ .fail := by
  refine ⟨?_, ?_, ?_⟩
  · exact Lib.run_good_iff (fun s l s' hs => (step_recorded hs).1) (fun s l s' hs => (step_recorded hs).2.crashed_iff) rfl hrun
  · exact (Lib.run_invariant (fun s l s' h hs => h.step hs) owned_start hrun).exclusive
  · exact Lib.run_invariant (fun s l s' h hs => (step_recorded hs).2.givenBack h) (by simp) hrun

/-- Two clients, one after the other with the same event. -/
theorem life_cycle_two_clients :
    ∃ t : Clients Unit, Lib.run step {} [.new 0 ⟨"h", 80⟩ (), .setKeepAlive 0, .connect 0 0 true true, .setType 0 .next,
        .close 0, .new 1 ⟨"h", 80⟩ (), .setKeepAlive 1, .connect 1 0 true true] = some t ∧ t.Exclusive ∧ t.Holds 1 0 := by
  obtain ⟨t, ht⟩ : ∃ t : Clients Unit, Lib.run step {} [.new 0 ⟨"h", 80⟩ (), .setKeepAlive 0, .connect 0 0 true true,
      .setType 0 .next, .close 0, .new 1 ⟨"h", 80⟩ (), .setKeepAlive 1, .connect 1 0 true true] = some t := ⟨_, rfl⟩
  refine ⟨t, ht, (life_cycle ht).2.1, ?_⟩
  cases ht
  exact ⟨_, rfl, rfl⟩

/-- A client that was closed is destroyed. -/
theorem destroy_after_close_crashes :
    ∃ t : Clients Unit, Lib.run step {} [.new 0 ⟨"h", 80⟩ (), .setKeepAlive 0, .connect 0 0 true true, .close 0, .destroy 0] =
      some t ∧ ¬ t.crashed = false := by
  refine ⟨_, rfl, ?_⟩
  decide

end Clients

end Raster
