import Raster.Net.View

/-!
# Handing an event over to a loop

`Actor::addEvent` puts an event on the list of a loop, and only later `EventLoop::dispatchEvent` looks
at its type. The event gets through if its type is still the one that its producer has set: `CONNECT`
or `TOWRITE` from a client, `TOWRITE` from a request that was answered. `EventHandler` itself dispatches
an event that it has just set to `NEXT` or `TOREAD`.

Three producers hand over an event that the loop cannot add. `Actor::forwardEvent` sets the type of the
copy to `WRITED`. Since `Executor::callback` leaves its list as it is, a fiber that blocks again hands
over once more the events of its earlier fetches, which are `READED` or `FAIL` by then. And since it walks
the list without a lock, a walk that is under way when the fiber goes on and connects invokes the new
callback as well, which the next `BLOCK` invokes again. Without these three, and if no connection is taken
from the pool that was given back before its fetch was complete or is still being handed over, an event
is named once from its connection to its completion, and no event is dropped.
-/

namespace Raster.Framework

open Raster.Fiber (Callback)
open EventLoop (Dispatchable)

/-! ### The condition -/

/-- The fetch on the event is complete, and nothing is about to hand the event over. -/
def Settled (s : Framework) (e : Nat) : Prop :=
  (s.actor.events e).type = .readed ∧ .addEvent e ∉ s.calling ∧ e ∉ s.pending.map Prod.snd

/-- Blocking hands over no event for the second time. -/
def NothingOld (s : Framework) (f : Nat) : Prop := ∀ e, .addEvent e ∉ (s.fibers f).old

theorem nothingOld_iff (s : Framework) (f : Nat) :
    s.NothingOld f ↔ ∀ c ∈ (s.fibers f).old, ¬ (c matches .addEvent _) := by
  constructor
  · intro h c hc
    cases c with
    | addEvent e => exact absurd hc (h e)
    | schedule d => simp
  · intro h e he
    simpa using h _ he

instance (s : Framework) (f : Nat) : Decidable (s.NothingOld f) := decidable_of_iff _ (s.nothingOld_iff f).symm

instance (s : Framework) (e : Nat) : Decidable (s.Settled e) := inferInstanceAs (Decidable (_ ∧ _ ∧ _))

/-- No copy is forwarded, no event is handed over again, no callback is added to a list that is walked, and no
connection is reused too early. -/
def HandsOverOnce (s : Framework) : Label → Prop
  | .connect f reuse _ => (∀ e ∈ reuse, s.Settled e) ∧ s.Still f
  | .fetchNoWait reuse _ => ∀ e ∈ reuse, s.Settled e
  | .yield f => s.NothingOld f
  | .yieldGroup f _ => s.NothingOld f
  | .runScheduler f _ _ => s.NothingOld f ∧ s.Still f
  | .forward _ _ => False
  | _ => True

instance (s : Framework) (x : Label) : Decidable (s.HandsOverOnce x) := by
  cases x <;> simp only [HandsOverOnce] <;> infer_instance

/-! ### The invariant -/

/-- Where an event is on its way: connected by a fiber that has not blocked, handed over, or neither. -/
inductive Route
  | fresh (f : Nat)
  | handed
  | away
  deriving DecidableEq, Repr

/-- The types of an event that its client or its request has just prepared. -/
def Prepared (type : EventType) : Prop := type ∈ [.connect, .towrite]

instance (type : EventType) : Decidable (Prepared type) := by
  unfold Prepared
  infer_instance

theorem Prepared.waiting {type : EventType} (h : Prepared type) : type ∈ EventLoop.waiting := by
  simp only [Prepared, List.mem_cons, List.not_mem_nil, or_false] at h
  rcases h with rfl | rfl <;> decide

theorem Prepared.dispatchable {type : EventType} (h : Prepared type) : Dispatchable type := by
  simp only [Prepared, List.mem_cons, List.not_mem_nil, or_false] at h
  rcases h with rfl | rfl <;> decide

/-- An event that was handed over is named once, and has its type until the loop has added it. -/
def Route.Fits : Route → View → Prop
  | .fresh _, v => v.tokens = 0 ∧ Prepared v.ev.type
  | .handed, v => v.tokens = 1 ∧ (v.registered = 0 → Prepared v.ev.type) ∧
      (v.registered = 1 → v.ev.type ∈ EventLoop.waiting)
  | .away, v => v.tokens = 0

structure Routed (route : Nat → Route) (s : Framework) : Prop where
  fits : ∀ e, (route e).Fits (s.view e)
  unused : ∀ e, s.nextEvent ≤ e → route e = .away ∧ (s.view e).ev.role = .none ∧ (s.view e).ev.executor = none
  fresh : ∀ f e, .addEvent e ∈ (s.fibers f).fresh → route e = .fresh f
  fresh_once : ∀ f e, (s.fibers f).fresh.count (.addEvent e) ≤ 1
  grows : ∀ f, (s.fibers f).Grows
  serving : ∀ f e, (s.fibers f).task = .request e → (s.fibers f).deleted = false → (s.view e).ev.role ≠ .client →
    route e = .away ∧ (s.view e).ev.executor = some f
  running : ∀ f e, (s.fibers f).task = .request e → s.Running f → (s.view e).ev.role ≠ .client
  alive : ∀ f, s.Running f → (s.fibers f).deleted = false
  idle : ∀ e ∈ s.idle, (s.view e).ev.role = .client
  dropped : s.dropped = []

theorem routed_start : Routed (fun _ => .away) start where
  fits _ := rfl
  unused _ _ := ⟨rfl, rfl, rfl⟩
  fresh _ _ h := by simp [start, Fiber.fresh] at h
  fresh_once _ _ := by simp [start, Fiber.fresh]
  grows _ := Nat.le_refl 0
  serving _ _ h := by simp [start] at h
  running _ _ h := by simp [start] at h
  alive _ h := by simp [start, Running] at h
  idle _ h := by simp [start] at h
  dropped := rfl

variable {route : Nat → Route} {s s' : Framework} {e f l : Nat}

theorem Routed.handed_of_tokens (h : Routed route s) (ht : 0 < (s.view e).tokens) : route e = .handed := by
  have hfits := h.fits e
  cases hr : route e with
  | fresh f =>
    rw [hr] at hfits
    have := hfits.1
    omega
  | handed => rfl
  | away =>
    rw [hr] at hfits
    have : (s.view e).tokens = 0 := hfits
    omega

theorem Routed.away_of_running (h : Routed route s) (htask : (s.fibers f).task = .request e) (hrun : s.Running f) :
    route e = .away ∧ (s.view e).ev.executor = some f :=
  h.serving f e htask (h.alive f hrun) (h.running f e htask hrun)

/-! ### One event changes -/

theorem Routed.change (h : Routed route s) {r : Route} (hfibers : s'.fibers = s.fibers)
    (hnext : s'.nextEvent = s.nextEvent)
    (hidle : s'.idle ⊆ s.idle) (hdropped : s'.dropped = s.dropped) (hview : ∀ x, x ≠ e → s'.view x = s.view x)
    (hrole : (s'.view e).ev.role = (s.view e).ev.role) (hlt : e < s.nextEvent) (hfits : r.Fits (s'.view e))
    (hfresh : ∀ f, .addEvent e ∈ (s.fibers f).fresh → r = .fresh f)
    (hserving : ∀ f, (s.fibers f).task = .request e → (s.fibers f).deleted = false → (s.view e).ev.role ≠ .client →
      r = .away ∧ (s'.view e).ev.executor = some f) :
    Routed (Function.update route e r) s' := by
  have hroles := roles_eq hview hrole
  constructor
  case fits =>
    intro x
    by_cases hx : x = e
    · rw [hx, Function.update_self]
      exact hfits
    · rw [Function.update_of_ne hx, hview x hx]
      exact h.fits x
  case unused =>
    intro x hx
    rw [hnext] at hx
    have hne : x ≠ e := by omega
    rw [Function.update_of_ne hne, hview x hne]
    exact h.unused x hx
  case fresh =>
    intro f x hx
    rw [hfibers] at hx
    by_cases hxe : x = e
    · subst hxe
      rw [Function.update_self]
      exact hfresh f hx
    · rw [Function.update_of_ne hxe]
      exact h.fresh f x hx
  case fresh_once =>
    rw [hfibers]
    exact h.fresh_once
  case grows =>
    rw [hfibers]
    exact h.grows
  case serving =>
    intro f x htask hdel hcl
    rw [hfibers] at htask hdel
    rw [hroles x] at hcl
    by_cases hxe : x = e
    · subst hxe
      rw [Function.update_self]
      exact hserving f htask hdel hcl
    · rw [Function.update_of_ne hxe, hview x hxe]
      exact h.serving f x htask hdel hcl
  case running =>
    intro f x htask hrun
    simp only [Running, hfibers] at htask hrun
    rw [hroles x]
    exact h.running f x htask hrun
  case alive =>
    intro f hrun
    simp only [Running, hfibers] at hrun ⊢
    exact h.alive f hrun
  case idle =>
    intro x hx
    rw [hroles x]
    exact h.idle x (hidle hx)
  case dropped =>
    rw [hdropped]
    exact h.dropped

theorem Routed.move (h : Routed route s) (hroute : route e = .handed) {r : Route} (hfibers : s'.fibers = s.fibers)
    (hnext : s'.nextEvent = s.nextEvent)
    (hidle : s'.idle ⊆ s.idle) (hdropped : s'.dropped = s.dropped) (hview : ∀ x, x ≠ e → s'.view x = s.view x)
    (hrole : (s'.view e).ev.role = (s.view e).ev.role) (hfits : r.Fits (s'.view e)) :
    Routed (Function.update route e r) s' := by
  refine h.change hfibers hnext hidle hdropped hview hrole ?_ hfits ?_ ?_
  · by_contra hge
    have := (h.unused e (by omega)).1
    rw [hroute] at this
    cases this
  · intro f hf
    have := h.fresh f e hf
    rw [hroute] at this
    cases this
  · intro f htask hdel hcl
    have := (h.serving f e htask hdel hcl).1
    rw [hroute] at this
    cases this

theorem Routed.regroup (h : Routed route s) (hfibers : s'.fibers = s.fibers) (hnext : s'.nextEvent = s.nextEvent)
    (hidle : ∀ e ∈ s'.idle, (s.view e).ev.role = .client) (hdropped : s'.dropped = s.dropped)
    (hview : ∀ x, ∃ k, s'.view x = { s.view x with ev := (s.view x).ev.setGroup k }) : Routed route s' := by
  have hkeep : ∀ x, (s'.view x).ev.role = (s.view x).ev.role ∧ (s'.view x).ev.executor = (s.view x).ev.executor := by
    intro x
    obtain ⟨k, hk⟩ := hview x
    rw [hk]
    exact ⟨rfl, rfl⟩
  constructor
  case fits =>
    intro x
    obtain ⟨k, hk⟩ := hview x
    have hfits := h.fits x
    rw [hk]
    cases hr : route x <;> rw [hr] at hfits <;> exact hfits
  case unused =>
    intro x hx
    rw [(hkeep x).1, (hkeep x).2]
    exact h.unused x (hnext ▸ hx)
  case fresh => exact hfibers ▸ h.fresh
  case fresh_once => exact hfibers ▸ h.fresh_once
  case grows => exact hfibers ▸ h.grows
  case serving =>
    intro f x htask hdel hcl
    rw [hfibers] at htask hdel
    rw [(hkeep x).1] at hcl
    rw [(hkeep x).2]
    exact h.serving f x htask hdel hcl
  case running =>
    intro f x htask hrun
    simp only [Running, hfibers] at htask hrun
    rw [(hkeep x).1]
    exact h.running f x htask hrun
  case alive =>
    intro f hrun
    simp only [Running, hfibers] at hrun ⊢
    exact h.alive f hrun
  case idle =>
    intro x hx
    rw [(hkeep x).1]
    exact hidle x hx
  case dropped => exact hdropped.trans h.dropped

theorem Routed.same (h : Routed route s) (hfibers : s'.fibers = s.fibers) (hnext : s'.nextEvent = s.nextEvent)
    (hidle : ∀ e ∈ s'.idle, (s.view e).ev.role = .client) (hdropped : s'.dropped = s.dropped)
    (hview : ∀ x, s'.view x = s.view x) : Routed route s' :=
  h.regroup hfibers hnext hidle hdropped fun x => ⟨(s.view x).ev.group, hview x⟩

/-! ### New events and fibers -/

theorem Routed.unserved (h : Routed route s) (he : s.nextEvent ≤ e) (htask : (s.fibers f).task = .request e) :
    (s.fibers f).deleted = true := by
  obtain ⟨-, hrole, hnone⟩ := h.unused e he
  by_contra hdel
  have hexec := (h.serving f e htask (by simpa using hdel) (by rw [hrole]; decide)).2
  rw [hnone] at hexec
  cases hexec

theorem Routed.newEvent (h : Routed route s) {ev : Event} {r : Route} (hfits : r.Fits ⟨ev, 0, 0, 0⟩) :
    Routed (Function.update route s.nextEvent r) (s.newEvent ev) := by
  obtain ⟨haway, hempty, -⟩ := h.unused s.nextEvent le_rfl
  have htokens : (s.view s.nextEvent).tokens = 0 := by
    have := h.fits s.nextEvent
    rwa [haway] at this
  have hview := view_newEvent_self ev htokens
  have hother : ∀ x, x ≠ s.nextEvent → (s.newEvent ev).view x = s.view x := fun x hx => view_newEvent_of_ne ev hx
  have hserved : ∀ f x, (s.fibers f).task = .request x → (s.fibers f).deleted = false → x ≠ s.nextEvent := by
    rintro f x htask hdel rfl
    rw [h.unserved le_rfl htask] at hdel
    cases hdel
  constructor
  case fits =>
    intro x
    by_cases hx : x = s.nextEvent
    · rw [hx, Function.update_self, hview]
      exact hfits
    · rw [Function.update_of_ne hx, hother x hx]
      exact h.fits x
  case unused =>
    intro x hx
    have hx' : s.nextEvent + 1 ≤ x := hx
    have hne : x ≠ s.nextEvent := by omega
    rw [Function.update_of_ne hne, hother x hne]
    exact h.unused x (by omega)
  case fresh =>
    intro f x hx
    have hroute := h.fresh f x hx
    by_cases hxe : x = s.nextEvent
    · rw [hxe, haway] at hroute
      cases hroute
    · rw [Function.update_of_ne hxe]
      exact hroute
  case fresh_once => exact h.fresh_once
  case grows => exact h.grows
  case serving =>
    intro f x htask hdel hcl
    have hne := hserved f x htask hdel
    rw [hother x hne] at hcl ⊢
    rw [Function.update_of_ne hne]
    exact h.serving f x htask hdel hcl
  case running =>
    intro f x htask hrun
    rw [hother x (hserved f x htask (h.alive f hrun))]
    exact h.running f x htask hrun
  case alive => exact h.alive
  case idle =>
    intro x hx
    have hrole := h.idle x hx
    by_cases hxe : x = s.nextEvent
    · rw [hxe, hempty] at hrole
      cases hrole
    · rw [hother x hxe]
      exact hrole
  case dropped => exact h.dropped

theorem Routed.setFiber (h : Routed route s) {x : TaskFiber}
    (hfresh : ∀ e, .addEvent e ∈ x.fresh → route e = .fresh f) (honce : ∀ e, x.fresh.count (.addEvent e) ≤ 1)
    (hgrows : x.Grows)
    (hserving : ∀ e, x.task = .request e → x.deleted = false → (s.view e).ev.role ≠ .client →
      route e = .away ∧ (s.view e).ev.executor = some f)
    (hrunning : ∀ e, x.task = .request e → x.status = .running → (s.view e).ev.role ≠ .client)
    (halive : x.status = .running → x.deleted = false) :
    Routed route { s with fibers := Function.update s.fibers f x } := by
  have hself : Function.update s.fibers f x f = x := Function.update_self ..
  have hother : ∀ g, g ≠ f → Function.update s.fibers f x g = s.fibers g := fun g hg => Function.update_of_ne hg ..
  constructor
  case fits => exact h.fits
  case unused => exact h.unused
  case fresh =>
    intro g e he
    by_cases hg : g = f
    · subst hg
      simp only [hself] at he
      exact hfresh e he
    · simp only [hother g hg] at he
      exact h.fresh g e he
  case fresh_once =>
    intro g e
    by_cases hg : g = f
    · subst hg
      simpa only [hself] using honce e
    · simpa only [hother g hg] using h.fresh_once g e
  case grows =>
    intro g
    by_cases hg : g = f
    · subst hg
      simpa only [hself] using hgrows
    · simpa only [hother g hg] using h.grows g
  case serving =>
    intro g e htask hdel hcl
    by_cases hg : g = f
    · subst hg
      simp only [hself] at htask hdel
      exact hserving e htask hdel hcl
    · simp only [hother g hg] at htask hdel
      exact h.serving g e htask hdel hcl
  case running =>
    intro g e htask hrun
    simp only [Running] at hrun
    by_cases hg : g = f
    · subst hg
      simp only [hself] at htask hrun
      exact hrunning e htask hrun
    · simp only [hother g hg] at htask hrun
      exact h.running g e htask hrun
  case alive =>
    intro g hrun
    simp only [Running] at hrun ⊢
    by_cases hg : g = f
    · subst hg
      simp only [hself] at hrun ⊢
      exact halive hrun
    · simp only [hother g hg] at hrun ⊢
      exact h.alive g hrun
  case idle => exact h.idle
  case dropped => exact h.dropped

theorem Routed.newFiber (h : Routed route s) {x : TaskFiber} (htask : ∀ e, x.task ≠ .request e)
    (hstatus : x.status = .init) (hgrows : x.Grows) (honce : ∀ e, x.fresh.count (.addEvent e) ≤ 1)
    (hfresh : ∀ e, .addEvent e ∈ x.fresh → route e = .fresh s.actor.nextFiber) : Routed route (s.newFiber x) := by
  have hsame : Routed route
      { s with actor := { s.actor with nextFiber := s.actor.nextFiber + 1 }.addFiber s.actor.nextFiber 0 } :=
    h.same rfl rfl h.idle rfl fun _ => rfl
  refine hsame.setFiber hfresh honce hgrows ?_ ?_ ?_
  · intro e he
    exact absurd he (htask e)
  · intro e he
    exact absurd he (htask e)
  · intro hrun
    rw [hstatus] at hrun
    cases hrun

/-! ### The clients -/

theorem Routed.away_of_settled (h : Routed route s) (he : s.Settled e) : route e = .away := by
  obtain ⟨htype, hcalling, hpending⟩ := he
  have hfits := h.fits e
  cases hr : route e with
  | fresh f =>
    rw [hr] at hfits
    have hprep : Prepared (s.actor.events e).type := hfits.2
    rw [htype] at hprep
    exact absurd hprep (by decide)
  | handed =>
    rw [hr] at hfits
    obtain ⟨htokens, -, hwait⟩ := hfits
    have hzero : (s.view e).calling = 0 ∧ (s.view e).pending = 0 :=
      ⟨List.count_eq_zero.mpr hcalling, List.count_eq_zero.mpr hpending⟩
    have htype' : (s.actor.events e).type ∈ EventLoop.waiting := hwait (by unfold View.tokens at htokens; omega)
    rw [htype] at htype'
    exact absurd htype' (by decide)
  | away => rfl

theorem Routed.initConnection (h : Routed route s) {reuse : Option Nat} {channel : Nat}
    (hsettled : ∀ e ∈ reuse, s.Settled e) (hs : s.initConnection reuse channel = some (e, s')) (f : Nat) :
    Routed (Function.update route e (.fresh f)) s' ∧ s'.fibers = s.fibers ∧
      s'.actor.nextFiber = s.actor.nextFiber ∧ e < s'.nextEvent ∧ (s'.view e).ev.role = .client ∧
      ∀ g, .addEvent e ∉ (s.fibers g).fresh := by
  cases reuse with
  | some e' =>
    simp only [Framework.initConnection] at hs
    split_ifs at hs with hidle
    simp only [Option.some.injEq, Prod.mk.injEq] at hs
    obtain ⟨rfl, rfl⟩ := hs
    have haway := h.away_of_settled (hsettled e' rfl)
    have hrole := h.idle e' hidle
    have hlt : e' < s.nextEvent := by
      by_contra hge
      rw [(h.unused e' (by omega)).2.1] at hrole
      cases hrole
    have hfree : ∀ g, .addEvent e' ∉ (s.fibers g).fresh := by
      intro g hg
      have := h.fresh g e' hg
      rw [haway] at this
      cases this
    have htokens : (s.view e').tokens = 0 := by
      have := h.fits e'
      rwa [haway] at this
    have hview := view_modifyEvent (s := s) (e := e') fun ev => (ev.reset 0).setType .towrite
    refine ⟨h.change rfl rfl (List.erase_subset) rfl ?_ ?_ hlt ?_ ?_ ?_, rfl, rfl, hlt, ?_, hfree⟩
    · intro x hx
      exact (hview x).trans (if_neg hx)
    · exact congrArg (fun v => v.ev.role) ((hview e').trans (if_pos rfl))
    · have := (hview e').trans (if_pos rfl)
      exact this ▸ ⟨htokens, show EventType.towrite ∈ _ by decide⟩
    · intro g hg
      exact absurd hg (hfree g)
    · intro g _ _ hcl
      exact absurd hrole hcl
    · rw [← hrole]
      exact congrArg (fun v => v.ev.role) ((hview e').trans (if_pos rfl))
  | none =>
    simp only [Framework.initConnection, Option.some.injEq, Prod.mk.injEq] at hs
    obtain ⟨rfl, rfl⟩ := hs
    refine ⟨h.newEvent ⟨rfl, show EventType.connect ∈ _ by decide⟩, rfl, rfl, Nat.lt_succ_self _, ?_, ?_⟩
    · rw [view_newEvent, if_pos rfl]
    · intro g hg
      have := h.fresh g _ hg
      rw [(h.unused _ le_rfl).1] at this
      cases this

theorem still_of_initConnection {reuse : Option Nat} {channel : Nat} (hs : s.initConnection reuse channel = some (e, s')) :
    s'.Still f ↔ s.Still f := by
  cases reuse with
  | some e' =>
    simp only [Framework.initConnection] at hs
    split_ifs at hs
    cases hs
    rfl
  | none =>
    cases hs
    rfl

theorem Routed.connect (h : Routed route s) {reuse : Option Nat} {channel : Nat} (hsettled : ∀ e ∈ reuse, s.Settled e)
    (hstill : s.Still f) (hs : s.connect f reuse channel = some s') : ∃ route', Routed route' s' := by
  simp only [Framework.connect] at hs
  split_ifs at hs with hrun
  cases hinit : s.initConnection reuse channel with
  | none => simp [hinit] at hs
  | some p =>
    obtain ⟨e, s₁⟩ := p
    have hstill₁ : (s₁.modifyEvent e fun ev => ev.setExecutor f).Still f := (still_of_initConnection hinit).mpr hstill
    simp only [hinit, Option.some.injEq, addCallback_of_still hstill₁] at hs
    subst hs
    obtain ⟨h₁, hfibers, -, hlt, hrole, hfree⟩ := h.initConnection hsettled hinit f
    have hview := view_modifyEvent (s := s₁) (e := e) fun ev => ev.setExecutor f
    have h₂ : Routed (Function.update route e (.fresh f)) (s₁.modifyEvent e fun ev => ev.setExecutor f) := by
      have hroute : Function.update route e (.fresh f) e = .fresh f := Function.update_self ..
      have hfits := h₁.fits e
      rw [hroute] at hfits
      rw [← Function.update_idem (a := e) (v := Route.fresh f)]
      refine h₁.change rfl rfl (List.Subset.refl _) rfl (fun x hx => (hview x).trans (if_neg hx)) ?_ hlt ?_ ?_ ?_
      · exact congrArg (fun v => v.ev.role) ((hview e).trans (if_pos rfl))
      · exact ((hview e).trans (if_pos rfl)) ▸ hfits
      · intro g hg
        rw [hfibers] at hg
        exact absurd hg (hfree g)
      · intro g _ _ hcl
        exact absurd hrole hcl
    have hfib : (s₁.modifyEvent e fun ev => ev.setExecutor f).fibers f = s.fibers f := congrFun hfibers f
    have hgrows : (s.fibers f).Grows := h.grows f
    have hadded := Fiber.fresh_addCallback (s.fibers f).toFiber hgrows (.addEvent e)
    refine ⟨_, h₂.setFiber ?_ ?_ ?_ ?_ ?_ ?_⟩
    · intro x hx
      rw [hfib, hadded, List.mem_append, List.mem_singleton] at hx
      rcases hx with hx | hx
      · exact h₁.fresh f x (hfibers ▸ hx)
      · cases hx
        exact Function.update_self ..
    · intro x
      rw [hfib, hadded, List.count_append, List.count_singleton]
      by_cases hx : x = e
      · rw [hx, List.count_eq_zero.mpr (hfree f)]
        simp
      · have := h.fresh_once f x
        simpa [Ne.symm hx] using this
    · rw [hfib]
      exact Fiber.Grows.addCallback hgrows _
    · intro x htask hdel hcl
      rw [hfib] at htask hdel
      exact h₂.serving f x (hfib ▸ htask) (hfib ▸ hdel) hcl
    · intro x htask hst
      rw [hfib] at htask
      exact h₂.running f x (hfib ▸ htask) (by rw [Running, hfib]; exact hrun)
    · intro _
      rw [hfib]
      exact h.alive f hrun

theorem Routed.fetchNoWait (h : Routed route s) {reuse : Option Nat} {channel : Nat}
    (hsettled : ∀ e ∈ reuse, s.Settled e) (hs : s.fetchNoWait reuse channel = some s') : ∃ route', Routed route' s' := by
  simp only [Framework.fetchNoWait] at hs
  cases hinit : s.initConnection reuse channel with
  | none => simp [hinit] at hs
  | some p =>
    obtain ⟨e, s₁⟩ := p
    simp only [hinit, Option.some.injEq] at hs
    subst hs
    obtain ⟨h₁, -, hnext, -⟩ := h.initConnection hsettled hinit s.actor.nextFiber
    refine ⟨_, h₁.newFiber (by simp) rfl (by simp [Fiber.Grows, Fiber.fired]) ?_ ?_⟩
    · intro x
      simp only [Fiber.fresh, Fiber.fired, Executor.addCallback, List.getLastD_nil, List.length_nil, List.drop_zero,
        List.nil_append, List.count_singleton]
      split_ifs <;> omega
    · intro x hx
      simp only [Fiber.fresh, Fiber.fired, Executor.addCallback, List.getLastD_nil, List.length_nil, List.drop_zero,
        List.nil_append, List.mem_singleton, Callback.addEvent.injEq] at hx
      rw [hx, hnext, Function.update_self]

/-! ### Fibers -/

theorem Routed.run (h : Routed route s) {poolId : Nat} (hs : s.run f poolId = some s') : Routed route s' := by
  simp only [Framework.run] at hs
  split_ifs at hs with hguard
  obtain ⟨-, hstatus, hdel, hrunnable⟩ := hguard
  rw [Option.some.injEq] at hs
  subst hs
  have hsame : Routed route { s with actor := { s.actor with pool := s.actor.pool.erase (f, poolId) } } :=
    h.same rfl rfl h.idle rfl fun _ => rfl
  refine hsame.setFiber (h.fresh f) (h.fresh_once f) (h.grows f) ?_ ?_ ?_
  · intro e htask hdel' hcl
    exact h.serving f e htask hdel' hcl
  · intro e htask _
    have : s.Runnable (.request e) := htask ▸ hrunnable
    exact this
  · intro _
    exact hdel

theorem Routed.block (h : Routed route s) (hold : s.NothingOld f) :
    ∃ route', Routed route' (s.block f) := by
  have hcount : ∀ x, (s.fibers f).executor.callbacks.count (.addEvent x) =
      if .addEvent x ∈ (s.fibers f).fresh then 1 else 0 := by
    intro x
    rw [← Fiber.old_append_fresh, List.count_append, List.count_eq_zero.mpr (hold x), Nat.zero_add]
    split_ifs with hmem
    · have := h.fresh_once f x
      have := List.count_pos_iff.mpr hmem
      omega
    · exact List.count_eq_zero.mpr hmem
  have hview : ∀ x, (s.block f).view x = if .addEvent x ∈ (s.fibers f).fresh then
      { s.view x with calling := (s.view x).calling + 1 } else s.view x := by
    intro x
    rw [view_block, hcount]
    split_ifs <;> rfl
  have hev : ∀ x, ((s.block f).view x).ev = (s.view x).ev := fun x => rfl
  refine ⟨fun x => if .addEvent x ∈ (s.fibers f).fresh then .handed else route x, ?_⟩
  constructor
  case fits =>
    intro x
    have hfits := h.fits x
    rw [hview]
    split_ifs with hmem
    · rw [h.fresh f x hmem] at hfits
      obtain ⟨htokens, hprep⟩ := hfits
      unfold View.tokens at htokens
      refine ⟨?_, fun _ => hprep, fun hone => ?_⟩
      · show (s.view x).calling + 1 + (s.view x).pending + (s.view x).registered = 1
        omega
      · have hone : (s.view x).registered = 1 := hone
        omega
    · exact hfits
  case unused =>
    intro x hx
    obtain ⟨haway, hempty⟩ := h.unused x hx
    refine ⟨?_, hempty⟩
    rw [if_neg]
    · exact haway
    · intro hmem
      rw [h.fresh f x hmem] at haway
      cases haway
  case fresh =>
    intro g x hx
    by_cases hg : g = f
    · subst hg
      rw [block_self] at hx
      rw [Fiber.fresh_block] at hx
      cases hx
    · rw [block_other hg] at hx
      have hroute := h.fresh g x hx
      rw [if_neg]
      · exact hroute
      · intro hmem
        rw [h.fresh f x hmem, Route.fresh.injEq] at hroute
        exact hg hroute.symm
  case fresh_once =>
    intro g x
    by_cases hg : g = f
    · subst hg
      rw [block_self, Fiber.fresh_block]
      simp
    · rw [block_other hg]
      exact h.fresh_once g x
  case grows =>
    intro g
    by_cases hg : g = f
    · subst hg
      rw [block_self]
      exact Fiber.grows_block _
    · rw [block_other hg]
      exact h.grows g
  case serving =>
    intro g x htask hdel hcl
    have htask' : (s.fibers g).task = .request x ∧ (s.fibers g).deleted = false := by
      by_cases hg : g = f
      · subst hg
        rw [block_self] at htask hdel
        exact ⟨htask, hdel⟩
      · rw [block_other hg] at htask hdel
        exact ⟨htask, hdel⟩
    obtain ⟨haway, hexec⟩ := h.serving g x htask'.1 htask'.2 hcl
    refine ⟨?_, hexec⟩
    rw [if_neg]
    · exact haway
    · intro hmem
      rw [h.fresh f x hmem] at haway
      cases haway
  case running =>
    intro g x htask hrun'
    simp only [Running] at hrun'
    by_cases hg : g = f
    · subst hg
      rw [block_self] at hrun'
      cases hrun'
    · rw [block_other hg] at htask hrun'
      exact h.running g x htask hrun'
  case alive =>
    intro g hrun'
    simp only [Running] at hrun'
    by_cases hg : g = f
    · subst hg
      rw [block_self] at hrun'
      cases hrun'
    · rw [block_other hg] at hrun' ⊢
      exact h.alive g hrun'
  case idle => exact h.idle
  case dropped => exact h.dropped

theorem Routed.waitGroup (h : Routed route s) {events : List Nat} {actor : Actor} {made : Bool}
    (hs : s.actor.waitGroup events = some (made, actor)) : Routed route { s with actor } := by
  unfold Actor.waitGroup at hs
  split_ifs at hs
  · simp only [Option.some.injEq, Prod.mk.injEq] at hs
    obtain ⟨-, rfl⟩ := hs
    exact h
  · split at hs
    · cases hs
    · rename_i i group _
      simp only [Option.some.injEq, Prod.mk.injEq] at hs
      obtain ⟨-, rfl⟩ := hs
      have hev : ∀ x, ∃ k, Actor.setGroups s.actor.events i events x = (s.actor.events x).setGroup k := by
        intro x
        rw [Actor.setGroups_apply]
        split_ifs
        · exact ⟨i, rfl⟩
        · exact ⟨(s.actor.events x).group, rfl⟩
      refine h.regroup rfl rfl h.idle rfl fun x => ?_
      obtain ⟨k, hk⟩ := hev x
      exact ⟨k, by simp only [view, calling, hk]⟩

theorem Routed.yieldGroup (h : Routed route s) {events : List Nat} (hold : s.NothingOld f)
    (hs : s.yieldGroup f events = some s') : ∃ route', Routed route' s' := by
  simp only [Framework.yieldGroup] at hs
  split_ifs at hs
  split at hs
  · cases hs
  · rw [Option.some.injEq] at hs
    exact ⟨route, hs ▸ h⟩
  · rename_i actor hwait
    rw [Option.some.injEq] at hs
    have h₁ := h.waitGroup hwait
    exact hs ▸ h₁.block (show NothingOld { s with actor } f from hold)

theorem Routed.addJobs (h : Routed route s) {fibers : Nat → TaskFiber} {d : Nat}
    (hfibers : ∀ g, fibers g = s.fibers g ∨ fibers g = { task := .job d }) : Routed route { s with fibers } := by
  constructor
  case fits => exact h.fits
  case unused => exact h.unused
  case fresh =>
    intro g e he
    rcases hfibers g with heq | heq <;> simp only [heq] at he
    · exact h.fresh g e he
    · simp [Fiber.fresh] at he
  case fresh_once =>
    intro g e
    rcases hfibers g with heq | heq <;> simp only [heq]
    · exact h.fresh_once g e
    · simp [Fiber.fresh]
  case grows =>
    intro g
    rcases hfibers g with heq | heq <;> simp only [heq]
    · exact h.grows g
    · exact Nat.zero_le _
  case serving =>
    intro g e htask
    rcases hfibers g with heq | heq <;> simp only [heq] at htask ⊢
    · exact h.serving g e htask
    · cases htask
  case running =>
    intro g e htask
    rcases hfibers g with heq | heq <;> simp only [Running, heq] at htask ⊢
    · exact h.running g e htask
    · cases htask
  case alive =>
    intro g hrun
    simp only [Running] at hrun
    rcases hfibers g with heq | heq <;> simp only [heq] at hrun ⊢
    exact h.alive g hrun
  case idle => exact h.idle
  case dropped => exact h.dropped

theorem Routed.runScheduler (h : Routed route s) {n : Nat} {edges : List (Nat × Nat)} (hold : s.NothingOld f)
    (hstill : s.Still f) (hs : s.runScheduler f n edges = some s') : ∃ route', Routed route' s' := by
  simp only [Framework.runScheduler] at hs
  split_ifs at hs with hguard
  split at hs
  · cases hs
  split at hs
  · cases hs
  rename_i src dag _
  rw [Option.some.injEq, addCallback_of_still] at hs
  swap
  · exact hstill
  subst hs
  set fibers : Nat → TaskFiber := fun x =>
    if s.actor.nextFiber ≤ x ∧ x < s.actor.nextFiber + n then { task := .job s.graphs.length } else s.fibers x with hfib
  have hjobs : ∀ g, fibers g = s.fibers g ∨ fibers g = { task := .job s.graphs.length } := by
    intro g
    simp only [hfib]
    split_ifs
    · exact Or.inr rfl
    · exact Or.inl rfl
  have h₁ := h.addJobs hjobs
  have h₂ := h₁.setFiber (f := f) (x := { fibers f with executor := (fibers f).executor.addCallback (.schedule s.graphs.length) })
    ?_ ?_ ?_ (h₁.serving f) (h₁.running f) (h₁.alive f)
  · have h₃ : Routed route { s with
        fibers := Function.update fibers f
          { fibers f with executor := (fibers f).executor.addCallback (.schedule s.graphs.length) }
        graphs := s.graphs ++ [{ owner := f, src, dag }]
        actor := { s.actor with nextFiber := s.actor.nextFiber + n } } :=
      h₂.same rfl rfl h.idle rfl fun _ => rfl
    refine h₃.block ?_
    intro e he
    simp only [Function.update_self] at he
    rw [Fiber.old_addCallback _ (h₁.grows f)] at he
    rcases hjobs f with heq | heq <;> simp only [heq] at he
    · exact hold e he
    · simp [Fiber.old] at he
  · intro e he
    rw [Fiber.fresh_addCallback _ (h₁.grows f), List.mem_append, List.mem_singleton] at he
    rcases he with he | he
    · exact h₁.fresh f e he
    · cases he
  · intro e
    rw [Fiber.fresh_addCallback _ (h₁.grows f), List.count_append]
    simpa using h₁.fresh_once f e
  · exact (h₁.grows f).addCallback _

theorem Routed.exit (h : Routed route s) (hs : s.exit f l = some s') : ∃ route', Routed route' s' := by
  simp only [Framework.exit] at hs
  split_ifs at hs with hrun
  have h₁ : Routed route (s.modifyFiber f fun x => { x with toFiber := x.afterYield .exit }) := by
    refine h.setFiber (h.fresh f) (h.fresh_once f) (h.grows f) ?_ ?_ ?_
    · intro e _ hdel
      cases hdel
    · intro e _ hst
      cases hst
    · intro hst
      cases hst
  split at hs
  · rename_i e htask
    rw [Option.some.injEq] at hs
    obtain ⟨haway, hexec⟩ := h.away_of_running htask hrun
    have htokens : (s.view e).tokens = 0 := by
      have := h.fits e
      rwa [haway] at this
    unfold View.tokens at htokens
    have hlt : e < s.nextEvent := by
      by_contra hge
      have := h.alive f hrun
      rw [h.unserved (by omega) htask] at this
      cases this
    have hview : ∀ x, s'.view x =
        if x = e then { s.view x with ev := (s.view x).ev.setType .towrite, pending := (s.view x).pending + 1 }
        else s.view x := by
      intro x
      rw [← hs, view_addEvent, view_modifyEvent]
      split_ifs <;> rfl
    have hself := (hview e).trans (if_pos rfl)
    have hfibers : s'.fibers = (s.modifyFiber f fun x => { x with toFiber := x.afterYield .exit }).fibers := by
      rw [← hs]
      rfl
    refine ⟨_, h₁.change (r := .handed) hfibers (by rw [← hs]; rfl) (by rw [← hs]; exact List.Subset.refl _)
      (by rw [← hs]; rfl) ?_ ?_ hlt ?_ ?_ ?_⟩
    · intro x hx
      exact (hview x).trans (if_neg hx)
    · rw [hself]
      rfl
    · rw [hself]
      refine ⟨?_, fun _ => show EventType.towrite ∈ _ by decide, fun hone => ?_⟩
      · show (s.view e).calling + ((s.view e).pending + 1) + (s.view e).registered = 1
        omega
      · have hone : (s.view e).registered = 1 := hone
        omega
    · intro g hg
      have := h₁.fresh g e hg
      rw [haway] at this
      cases this
    · -- the event has one executor, and that one is gone
      intro g htask' hdel hcl
      have hg : (s.view e).ev.executor = some g := (h₁.serving g e htask' hdel hcl).2
      rw [hexec, Option.some.injEq] at hg
      subst hg
      have : (s.modifyFiber f fun x => { x with toFiber := x.afterYield .exit }).fibers f =
          { s.fibers f with toFiber := (s.fibers f).toFiber.afterYield .exit } := Function.update_self ..
      rw [this] at hdel
      cases hdel
  · rw [Option.some.injEq] at hs
    exact ⟨route, hs ▸ h₁.same rfl rfl h₁.idle rfl fun _ => rfl⟩
  · rw [Option.some.injEq] at hs
    exact ⟨route, hs ▸ h₁⟩

/-! ### The loops -/

theorem Routed.call (h : Routed route s) {i : Nat} (hs : s.call i l = some s') : ∃ route', Routed route' s' := by
  rcases call_eq_some hs with ⟨e, hcurrent, rfl⟩ | ⟨d, hcurrent, rfl⟩
  · have hcalling : 0 < (s.view e).calling := List.count_pos_iff.mpr (mem_calling hcurrent)
    have hroute : route e = .handed := h.handed_of_tokens (by unfold View.tokens; omega)
    have hview := view_advance_addEvent hcurrent (l := l)
    have hself := (hview e).trans (if_pos rfl)
    have hfits := h.fits e
    rw [hroute] at hfits
    obtain ⟨htokens, hprep, -⟩ := hfits
    unfold View.tokens at htokens
    refine ⟨_, h.move hroute (r := .handed) rfl rfl (List.Subset.refl _) rfl (fun x hx => (hview x).trans (if_neg hx))
      (by rw [hself]) ?_⟩
    rw [hself]
    refine ⟨?_, fun _ => hprep (by omega), fun hone => ?_⟩
    · show (s.view e).calling - 1 + ((s.view e).pending + 1) + (s.view e).registered = 1
      omega
    · have hone : (s.view e).registered = 1 := hone
      omega
  · exact ⟨route, h.same rfl rfl h.idle rfl fun x => view_advance_schedule hcurrent x⟩

theorem Routed.endWalk (h : Routed route s) {i : Nat} (hs : s.endWalk i = some s') : Routed route s' := by
  obtain ⟨-, heq⟩ := endWalk_calling hs
  have hview := view_endWalk hs
  rw [heq] at hview ⊢
  exact h.same rfl rfl h.idle rfl hview

theorem Routed.prepared_of_pending (h : Routed route s) (hmem : (l, e) ∈ s.pending) :
    route e = .handed ∧ (s.view e).calling = 0 ∧ (s.view e).pending = 1 ∧ (s.view e).registered = 0 ∧
      Prepared (s.actor.events e).type := by
  have hpending : 0 < (s.view e).pending := mem_snd hmem
  have hroute : route e = .handed := h.handed_of_tokens (by unfold View.tokens; omega)
  have hfits := h.fits e
  rw [hroute] at hfits
  obtain ⟨htokens, hprep, -⟩ := hfits
  unfold View.tokens at htokens
  exact ⟨hroute, by omega, by omega, by omega, hprep (by omega)⟩

theorem Routed.dispatch (h : Routed route s) (hs : s.dispatch l e = some s') : ∃ route', Routed route' s' := by
  simp only [Framework.dispatch] at hs
  split_ifs at hs with hmem
  rw [Option.some.injEq] at hs
  obtain ⟨hroute, hcalling, hpending, hregistered, hprep⟩ := h.prepared_of_pending hmem
  subst hs
  have hview := view_take_dispatchEvent hmem hprep.dispatchable hregistered
  have hself := (hview e).trans (if_pos rfl)
  refine ⟨_, h.move hroute (r := .handed) dispatchEvent_fibers dispatchEvent_nextEvent
    (by rw [dispatchEvent_idle]; exact List.Subset.refl _) (dispatchEvent_dropped hprep.dispatchable)
    (fun x hx => (hview x).trans (if_neg hx)) (by rw [hself]) ?_⟩
  rw [hself]
  refine ⟨?_, fun hzero => absurd hzero (Nat.succ_ne_zero _), fun _ => hprep.waiting⟩
  show (s.view e).calling + ((s.view e).pending - 1) + ((s.view e).registered + 1) = 1
  omega

theorem Routed.accept (h : Routed route s) (l channel : Nat) : ∃ route', Routed route' (s.accept l channel) := by
  have h₁ : Routed (Function.update route s.nextEvent .away)
      (s.newEvent { seqid := 1, type := .next, role := .server, channel }) := h.newEvent rfl
  set s₁ := s.newEvent { seqid := 1, type := .next, role := .server, channel } with hs₁
  have hev : (s₁.view s.nextEvent).ev = { seqid := 1, type := .next, role := .server, channel } := by
    rw [hs₁, view_newEvent, if_pos rfl]
  have htokens : (s₁.view s.nextEvent).tokens = 0 := by
    have := h₁.fits s.nextEvent
    rwa [Function.update_self] at this
  unfold View.tokens at htokens
  have htype : Dispatchable (s₁.actor.events s.nextEvent).type := by
    rw [show s₁.actor.events s.nextEvent = _ from hev]
    exact show Dispatchable .next by decide
  have hview := view_dispatchEvent htype (l := l) (notMem_registered (s := s₁) (e := s.nextEvent) (by omega))
  have hself := (hview s.nextEvent).trans (if_pos rfl)
  refine ⟨_, h₁.change (r := .handed) (e := s.nextEvent) dispatchEvent_fibers dispatchEvent_nextEvent
    (by rw [Framework.accept, dispatchEvent_idle]; exact List.Subset.refl _) (dispatchEvent_dropped htype)
    (fun x hx => (hview x).trans (if_neg hx)) (by rw [Framework.accept, ← hs₁, hself]) (Nat.lt_succ_self _) ?_ ?_ ?_⟩
  · rw [Framework.accept, ← hs₁, hself]
    refine ⟨?_, fun hzero => absurd hzero (Nat.succ_ne_zero _), fun _ => ?_⟩
    · show (s₁.view s.nextEvent).calling + (s₁.view s.nextEvent).pending + ((s₁.view s.nextEvent).registered + 1) = 1
      omega
    · show (s₁.view s.nextEvent).ev.type ∈ EventLoop.waiting
      rw [hev]
      exact show EventType.next ∈ EventLoop.waiting by decide
  · intro f hf
    have := h₁.fresh f _ hf
    rw [Function.update_self] at this
    cases this
  · intro f htask hdel hcl
    have := (h₁.serving f _ htask hdel hcl).2
    rw [hev] at this
    cases this

theorem Routed.execute (h : Routed route s) (hroute : route e = .away) (hlt : e < s.nextEvent)
    (hfree : ∀ f, (s.fibers f).task = .request e → (s.fibers f).deleted = false → (s.view e).ev.role = .client)
    (hs : s.execute e = some s') : Routed route s' := by
  unfold Framework.execute at hs
  cases hexec : s.actor.execute e with
  | none => simp [hexec] at hs
  | some actor =>
    simp only [hexec, Option.some.injEq] at hs
    subst hs
    rcases Actor.execute_cases hexec with ⟨hnone, rfl⟩ | ⟨fiber, hsome, queued, group, -, rfl⟩
    · have hview := view_newRequest (s := s) (e := e)
      have hself := (hview e).trans (if_pos rfl)
      have h₁ : Routed (Function.update route e .away) { s with actor := s.actor.newRequest e } := by
        refine h.change rfl rfl (List.Subset.refl _) rfl (fun x hx => (hview x).trans (if_neg hx)) (by rw [hself]; rfl) hlt
          ?_ ?_ ?_
        · have hfits := h.fits e
          rw [hroute] at hfits
          rw [hself]
          exact hfits
        · intro f hf
          have := h.fresh f e hf
          rw [hroute] at this
          cases this
        · intro f htask hdel hcl
          exact absurd (hfree f htask hdel) hcl
      rw [← hroute, Function.update_eq_self] at h₁
      simp only [hnone, if_true]
      refine h₁.setFiber (by simp [Fiber.fresh, Executor.addSchedule]) (by simp [Fiber.fresh, Executor.addSchedule])
        (Nat.zero_le _) ?_ ?_ ?_
      · intro x hx _ _
        cases hx
        refine ⟨hroute, ?_⟩
        rw [hself]
        rfl
      · intro x _ hst
        cases hst
      · intro hst
        cases hst
    · simp only [hsome, reduceCtorEq, if_false]
      refine h.regroup rfl rfl h.idle rfl fun x => ?_
      simp only [view, calling, Events.modify_apply]
      split_ifs
      · exact ⟨0, rfl⟩
      · exact ⟨(s.actor.events x).group, rfl⟩

theorem Routed.handle (h : Routed route s) {a : Action} (hs : s.handle l e a = some s') :
    ∃ route', Routed route' s' := by
  simp only [Framework.handle] at hs
  split_ifs at hs with hguard
  obtain ⟨hmem, -⟩ := hguard
  have hregistered : 0 < (s.view e).registered := mem_snd hmem
  have hroute : route e = .handed := h.handed_of_tokens (by unfold View.tokens; omega)
  have hfits := h.fits e
  rw [hroute] at hfits
  obtain ⟨htokens, -, -⟩ := hfits
  unfold View.tokens at htokens
  set ev := (a.apply (s.actor.events e)).1 with hev
  have hrole : ev.role = (s.view e).ev.role := a.apply_role _
  have hview := view_handled hmem ev
  have hself := (hview e).trans (if_pos rfl)
  -- the event after it was taken off the poll
  have hremoved : Routed (Function.update route e .away) (s.unregister l e ev) := by
    refine h.move hroute rfl rfl (List.Subset.refl _) rfl (fun x hx => (hview x).trans (if_neg hx)) ?_ ?_
    · rw [hself]
      exact hrole
    · rw [hself]
      show (s.view e).calling + (s.view e).pending + ((s.view e).registered - 1) = 0
      omega
  cases hdisp : (a.apply (s.actor.events e)).2 with
  | stays =>
    simp only [hdisp, Option.some.injEq] at hs
    subst hs
    have hview' := view_modifyEvent (s := s) (e := e) fun _ => ev
    have hself' := (hview' e).trans (if_pos rfl)
    refine ⟨_, h.move hroute (r := .handed) rfl rfl (List.Subset.refl _) rfl (fun x hx => (hview' x).trans (if_neg hx))
      ?_ ?_⟩
    · rw [hself']
      exact hrole
    · rw [hself']
      refine ⟨htokens, fun hzero => ?_, fun _ => Action.apply_stays hdisp⟩
      have hzero : (s.view e).registered = 0 := hzero
      omega
  | dispatched =>
    simp only [hdisp, Option.some.injEq] at hs
    have htype : Dispatchable ev.type ∧ ev.type ∈ EventLoop.waiting := by
      rcases Action.apply_dispatched hdisp with ht | ht <;> rw [hev, ht] <;> decide
    have hone : (s.view e).registered = 1 := by omega
    have hadd := view_redispatched hmem hone htype.1
    have hadded := (hadd e).trans (if_pos rfl)
    subst hs
    refine ⟨_, h.move hroute (r := .handed) dispatchEvent_fibers dispatchEvent_nextEvent
      (by rw [dispatchEvent_idle]; exact List.Subset.refl _)
      (dispatchEvent_dropped (by rw [unregister_event]; exact htype.1)) (fun x hx => (hadd x).trans (if_neg hx)) ?_ ?_⟩
    · rw [hadded]
      exact hrole
    · rw [hadded]
      exact ⟨htokens, fun hzero => absurd (hone.symm.trans hzero) (by decide), fun _ => htype.2⟩
  | executed =>
    simp only [hdisp] at hs
    refine ⟨_, hremoved.execute (Function.update_self ..) ?_ ?_ hs⟩
    · by_contra hge
      have hge : s.nextEvent ≤ e := by
        have : ¬ e < s.nextEvent := hge
        omega
      have := (h.unused e hge).1
      rw [hroute] at this
      cases this
    · intro f htask hdel
      by_contra hcl
      rw [hself] at hcl
      have := (h.serving f e htask hdel (by rw [← hrole]; exact hcl)).1
      rw [hroute] at this
      cases this
  | deleted =>
    simp only [hdisp, Option.some.injEq] at hs
    exact ⟨_, hs ▸ hremoved⟩

/-! ### Every step -/

theorem Routed.stepGraph (h : Routed route s) {d : Nat} {x : DAG.Exec.Label Nat} (hs : s.stepGraph d x = some s') :
    Routed route s' := by
  unfold Framework.stepGraph at hs
  split at hs
  · cases hs
  split at hs
  · cases hs
  rw [Option.some.injEq] at hs
  exact hs ▸ h.same rfl rfl h.idle rfl fun _ => rfl

theorem Routed.executeNode (h : Routed route s) {d j : Nat} (hs : s.executeNode d j = some s') : Routed route s' := by
  unfold Framework.executeNode at hs
  split at hs
  · cases hs
  rename_i s₁ hs₁
  have h₁ := h.stepGraph hs₁
  split at hs
  · cases hs
  split at hs
  · cases hs
  rw [Option.some.injEq] at hs
  exact hs ▸ h₁.same rfl rfl h₁.idle rfl fun _ => rfl

theorem Routed.close (h : Routed route s) (hs : s.close f e = some s') : Routed route s' := by
  simp only [Framework.close] at hs
  split_ifs at hs with hguard
  rw [Option.some.injEq] at hs
  refine hs ▸ h.same rfl rfl (fun x hx => ?_) rfl fun _ => rfl
  rcases List.mem_append.mp hx with hx | hx
  · exact h.idle x hx
  · rw [List.mem_singleton.mp hx]
    exact hguard.2.1

theorem Routed.step (h : Routed route s) {x : Label} (hok : s.HandsOverOnce x) (hs : s.step x = some s') :
    ∃ route', Routed route' s' := by
  cases x with
  | spawn =>
    refine ⟨route, Option.some.inj hs ▸ h.newFiber (by simp) rfl (Nat.zero_le _) ?_ ?_⟩ <;> simp [Fiber.fresh]
  | run f poolId => exact ⟨route, h.run hs⟩
  | connect f reuse channel => exact h.connect hok.1 hok.2 hs
  | close f e => exact ⟨route, h.close hs⟩
  | yield f =>
    simp only [Framework.step, Framework.yield] at hs
    split_ifs at hs
    exact Option.some.inj hs ▸ h.block hok
  | yieldGroup f events => exact h.yieldGroup hok hs
  | runScheduler f n edges => exact h.runScheduler hok.1 hok.2 hs
  | exit f l => exact h.exit hs
  | fetchNoWait reuse channel => exact h.fetchNoWait hok hs
  | forward i l => exact absurd hok id
  | call i l => exact h.call hs
  | endWalk i => exact ⟨route, h.endWalk hs⟩
  | dispatch l e => exact h.dispatch hs
  | accept l channel => exact Option.some.inj hs ▸ h.accept l channel
  | handle l e a => exact h.handle hs
  | decrement d j => exact ⟨route, h.stepGraph hs⟩
  | executeNode d j => exact ⟨route, h.executeNode hs⟩
  | leave d j => exact ⟨route, h.stepGraph hs⟩

/-- **No event that is handed to a loop is dropped**, in the runs in which no copy is forwarded, no fiber hands
an event over again, none connects or runs a graph while a walk through its callbacks is under way, and no
connection is reused before its fetch is complete and its event is off every list: in every state, no event was
dropped, and each event on the list of a loop has a type that `dispatchEvent` adds, and is in the poll when it
has done so. -/
theorem nothing_dropped {ls : List Label} (hok : Lib.StepsMeet step HandsOverOnce start ls)
    (hrun : Lib.run step start ls = some s) :
    s.dropped = [] ∧ ∀ l e, (l, e) ∈ s.pending → Dispatchable (s.actor.events e).type ∧
      ∃ s', s.step (.dispatch l e) = some s' ∧ (l, e) ∈ s'.registered := by
  obtain ⟨route, h⟩ : ∃ route, Routed route s :=
    Lib.run_invariant_where (I := fun s => ∃ route, Routed route s) (fun s x s' ⟨route, h⟩ hok hs => h.step hok hs)
      ⟨_, routed_start⟩ hok hrun
  refine ⟨h.dropped, fun l e hmem => ?_⟩
  have htype := (h.prepared_of_pending hmem).2.2.2.2.dispatchable
  refine ⟨htype, _, if_pos hmem, ?_⟩
  rw [dispatchEvent, if_pos (show Dispatchable (s.actor.events e).type from htype)]
  show (l, e) ∈ if (l, e) ∈ s.registered then s.registered else s.registered ++ [(l, e)]
  split_ifs with hin
  · exact hin
  · simp

/-- A request that fetches on a new connection, and a second one that fetches on the same. -/
def keepAliveRun : List Label :=
  [.accept 0 9, .handle 0 0 .readed, .run 0 9, .connect 0 none 1, .yield 0, .call 0 1, .dispatch 1 1,
    .handle 1 1 .connected, .handle 1 1 .writed, .handle 1 1 .readed, .run 0 1, .close 0 1, .exit 0 0, .dispatch 0 0,
    .handle 0 0 .writed, .handle 0 0 .readed, .endWalk 0, .run 1 9, .connect 1 (some 1) 1, .yield 1, .call 0 0]

theorem nothing_dropped_keepAlive : ∃ s, Lib.run step start keepAliveRun = some s ∧ s.pending = [(0, 1)] ∧
    s.dropped = [] ∧ Dispatchable (s.actor.events 1).type := by
  obtain ⟨s, hs⟩ : ∃ s, Lib.run step start keepAliveRun = some s := ⟨_, rfl⟩
  have hpending : s.pending = [(0, 1)] := by
    rw [← Option.some.inj hs]
    rfl
  obtain ⟨hdropped, htype⟩ := nothing_dropped (by decide) hs
  exact ⟨s, hs, hpending, hdropped, (htype 0 1 (by simp [hpending])).1⟩

/-- The copy of a forwarded event is dropped, and so is the event of the first of two fetches when the
fiber blocks for the second. The event of a fetch after a graph is dropped when the walk of the worker
that started the graph comes to it. -/
theorem dropped_forwarded_and_refired :
    (∃ s, Lib.run step start [.spawn, .run 0 0, .connect 0 none 1, .yield 0, .forward 0 3,
      .dispatch 3 1] = some s ∧ s.dropped = [1]) ∧
    (∃ s, Lib.run step start [.spawn, .run 0 0, .connect 0 none 1, .yield 0, .call 0 0, .endWalk 0, .dispatch 0 0,
      .handle 0 0 .connected, .handle 0 0 .writed, .handle 0 0 .readed, .run 0 1, .connect 0 none 1, .yield 0,
      .call 0 0, .dispatch 0 0] = some s ∧ s.dropped = [0]) ∧
    ∃ s, Lib.run step start [.spawn, .run 0 0, .runScheduler 0 1 [], .call 0 0, .decrement 0 0, .executeNode 0 0, .run 1 0,
      .exit 1 0, .decrement 0 1, .executeNode 0 1, .run 0 0, .connect 0 none 1, .yield 0, .call 0 0, .dispatch 0 0,
      .handle 0 0 .connected, .handle 0 0 .writed, .handle 0 0 .readed, .call 1 0, .call 1 0, .dispatch 0 0] = some s ∧
      s.dropped = [0] :=
  ⟨⟨_, rfl, rfl⟩, ⟨_, rfl, rfl⟩, ⟨_, rfl, rfl⟩⟩

end Raster.Framework
