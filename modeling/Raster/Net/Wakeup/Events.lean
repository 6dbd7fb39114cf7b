import Raster.Net.Wakeup.Invariant

/-!
# Waking a fiber: the events

Each step keeps `EventsInv`: an event is connected, handed over, registered, handled and completed, and
all the while it is in the place that the invariant says, and named as often as that place allows.
-/

namespace Raster.Framework

open Raster.Fiber (Callback)
open EventLoop (Dispatchable)

variable {callback : Prop} {place : Nat → Place} {waits waits' : Nat → List Nat} {s s' : Framework} {e f l : Nat}

/-! ### One event changes -/

theorem EventsInv.change (h : EventsInv callback place waits s) {p : Place} (hfibers : s'.fibers = s.fibers)
    (hnext : s'.nextEvent = s.nextEvent) (hidle : s'.idle ⊆ s.idle)
    (hrequests : ∀ q ∈ s'.actor.requests, q ∈ s.actor.requests ∨ (s'.view q.2).ev.role = .server ∨ callback)
    (hview : ∀ x, x ≠ e → s'.view x = s.view x) (hrole : (s'.view e).ev.role = (s.view e).ev.role)
    (hlt : e < s.nextEvent) (hfits : p.Fits callback (s'.view e))
    (hfresh : ∀ f, .addEvent e ∈ (s.fibers f).fresh → p = .fresh f)
    (hawaited : ∀ f, p = .awaited f → .addEvent e ∈ (s.fibers f).awaited)
    (hserving : ∀ f, (s.fibers f).task = .request e → (s.fibers f).deleted = false → place e = .request f → p = .request f)
    (hwaits : ∀ f, e ∈ waits' f ↔ p = .awaited f) (hother : ∀ f x, x ≠ e → (x ∈ waits' f ↔ x ∈ waits f)) :
    EventsInv callback (Function.update place e p) waits' s' := by
  have hroles := roles_eq hview hrole
  constructor
  case fits =>
    intro x
    by_cases hx : x = e
    · rw [hx, Function.update_self]
      exact hfits
    · rw [Function.update_of_ne hx, hview x hx]
      exact h.fits x
  case unused =>
    intro x hx
    rw [hnext] at hx
    rw [Function.update_of_ne (by omega)]
    exact h.unused x hx
  case fresh =>
    intro f x hx
    rw [hfibers] at hx
    by_cases hxe : x = e
    · subst hxe
      rw [Function.update_self]
      exact hfresh f hx
    · rw [Function.update_of_ne hxe]
      exact h.fresh f x hx
  case fresh_once => exact hfibers ▸ h.fresh_once
  case grows => exact hfibers ▸ h.grows
  case client =>
    intro f x hx
    rw [hfibers] at hx
    rw [hroles x]
    exact h.client f x hx
  case awaited =>
    intro f x hx
    rw [hfibers]
    by_cases hxe : x = e
    · subst hxe
      rw [Function.update_self] at hx
      exact hawaited f hx
    · rw [Function.update_of_ne hxe] at hx
      exact h.awaited f x hx
  case mem_waits =>
    intro f x
    by_cases hxe : x = e
    · subst hxe
      rw [Function.update_self]
      exact hwaits f
    · rw [Function.update_of_ne hxe, hother f x hxe]
      exact h.mem_waits f x
  case serving =>
    intro f x htask hdel
    rw [hfibers] at htask hdel ⊢
    rw [hroles x]
    refine (h.serving f x htask hdel).imp_left fun hplace => ?_
    by_cases hxe : x = e
    · subst hxe
      rw [Function.update_self]
      exact hserving f htask hdel hplace
    · rw [Function.update_of_ne hxe]
      exact hplace
  case idle =>
    intro x hx
    rw [hroles x]
    exact h.idle x (hidle hx)
  case requests =>
    intro q hq
    rcases hrequests q hq with hq | hq
    · rw [hroles q.2]
      exact h.requests q hq
    · exact hq

theorem EventsInv.stay (h : EventsInv callback place waits s) (hfibers : s'.fibers = s.fibers)
    (hnext : s'.nextEvent = s.nextEvent) (hidle : s'.idle ⊆ s.idle) (hrequests : s'.actor.requests = s.actor.requests)
    (hview : ∀ x, x ≠ e → s'.view x = s.view x) (hrole : (s'.view e).ev.role = (s.view e).ev.role)
    (hlt : e < s.nextEvent) (hfits : (place e).Fits callback (s'.view e)) : EventsInv callback place waits s' := by
  have hstay := h.change hfibers hnext hidle (fun q hq => Or.inl (hrequests ▸ hq)) hview hrole hlt hfits
    (fun f hf => h.fresh f e hf) (fun f hf => h.awaited f e hf) (fun _ _ _ hplace => hplace)
    (fun f => h.mem_waits f e) fun _ _ _ => Iff.rfl
  rwa [Function.update_eq_self] at hstay

theorem EventsInv.same (h : EventsInv callback place waits s) (hfibers : s'.fibers = s.fibers)
    (hnext : s'.nextEvent = s.nextEvent) (hidle : ∀ e ∈ s'.idle, (s.view e).ev.role = .client)
    (hrequests : s'.actor.requests = s.actor.requests) (hview : ∀ x, s'.view x = s.view x) :
    EventsInv callback place waits s' where
  fits x := hview x ▸ h.fits x
  unused x hx := h.unused x (hnext ▸ hx)
  fresh := hfibers ▸ h.fresh
  fresh_once := hfibers ▸ h.fresh_once
  grows := hfibers ▸ h.grows
  client f x hx := by
    rw [hview x]
    exact h.client f x (hfibers ▸ hx)
  awaited := hfibers ▸ h.awaited
  mem_waits := h.mem_waits
  serving f x := by
    rw [hfibers, hview x]
    exact h.serving f x
  idle x hx := by
    rw [hview x]
    exact hidle x hx
  requests q hq := by
    rw [hview q.2]
    exact h.requests q (hrequests ▸ hq)

theorem EventsInv.lt (h : EventsInv callback place waits s) (hplace : place e ≠ .absent) : e < s.nextEvent := by
  by_contra hge
  exact hplace (h.unused e (by omega))

theorem EventsInv.newEvent (h : EventsInv callback place waits s) {ev : Event} {p : Place} (hfits : p.Fits callback ⟨ev, 0, 0, 0⟩)
    (hp : ∀ f, p ≠ .awaited f) : EventsInv callback (Function.update place s.nextEvent p) waits (s.newEvent ev) := by
  have habsent := h.unused s.nextEvent le_rfl
  have hfits' := h.fits s.nextEvent
  rw [habsent] at hfits'
  obtain ⟨hnone, htokens⟩ := hfits'
  have hview := view_newEvent_self ev htokens
  have hother : ∀ x, x ≠ s.nextEvent → (s.newEvent ev).view x = s.view x := fun x hx => view_newEvent_of_ne ev hx
  have hne : ∀ {x q}, place x = q → q ≠ .absent → x ≠ s.nextEvent := by
    rintro x q hx hq rfl
    exact hq (hx.symm.trans habsent)
  constructor
  case fits =>
    intro x
    by_cases hx : x = s.nextEvent
    · rw [hx, Function.update_self, hview]
      exact hfits
    · rw [Function.update_of_ne hx, hother x hx]
      exact h.fits x
  case unused =>
    intro x hx
    have hx : s.nextEvent + 1 ≤ x := hx
    rw [Function.update_of_ne (by omega)]
    exact h.unused x (by omega)
  case fresh =>
    intro f x hx
    have hplace := h.fresh f x hx
    rw [Function.update_of_ne (hne hplace (by simp))]
    exact hplace
  case fresh_once => exact h.fresh_once
  case grows => exact h.grows
  case client =>
    intro f x hx
    have hrole := h.client f x hx
    rw [hother x]
    · exact hrole
    · rintro rfl
      rw [hnone] at hrole
      cases hrole
  case awaited =>
    intro f x hx
    by_cases hxe : x = s.nextEvent
    · rw [hxe, Function.update_self] at hx
      exact absurd hx (hp f)
    · rw [Function.update_of_ne hxe] at hx
      exact h.awaited f x hx
  case mem_waits =>
    intro f x
    rw [h.mem_waits f x]
    by_cases hxe : x = s.nextEvent
    · rw [hxe, Function.update_self, habsent]
      exact iff_of_false (by simp) (hp f)
    · rw [Function.update_of_ne hxe]
  case serving =>
    intro f x htask hdel
    have hx : x ≠ s.nextEvent := by
      rintro rfl
      rcases h.serving f _ htask hdel with hplace | ⟨hrole, -⟩
      · exact hne hplace (by simp) rfl
      · rw [hnone] at hrole
        cases hrole
    rw [Function.update_of_ne hx, hother x hx]
    exact h.serving f x htask hdel
  case idle =>
    intro x hx
    have hrole := h.idle x hx
    rw [hother x]
    · exact hrole
    · rintro rfl
      rw [hnone] at hrole
      cases hrole
  case requests =>
    intro q hq
    refine (h.requests q hq).imp_left fun hrole => ?_
    rw [hother q.2]
    · exact hrole
    · intro heq
      rw [heq, hnone] at hrole
      cases hrole

theorem EventsInv.setFiber (h : EventsInv callback place waits s) {x : TaskFiber}
    (hfresh : ∀ e, .addEvent e ∈ x.fresh → place e = .fresh f) (honce : ∀ e, x.fresh.count (.addEvent e) ≤ 1)
    (hgrows : x.Grows) (hclient : ∀ e, .addEvent e ∈ x.executor.callbacks → (s.view e).ev.role = .client)
    (hawaited : ∀ e, place e = .awaited f → .addEvent e ∈ x.awaited)
    (hserving : ∀ e, x.task = .request e → x.deleted = false →
      place e = .request f ∨ (s.view e).ev.role = .client ∧ x.status ≠ .running) :
    EventsInv callback place waits { s with fibers := Function.update s.fibers f x } := by
  have hself : Function.update s.fibers f x f = x := Function.update_self ..
  have hother : ∀ g, g ≠ f → Function.update s.fibers f x g = s.fibers g := fun g hg => Function.update_of_ne hg ..
  constructor
  case fits => exact h.fits
  case unused => exact h.unused
  case fresh =>
    intro g e he
    by_cases hg : g = f
    · subst hg
      simp only [hself] at he
      exact hfresh e he
    · simp only [hother g hg] at he
      exact h.fresh g e he
  case fresh_once =>
    intro g e
    by_cases hg : g = f
    · subst hg
      simpa only [hself] using honce e
    · simpa only [hother g hg] using h.fresh_once g e
  case grows =>
    intro g
    by_cases hg : g = f
    · subst hg
      simpa only [hself] using hgrows
    · simpa only [hother g hg] using h.grows g
  case client =>
    intro g e he
    by_cases hg : g = f
    · subst hg
      simp only [hself] at he
      exact hclient e he
    · simp only [hother g hg] at he
      exact h.client g e he
  case awaited =>
    intro g e he
    by_cases hg : g = f
    · subst hg
      simpa only [hself] using hawaited e he
    · simpa only [hother g hg] using h.awaited g e he
  case mem_waits => exact h.mem_waits
  case serving =>
    intro g e htask hdel
    by_cases hg : g = f
    · subst hg
      simp only [hself] at htask hdel ⊢
      exact hserving e htask hdel
    · simp only [hother g hg] at htask hdel ⊢
      exact h.serving g e htask hdel
  case idle => exact h.idle
  case requests => exact h.requests

theorem EventsInv.regroup (h : EventsInv callback place waits s) (hfibers : s'.fibers = s.fibers)
    (hnext : s'.nextEvent = s.nextEvent) (hidle : s'.idle = s.idle) (hrequests : s'.actor.requests = s.actor.requests)
    (hview : ∀ x, ∃ k, s'.view x = { s.view x with ev := (s.view x).ev.setGroup k }) : EventsInv callback place waits s' := by
  have hrole : ∀ x, (s'.view x).ev.role = (s.view x).ev.role := by
    intro x
    obtain ⟨k, hk⟩ := hview x
    rw [hk]
    rfl
  constructor
  case fits =>
    intro x
    obtain ⟨k, hk⟩ := hview x
    have hfits := h.fits x
    rw [hk]
    cases hp : place x <;> rw [hp] at hfits <;> exact hfits
  case unused => exact hnext ▸ h.unused
  case fresh => exact hfibers ▸ h.fresh
  case fresh_once => exact hfibers ▸ h.fresh_once
  case grows => exact hfibers ▸ h.grows
  case client =>
    intro f x hx
    rw [hrole x]
    exact h.client f x (hfibers ▸ hx)
  case awaited => exact hfibers ▸ h.awaited
  case mem_waits => exact h.mem_waits
  case serving =>
    intro f x
    rw [hfibers, hrole x]
    exact h.serving f x
  case idle =>
    intro x hx
    rw [hrole x]
    exact h.idle x (hidle ▸ hx)
  case requests =>
    intro q hq
    rw [hrole q.2]
    exact h.requests q (hrequests ▸ hq)

/-! ### What the type and the names of an event say about its place -/

instance (type : EventType) : Decidable (Pending type) := by
  unfold Pending
  infer_instance

instance (type : EventType) : Decidable (Complete type) := by
  unfold Complete
  infer_instance

theorem Complete.not_prepared {type : EventType} (h : Complete type) : ¬ Prepared type := by
  simp only [Complete, List.mem_cons, List.not_mem_nil, or_false] at h
  rcases h with rfl | rfl | rfl <;> decide

theorem Complete.not_pending {type : EventType} (h : Complete type) : ¬ Pending type := by
  simp only [Complete, List.mem_cons, List.not_mem_nil, or_false] at h
  rcases h with rfl | rfl | rfl <;> decide

theorem Complete.not_dispatchable {type : EventType} (h : Complete type) : ¬ Dispatchable type := by
  simp only [Complete, List.mem_cons, List.not_mem_nil, or_false] at h
  rcases h with rfl | rfl | rfl <;> decide

theorem Prepared.pending {type : EventType} (h : Prepared type) : Pending type := by
  simp only [Prepared, List.mem_cons, List.not_mem_nil, or_false] at h
  rcases h with rfl | rfl <;> decide

theorem EventsInv.done_of_complete (h : EventsInv callback place waits s) (hrole : (s.view e).ev.role = .client)
    (htype : Complete (s.view e).ev.type) : place e = .done := by
  have hfits := h.fits e
  cases hp : place e <;> rw [hp] at hfits
  case fresh f => exact absurd hfits.2.2.1 htype.not_prepared
  case awaited f => exact absurd hfits.2.2.1 htype.not_pending
  all_goals
    have := hrole.symm.trans hfits.1
    cases this

theorem EventsInv.place_of_calling (h : EventsInv callback place waits s) (hcalling : 0 < (s.view e).calling) :
    (∃ f, place e = .awaited f) ∨ place e = .done := by
  have hfits := h.fits e
  cases hp : place e <;> rw [hp] at hfits
  case awaited f => exact Or.inl ⟨f, rfl⟩
  case done => exact Or.inr rfl
  case server =>
    have := hfits.2.1
    omega
  case fresh f =>
    have := hfits.2.2.2
    unfold View.tokens at this
    omega
  case absent =>
    have := hfits.2
    unfold View.tokens at this
    omega
  case request f =>
    have := hfits.2.2
    unfold View.tokens at this
    omega
  case gone =>
    have := hfits.2
    unfold View.tokens at this
    omega

theorem EventsInv.place_of_loop (h : EventsInv callback place waits s)
    (hloop : 0 < (s.view e).pending ∨ 0 < (s.view e).registered) :
    (∃ f, place e = .awaited f) ∨ place e = .done ∨ place e = .server := by
  have hfits := h.fits e
  cases hp : place e <;> rw [hp] at hfits
  case awaited f => exact Or.inl ⟨f, rfl⟩
  case done => exact Or.inr (Or.inl rfl)
  case server => exact Or.inr (Or.inr rfl)
  case fresh f =>
    have := hfits.2.2.2
    unfold View.tokens at this
    omega
  case absent =>
    have := hfits.2
    unfold View.tokens at this
    omega
  case request f =>
    have := hfits.2.2
    unfold View.tokens at this
    omega
  case gone =>
    have := hfits.2
    unfold View.tokens at this
    omega

/-! ### The clients -/

theorem modifyEvent_newEvent (ev : Event) (g : Event → Event) :
    (s.newEvent ev).modifyEvent s.nextEvent g = s.newEvent (g ev) := by
  simp [Framework.newEvent, modifyEvent, Events.modify]

theorem modifyEvent_id : s.modifyEvent e id = s := by
  simp [modifyEvent, Events.modify]

/-- What a connection leaves alone. -/
structure Connection (s : Framework) (e : Nat) (s' : Framework) : Prop where
  fibers : s'.fibers = s.fibers
  graphs : s'.graphs = s.graphs
  walks : s'.walks = s.walks
  pool : s'.actor.pool = s.actor.pool
  nextFiber : s'.actor.nextFiber = s.actor.nextFiber
  group : s'.actor.group = s.actor.group
  events : ∀ x, (s'.actor.events x).group = if x = e then 0 else (s.actor.events x).group

theorem Connection.calling (h : Connection s e s') : s'.calling = s.calling := by
  rw [Framework.calling, h.walks, Framework.calling]

/-- A connection of a client for the fiber `f`, up to its callback; in callback mode the event has no
executor. -/
theorem EventsInv.initConnection (h : EventsInv callback place waits s) {reuse : Option Nat} {channel : Nat}
    (hsettled : ∀ e ∈ reuse, s.Settled e) (hs : s.initConnection reuse channel = some (e, s')) (f : Nat)
    {g : Event → Event} (hg : g = (fun ev => ev.setExecutor f) ∨ callback ∧ g = id) :
    EventsInv callback (Function.update place e (.fresh f)) waits (s'.modifyEvent e g) ∧
      (place e = .absent ∨ place e = .done) ∧ Connection s e (s'.modifyEvent e g) := by
  have howned : ∀ ev : Event, ev.executor = none → Owned callback (g ev) f := by
    intro ev hnone
    rcases hg with rfl | ⟨hcallback, rfl⟩
    · exact Or.inl rfl
    · exact Or.inr ⟨hcallback, hnone⟩
  have hrole' : ∀ ev : Event, (g ev).role = ev.role := by
    intro ev
    rcases hg with rfl | ⟨-, rfl⟩ <;> rfl
  have htype' : ∀ ev : Event, (g ev).type = ev.type := by
    intro ev
    rcases hg with rfl | ⟨-, rfl⟩ <;> rfl
  have hgroup' : ∀ ev : Event, (g ev).group = ev.group := by
    intro ev
    rcases hg with rfl | ⟨-, rfl⟩ <;> rfl
  cases reuse with
  | some e' =>
    simp only [Framework.initConnection] at hs
    split_ifs at hs with hidle
    simp only [Option.some.injEq, Prod.mk.injEq] at hs
    obtain ⟨rfl, rfl⟩ := hs
    obtain ⟨htype, hcalling, hpending⟩ := hsettled e' rfl
    have hrole := h.idle e' hidle
    have hdone : place e' = .done := h.done_of_complete hrole (by
      rw [show (s.view e').ev.type = .readed from htype]
      decide)
    have hfits := h.fits e'
    rw [hdone] at hfits
    have htokens : (s.view e').tokens = 0 := by
      have h1 : (s.view e').calling = 0 := List.count_eq_zero.mpr hcalling
      have h2 : (s.view e').pending = 0 := List.count_eq_zero.mpr hpending
      have h3 := hfits.2.2
      unfold View.tokens
      omega
    refine ⟨?_, Or.inr hdone, rfl, rfl, rfl, rfl, rfl, rfl, fun x => ?_⟩
    swap
    · simp only [modifyEvent, Events.modify_apply]
      split_ifs
      · exact hgroup' _
      · rfl
    have hview : ∀ x, (({ s.modifyEvent e' fun ev => (ev.reset 0).setType .towrite with idle := s.idle.erase e' } :
        Framework).modifyEvent e' g).view x =
        if x = e' then { s.view x with ev := g (((s.view x).ev.reset 0).setType .towrite) } else s.view x := by
      intro x
      rw [view_modifyEvent]
      have := view_modifyEvent (s := s) (e := e') (fun ev => (ev.reset 0).setType .towrite) x
      split_ifs at this ⊢
      · exact congrArg (fun v : View => { v with ev := g v.ev }) this
      · exact this
    have hself := (hview e').trans (if_pos rfl)
    refine h.change rfl rfl List.erase_subset (fun q hq => Or.inl hq) (fun x hx => (hview x).trans (if_neg hx))
      (by rw [hself]; exact hrole' _) (h.lt (by simp [hdone])) ?_ ?_ (by simp) (by simp [hdone]) ?_ fun _ _ _ => Iff.rfl
    · rw [hself]
      refine ⟨(hrole' _).trans hrole, howned _ rfl, ?_, htokens⟩
      show Prepared (g _).type
      rw [htype']
      exact show Prepared .towrite by decide
    · intro i hi
      have := h.fresh i e' hi
      rw [hdone] at this
      cases this
    · intro i
      rw [h.mem_waits i e', hdone]
      simp
  | none =>
    simp only [Framework.initConnection, Option.some.injEq, Prod.mk.injEq] at hs
    obtain ⟨rfl, rfl⟩ := hs
    rw [modifyEvent_newEvent]
    refine ⟨?_, Or.inl (h.unused _ le_rfl), rfl, rfl, rfl, rfl, rfl, rfl, fun x => ?_⟩
    swap
    · simp only [Framework.newEvent, Function.update_apply]
      split_ifs
      · exact hgroup' _
      · rfl
    refine h.newEvent ⟨hrole' _, howned _ rfl, ?_, rfl⟩ (by simp)
    show Prepared (g _).type
    rw [htype']
    exact show Prepared .connect by decide

theorem EventsInv.connect (h : EventsInv callback place waits s) {reuse : Option Nat} {channel : Nat}
    (hsettled : ∀ e ∈ reuse, s.Settled e) (hstill : s.Still f)
    (hs : s.initConnection reuse channel = some (e, s')) :
    EventsInv callback (Function.update place e (.fresh f)) waits
      ((s'.modifyEvent e fun ev => ev.setExecutor f).addCallback f (.addEvent e)) := by
  rw [addCallback_of_still (show Still (s'.modifyEvent e _) f from (still_of_initConnection hs).mpr hstill)]
  obtain ⟨h₁, hplace, hconn⟩ := h.initConnection hsettled hs f (Or.inl rfl)
  have hfib : (s'.modifyEvent e fun ev => ev.setExecutor f).fibers f = s.fibers f :=
    congrFun hconn.fibers f
  have hgrows : (s.fibers f).Grows := h.grows f
  have hadded := Fiber.fresh_addCallback (s.fibers f).toFiber hgrows (.addEvent e)
  have hfree : .addEvent e ∉ (s.fibers f).fresh := by
    intro hmem
    have := h.fresh f e hmem
    rcases hplace with hp | hp <;> rw [hp] at this <;> cases this
  have hself : Function.update place e (.fresh f) e = .fresh f := Function.update_self ..
  refine h₁.setFiber ?_ ?_ ?_ ?_ ?_ ?_
  · intro x hx
    rw [hfib, hadded, List.mem_append, List.mem_singleton] at hx
    rcases hx with hx | hx
    · exact h₁.fresh f x (hfib ▸ hx)
    · cases hx
      exact hself
  · intro x
    rw [hfib, hadded, List.count_append, List.count_singleton]
    by_cases hx : x = e
    · rw [hx, List.count_eq_zero.mpr hfree]
      simp
    · simpa [Ne.symm hx] using h.fresh_once f x
  · rw [hfib]
    exact Fiber.Grows.addCallback hgrows _
  · intro x hx
    rw [hfib] at hx
    simp only [Executor.addCallback, List.mem_append, List.mem_singleton] at hx
    rcases hx with hx | hx
    · exact h₁.client f x (hfib ▸ hx)
    · cases hx
      have hfits := h₁.fits e
      rw [hself] at hfits
      exact hfits.1
  · intro x hx
    exact h₁.awaited f x hx
  · intro x htask hdel
    exact h₁.serving f x htask hdel

theorem EventsInv.close (h : EventsInv callback place waits s) (hs : s.close f e = some s') : EventsInv callback place waits s' := by
  simp only [Framework.close] at hs
  split_ifs at hs with hguard
  rw [Option.some.injEq] at hs
  refine hs ▸ h.same rfl rfl (fun x hx => ?_) rfl fun _ => rfl
  rcases List.mem_append.mp hx with hx | hx
  · exact h.idle x hx
  · rw [List.mem_singleton.mp hx]
    exact hguard.2.1

/-! ### Fibers -/

theorem EventsInv.newFiber (h : EventsInv callback place waits s) {x : TaskFiber}
    (hplace : ∀ e, place e ≠ .awaited s.actor.nextFiber) (htask : ∀ e, x.task ≠ .request e) (hgrows : x.Grows)
    (hfresh : ∀ e, .addEvent e ∈ x.fresh → place e = .fresh s.actor.nextFiber)
    (honce : ∀ e, x.fresh.count (.addEvent e) ≤ 1)
    (hclient : ∀ e, .addEvent e ∈ x.executor.callbacks → (s.view e).ev.role = .client) :
    EventsInv callback place waits (s.newFiber x) := by
  have hsame : EventsInv callback place waits
      { s with actor := { s.actor with nextFiber := s.actor.nextFiber + 1 }.addFiber s.actor.nextFiber 0 } :=
    h.same rfl rfl h.idle rfl fun _ => rfl
  refine hsame.setFiber hfresh honce hgrows hclient ?_ ?_
  · intro e he
    exact absurd he (hplace e)
  · intro e he
    exact absurd he (htask e)

theorem EventsInv.spawn (h : EventsInv callback place waits s) (hplace : ∀ e, place e ≠ .awaited s.actor.nextFiber) :
    EventsInv callback place waits (s.newFiber {}) := by
  refine h.newFiber hplace (by simp) (Nat.zero_le _) ?_ ?_ ?_
  · simp [Fiber.fresh]
  · simp [Fiber.fresh]
  · simp

theorem EventsInv.fetchNoWait (h : EventsInv callback place waits s) (hcallback : callback) {reuse : Option Nat}
    {channel : Nat} (hplace : ∀ e, place e ≠ .awaited s.actor.nextFiber) (hsettled : ∀ e ∈ reuse, s.Settled e)
    (hs : s.initConnection reuse channel = some (e, s')) :
    EventsInv callback (Function.update place e (.fresh s.actor.nextFiber)) waits
      (s'.newFiber { task := .client e, executor := Executor.addCallback {} (.addEvent e) }) := by
  obtain ⟨h₁, -, hconn⟩ := h.initConnection hsettled hs s.actor.nextFiber (Or.inr ⟨hcallback, rfl⟩)
  have hnext : s'.actor.nextFiber = s.actor.nextFiber := hconn.nextFiber
  have hself : Function.update place e (.fresh s.actor.nextFiber) e = .fresh s.actor.nextFiber := Function.update_self ..
  rw [modifyEvent_id] at h₁
  refine h₁.newFiber ?_ (by simp) (Nat.zero_le _) ?_ ?_ ?_
  · intro x
    rw [hnext]
    by_cases hx : x = e
    · rw [hx, hself]
      simp
    · rw [Function.update_of_ne hx]
      exact hplace x
  · intro x hx
    simp only [Fiber.fresh, Fiber.fired, Executor.addCallback] at hx
    simp only [List.nil_append, List.getLastD_nil, List.length_nil, List.drop_zero, List.mem_singleton] at hx
    cases hx
    rw [hself, hnext]
  · intro x
    refine List.count_le_length.trans ?_
    simp [Fiber.fresh, Executor.addCallback]
  · intro x hx
    simp only [Executor.addCallback, List.nil_append, List.mem_singleton] at hx
    cases hx
    have hfits := h₁.fits e
    rw [hself] at hfits
    exact hfits.1

theorem EventsInv.addJobs (h : EventsInv callback place waits s) {fibers : Nat → TaskFiber} {d : Nat}
    (hfibers : ∀ g, fibers g = s.fibers g ∨ fibers g = { task := .job d } ∧ ∀ e, place e ≠ .awaited g) :
    EventsInv callback place waits { s with fibers } := by
  constructor
  case fits => exact h.fits
  case unused => exact h.unused
  case fresh =>
    intro g e he
    rcases hfibers g with heq | ⟨heq, -⟩ <;> simp only [heq] at he
    · exact h.fresh g e he
    · simp [Fiber.fresh] at he
  case fresh_once =>
    intro g e
    rcases hfibers g with heq | ⟨heq, -⟩ <;> simp only [heq]
    · exact h.fresh_once g e
    · simp [Fiber.fresh]
  case grows =>
    intro g
    rcases hfibers g with heq | ⟨heq, -⟩ <;> simp only [heq]
    · exact h.grows g
    · exact Nat.zero_le _
  case client =>
    intro g e he
    rcases hfibers g with heq | ⟨heq, -⟩ <;> simp only [heq] at he
    · exact h.client g e he
    · cases he
  case awaited =>
    intro g e he
    rcases hfibers g with heq | ⟨-, hnot⟩
    · simp only [heq]
      exact h.awaited g e he
    · exact absurd he (hnot e)
  case mem_waits => exact h.mem_waits
  case serving =>
    intro g e htask hdel
    rcases hfibers g with heq | ⟨heq, -⟩ <;> simp only [heq] at htask hdel ⊢
    · exact h.serving g e htask hdel
    · cases htask
  case idle => exact h.idle
  case requests => exact h.requests

theorem EventsInv.run (h : EventsInv callback place waits s) {poolId : Nat} (hs : s.run f poolId = some s') :
    EventsInv callback place waits s' := by
  simp only [Framework.run] at hs
  split_ifs at hs with hguard
  obtain ⟨-, -, -, hrunnable⟩ := hguard
  rw [Option.some.injEq] at hs
  subst hs
  have hsame : EventsInv callback place waits { s with actor := { s.actor with pool := s.actor.pool.erase (f, poolId) } } :=
    h.same rfl rfl h.idle rfl fun _ => rfl
  refine hsame.setFiber (h.fresh f) (h.fresh_once f) (h.grows f) (h.client f) (h.awaited f) ?_
  intro e htask hdel
  refine (h.serving f e htask hdel).imp_right fun hclient => ?_
  rw [show (s.fibers f).task = .request e from htask] at hrunnable
  exact absurd hclient.1 hrunnable

theorem EventsInv.done_of_old {x : Nat} (h : EventsInv callback place waits s) (hold : s.OldComplete f)
    (hx : .addEvent x ∈ (s.fibers f).old) : place x = .done := by
  refine h.done_of_complete (h.client f x ?_) ?_
  · rw [← Fiber.old_append_fresh]
    exact List.mem_append_left _ hx
  · have htype : (s.view x).ev.type = .readed ∨ (s.view x).ev.type = .fail := hold x hx
    rcases htype with htype | htype <;> rw [htype] <;> decide

theorem EventsInv.count_of_fresh {x : Nat} (h : EventsInv callback place waits s) (hold : s.OldComplete f)
    (hx : .addEvent x ∈ (s.fibers f).fresh) : (s.fibers f).executor.callbacks.count (.addEvent x) = 1 := by
  have hnot : .addEvent x ∉ (s.fibers f).old := by
    intro hmem
    have := (h.fresh f x hx).symm.trans (h.done_of_old hold hmem)
    cases this
  have hle := h.fresh_once f x
  have hpos := List.count_pos_iff.mpr hx
  rw [← Fiber.old_append_fresh, List.count_append, List.count_eq_zero.mpr hnot]
  omega

theorem EventsInv.count_of_not_fresh {x : Nat} (h : EventsInv callback place waits s) (hold : s.OldComplete f)
    (hx : .addEvent x ∉ (s.fibers f).fresh) (hne : place x ≠ .done) :
    (s.fibers f).executor.callbacks.count (.addEvent x) = 0 := by
  rw [← Fiber.old_append_fresh, List.count_append, List.count_eq_zero.mpr hx,
    List.count_eq_zero.mpr fun hmem => hne (h.done_of_old hold hmem)]

theorem EventsInv.block (h : EventsInv callback place waits s) (hnone : waits f = []) (hold : s.OldComplete f) :
    EventsInv callback (fun x => if .addEvent x ∈ (s.fibers f).fresh then .awaited f else place x)
      (Function.update waits f (s.freshEvents f)) (s.block f) := by
  have hnotAwaited : ∀ x, place x ≠ .awaited f := by
    intro x hx
    have := (h.mem_waits f x).mpr hx
    rw [hnone] at this
    cases this
  constructor
  case fits =>
    intro x
    have hfits := h.fits x
    rw [view_block]
    split_ifs with hmem
    · rw [h.fresh f x hmem] at hfits
      obtain ⟨hrole, hexec, hprep, htokens⟩ := hfits
      unfold View.tokens at htokens
      refine ⟨hrole, hexec, hprep.pending, fun _ => hprep, ?_⟩
      show (s.view x).calling + (s.fibers f).executor.callbacks.count (.addEvent x) + (s.view x).pending +
        (s.view x).registered = 1
      rw [h.count_of_fresh hold hmem]
      omega
    · by_cases hd : place x = .done
      · rw [hd] at hfits ⊢
        exact hfits
      · rw [h.count_of_not_fresh hold hmem hd]
        exact hfits
  case unused =>
    intro x hx
    have habsent := h.unused x hx
    rw [if_neg]
    · exact habsent
    · intro hmem
      have := (h.fresh f x hmem).symm.trans habsent
      cases this
  case fresh =>
    intro g x hx
    by_cases hg : g = f
    · subst hg
      rw [block_self, Fiber.fresh_block] at hx
      cases hx
    · rw [block_other hg] at hx
      have hplace := h.fresh g x hx
      rw [if_neg]
      · exact hplace
      · intro hmem
        rw [h.fresh f x hmem, Place.fresh.injEq] at hplace
        exact hg hplace.symm
  case fresh_once =>
    intro g x
    by_cases hg : g = f
    · subst hg
      rw [block_self, Fiber.fresh_block]
      simp
    · rw [block_other hg]
      exact h.fresh_once g x
  case grows =>
    intro g
    by_cases hg : g = f
    · subst hg
      rw [block_self]
      exact Fiber.grows_block _
    · rw [block_other hg]
      exact h.grows g
  case client =>
    intro g x hx
    by_cases hg : g = f
    · subst hg
      rw [block_self] at hx
      exact h.client g x hx
    · rw [block_other hg] at hx
      exact h.client g x hx
  case awaited =>
    intro g x hx
    split_ifs at hx with hmem
    · cases hx
      rw [block_self, Fiber.awaited_block]
      exact hmem
    · have hg : g ≠ f := by
        rintro rfl
        exact hnotAwaited x hx
      rw [block_other hg]
      exact h.awaited g x hx
  case mem_waits =>
    intro g x
    by_cases hg : g = f
    · subst hg
      rw [Function.update_self, mem_freshEvents]
      split_ifs with hmem
      · exact iff_of_true hmem rfl
      · exact iff_of_false hmem (hnotAwaited x)
    · rw [Function.update_of_ne hg, h.mem_waits g x]
      split_ifs with hmem
      · rw [h.fresh f x hmem]
        exact iff_of_false (by simp) (by simpa using Ne.symm hg)
      · rfl
  case serving =>
    intro g x htask hdel
    have hserving : place x = .request g ∨ (s.view x).ev.role = .client ∧ ((s.block f).fibers g).status ≠ .running := by
      by_cases hg : g = f
      · subst hg
        rw [block_self] at htask hdel ⊢
        exact (h.serving g x htask hdel).imp_right fun hclient => ⟨hclient.1, by simp [Fiber.afterYield]⟩
      · rw [block_other hg] at htask hdel ⊢
        exact h.serving g x htask hdel
    rw [view_block]
    refine hserving.imp_left fun hplace => ?_
    rw [if_neg]
    · exact hplace
    · intro hmem
      have := (h.fresh f x hmem).symm.trans hplace
      cases this
  case idle => exact h.idle
  case requests => exact h.requests

theorem EventsInv.ended (h : EventsInv callback place waits s) :
    EventsInv callback place waits (s.modifyFiber f fun x => { x with toFiber := x.afterYield .exit }) := by
  refine h.setFiber (h.fresh f) (h.fresh_once f) (h.grows f) (h.client f) (h.awaited f) ?_
  intro e _ hdel
  cases hdel

theorem EventsInv.answered (h : EventsInv callback place waits s) (hplace : place e = .request f)
    (hgone : ∀ g, (s.fibers g).task = .request e → (s.fibers g).deleted = false → g ≠ f) :
    EventsInv callback (Function.update place e .server) waits ((s.modifyEvent e fun ev => ev.setType .towrite).addEvent e l) := by
  have hfits := h.fits e
  rw [hplace] at hfits
  obtain ⟨hrole, -, htokens⟩ := hfits
  unfold View.tokens at htokens
  have hview : ∀ x, ((s.modifyEvent e fun ev => ev.setType .towrite).addEvent e l).view x =
      if x = e then { s.view x with ev := (s.view x).ev.setType .towrite, pending := (s.view x).pending + 1 }
      else s.view x := by
    intro x
    rw [view_addEvent, view_modifyEvent]
    split_ifs <;> rfl
  have hself := (hview e).trans (if_pos rfl)
  refine h.change rfl rfl (List.Subset.refl _) (fun q hq => Or.inl hq) (fun x hx => (hview x).trans (if_neg hx))
    (by rw [hself]; rfl) (h.lt (by simp [hplace])) ?_ ?_ (by simp) ?_ ?_ fun _ _ _ => Iff.rfl
  · rw [hself]
    refine ⟨hrole, show (s.view e).calling = 0 by omega, ?_, Or.inr ⟨show EventType.towrite ∈ _ by decide, fun _ => rfl⟩⟩
    show (s.view e).calling + ((s.view e).pending + 1) + (s.view e).registered = 1
    omega
  · intro g hg
    have := (h.fresh g e hg).symm.trans hplace
    cases this
  · intro g htask hdel hserving
    have hsame := hserving.symm.trans hplace
    rw [Place.request.injEq] at hsame
    exact absurd hsame (hgone g htask hdel)
  · intro g
    rw [h.mem_waits g e, hplace]
    simp

/-! ### The loops -/

theorem EventsInv.forward (h : EventsInv callback place waits s) {i : Nat} (hs : s.forward i l = some s') :
    EventsInv callback (Function.update place s.nextEvent .done) waits s' := by
  obtain ⟨e, -, -, rfl⟩ := forward_eq_some hs
  let copy : Event := { seqid := 1, role := .client, channel := (s.actor.events e).channel }
  have h₁ : EventsInv callback (Function.update place s.nextEvent .done) waits (s.newEvent (copy.setForward.setType .writed)) :=
    h.newEvent ⟨rfl, show EventType.writed ∈ _ by decide, rfl⟩ (by simp)
  have hview := view_addEvent (s := s.newEvent (copy.setForward.setType .writed)) (e := s.nextEvent) (l := l)
  have hself : (s.forwardEvent e l).view s.nextEvent = _ := (hview s.nextEvent).trans (if_pos rfl)
  refine h₁.stay rfl rfl (List.Subset.refl _) rfl (fun x hx => (hview x).trans (if_neg hx)) (by rw [hself])
    (Nat.lt_succ_self _) ?_
  have hfits := h₁.fits s.nextEvent
  rw [Function.update_self] at hfits ⊢
  rw [hself]
  exact hfits

theorem EventsInv.call (h : EventsInv callback place waits s) {i : Nat} (hs : s.call i l = some s') :
    EventsInv callback place waits s' := by
  rcases call_eq_some hs with ⟨e, hcurrent, rfl⟩ | ⟨d, hcurrent, rfl⟩
  · have hcalling : 0 < (s.view e).calling := List.count_pos_iff.mpr (mem_calling hcurrent)
    have hview := view_advance_addEvent hcurrent (l := l)
    have hself := (hview e).trans (if_pos rfl)
    have hfits := h.fits e
    have hplace := h.place_of_calling hcalling
    refine h.stay rfl rfl (List.Subset.refl _) rfl
      (fun x hx => (hview x).trans (if_neg hx)) (by rw [hself]) (h.lt ?_) ?_
    · rcases hplace with ⟨f, hp⟩ | hp <;> simp [hp]
    · rw [hself]
      rcases hplace with ⟨f, hp⟩ | hp <;> rw [hp] at hfits ⊢
      · obtain ⟨hrole, hexec, htype, hprep, htokens⟩ := hfits
        unfold View.tokens at htokens
        refine ⟨hrole, hexec, htype, hprep, ?_⟩
        show (s.view e).calling - 1 + ((s.view e).pending + 1) + (s.view e).registered = 1
        omega
      · exact hfits
  · exact h.same rfl rfl h.idle rfl fun x => view_advance_schedule hcurrent x

theorem EventsInv.endWalk (h : EventsInv callback place waits s) {i : Nat} (hs : s.endWalk i = some s') :
    EventsInv callback place waits s' := by
  obtain ⟨-, heq⟩ := endWalk_calling hs
  have hview := view_endWalk hs
  rw [heq] at hview ⊢
  exact h.same rfl rfl h.idle rfl hview

theorem EventsInv.dispatch (h : EventsInv callback place waits s) (hs : s.dispatch l e = some s') :
    EventsInv callback place waits s' := by
  simp only [Framework.dispatch] at hs
  split_ifs at hs with hmem
  rw [Option.some.injEq] at hs
  have hpending : 0 < (s.view e).pending := mem_snd hmem
  have hplace := h.place_of_loop (Or.inl hpending)
  have hfits := h.fits e
  have hlt : e < s.nextEvent := h.lt (by rcases hplace with ⟨f, hp⟩ | hp | hp <;> simp [hp])
  have hkeep : s'.fibers = s.fibers ∧ s'.nextEvent = s.nextEvent ∧ s'.idle = s.idle ∧ s'.actor = s.actor := by
    rw [← hs]
    simp
  by_cases htype : Dispatchable (s.view e).ev.type
  · have hnew : (s.view e).registered = 0 ∧ (s.view e).tokens = 1 := by
      rcases hplace with ⟨f, hp⟩ | hp | hp <;> rw [hp] at hfits
      · have := hfits.2.2.2.2
        exact ⟨by unfold View.tokens at this; omega, this⟩
      · exact absurd htype hfits.2.1.not_dispatchable
      · have := hfits.2.2.1
        exact ⟨by unfold View.tokens at this; omega, this⟩
    have hview : ∀ x, s'.view x = _ := fun x =>
      (congrArg (view · x) hs).symm.trans (view_take_dispatchEvent hmem htype hnew.1 x)
    have hself := (hview e).trans (if_pos rfl)
    refine h.stay hkeep.1 hkeep.2.1 (by rw [hkeep.2.2.1]; exact List.Subset.refl _) (by rw [hkeep.2.2.2])
      (fun x hx => (hview x).trans (if_neg hx)) (by rw [hself]) hlt ?_
    have htokens := hnew.2
    unfold View.tokens at htokens
    have htokens' : (s.view e).calling + ((s.view e).pending - 1) + ((s.view e).registered + 1) = 1 := by omega
    rw [hself]
    rcases hplace with ⟨f, hp⟩ | hp | hp <;> rw [hp] at hfits ⊢
    · exact ⟨hfits.1, hfits.2.1, hfits.2.2.1, fun hz => absurd hz (Nat.succ_ne_zero _), htokens'⟩
    · exact absurd htype hfits.2.1.not_dispatchable
    · obtain ⟨hrole, hcalling, -, hcase⟩ := hfits
      refine ⟨hrole, hcalling, htokens', ?_⟩
      rcases hcase with ⟨-, -, hone⟩ | ⟨htype', -⟩
      · omega
      · exact Or.inr ⟨htype', fun hz => absurd hz (Nat.succ_ne_zero _)⟩
  · have hview : ∀ x, s'.view x = if x = e then { s.view x with pending := (s.view x).pending - 1 } else s.view x := by
      intro x
      have hdrop := view_dispatchEvent_dropped (s := { s with pending := s.pending.erase (l, e) }) (e := e) (l := l) htype x
      rw [← hs, hdrop, view_take hmem]
    have hself := (hview e).trans (if_pos rfl)
    refine h.stay hkeep.1 hkeep.2.1 (by rw [hkeep.2.2.1]; exact List.Subset.refl _) (by rw [hkeep.2.2.2])
      (fun x hx => (hview x).trans (if_neg hx)) (by rw [hself]) hlt ?_
    rw [hself]
    rcases hplace with ⟨f, hp⟩ | hp | hp <;> rw [hp] at hfits ⊢
    · have htokens := hfits.2.2.2.2
      have hprep := hfits.2.2.2.1 (by unfold View.tokens at htokens; omega)
      exact absurd hprep.dispatchable htype
    · exact hfits
    · obtain ⟨-, -, htokens, hcase⟩ := hfits
      unfold View.tokens at htokens
      rcases hcase with ⟨-, -, hone⟩ | ⟨-, htowrite⟩
      · omega
      · rw [htowrite (by omega)] at htype
        exact absurd (by decide) htype

theorem EventsInv.accept (h : EventsInv callback place waits s) (l channel : Nat) :
    EventsInv callback (Function.update place s.nextEvent .server) waits (s.accept l channel) := by
  set ev : Event := { seqid := 1, type := .next, role := .server, channel } with hev
  have h₁ : EventsInv callback (Function.update place s.nextEvent .gone) waits (s.newEvent ev) := h.newEvent ⟨rfl, rfl⟩ (by simp)
  have hfits := h₁.fits s.nextEvent
  rw [Function.update_self] at hfits
  obtain ⟨hrole, htokens⟩ := hfits
  unfold View.tokens at htokens
  have hevent : (s.newEvent ev).actor.events s.nextEvent = ev := Function.update_self ..
  have htype : Dispatchable ((s.newEvent ev).actor.events s.nextEvent).type := by
    rw [hevent]
    exact show Dispatchable .next by decide
  have hview := view_dispatchEvent htype (l := l) (notMem_registered (s := s.newEvent ev) (e := s.nextEvent) (by omega))
  have hself := (hview s.nextEvent).trans (if_pos rfl)
  rw [← Function.update_idem (a := s.nextEvent) (v := Place.gone)]
  refine h₁.change dispatchEvent_fibers dispatchEvent_nextEvent
    (by rw [Framework.accept, dispatchEvent_idle]; exact List.Subset.refl _)
    (fun q hq => Or.inl (by rwa [Framework.accept, dispatchEvent_actor] at hq))
    (fun x hx => (hview x).trans (if_neg hx)) (by rw [Framework.accept, ← hev, hself]) (Nat.lt_succ_self _) ?_ ?_ (by simp)
    ?_ ?_ fun _ _ _ => Iff.rfl
  · rw [Framework.accept, ← hev, hself]
    refine ⟨hrole, show ((s.newEvent ev).view s.nextEvent).calling = 0 by omega, ?_, Or.inl ⟨?_, ?_, ?_⟩⟩
    · show ((s.newEvent ev).view s.nextEvent).calling + ((s.newEvent ev).view s.nextEvent).pending +
        (((s.newEvent ev).view s.nextEvent).registered + 1) = 1
      omega
    · show ((s.newEvent ev).actor.events s.nextEvent).type ∈ _
      rw [hevent]
      simp [hev]
    · show ((s.newEvent ev).actor.events s.nextEvent).executor = none
      rw [hevent]
    · show ((s.newEvent ev).view s.nextEvent).registered + 1 = 1
      omega
  · intro f hf
    have := h₁.fresh f _ hf
    rw [Function.update_self] at this
    cases this
  · intro f _ _ hserving
    rw [Function.update_self] at hserving
    cases hserving
  · intro f
    rw [h₁.mem_waits f s.nextEvent, Function.update_self]
    simp

/-! ### The handler -/

theorem apply_client (a : Action) {ev : Event} (hrole : ev.role = .client) :
    (a.apply ev).1 = ev.setType (a.apply ev).1.type ∧
      (((a.apply ev).2 = .stays ∨ (a.apply ev).2 = .dispatched) ∧ Pending (a.apply ev).1.type ∨
        (a.apply ev).2 = .executed ∧ Complete (a.apply ev).1.type) := by
  have hserver : ¬ ev.role = .server := by simp [hrole]
  cases a <;> simp only [Action.apply, if_pos hrole, if_neg hserver]
  case connected => exact ⟨rfl, Or.inl ⟨Or.inl trivial, show Pending .towrite by decide⟩⟩
  case read => exact ⟨rfl, Or.inl ⟨Or.inl trivial, show Pending .reading by decide⟩⟩
  case readed => exact ⟨rfl, Or.inr ⟨trivial, show Complete .readed by decide⟩⟩
  case write => exact ⟨rfl, Or.inl ⟨Or.inl trivial, show Pending .writing by decide⟩⟩
  case writed => exact ⟨rfl, Or.inl ⟨Or.inr trivial, show Pending .toread by decide⟩⟩
  case close => exact ⟨rfl, Or.inr ⟨trivial, show Complete .fail by decide⟩⟩

theorem EventsInv.goesOn (h : EventsInv callback place waits s) (hp : place e = .awaited f) (hmem : (l, e) ∈ s.registered)
    {ev : Event} (hev : ev = (s.view e).ev.setType ev.type) (htype : Pending ev.type) (hfibers : s'.fibers = s.fibers)
    (hnext : s'.nextEvent = s.nextEvent) (hidle : s'.idle = s.idle) (hrequests : s'.actor.requests = s.actor.requests)
    (hview : ∀ x, s'.view x = if x = e then { s.view x with ev } else s.view x) : EventsInv callback place waits s' := by
  have hregistered : 0 < (s.view e).registered := mem_snd hmem
  have hself := (hview e).trans (if_pos rfl)
  have hfits := h.fits e
  rw [hp] at hfits
  obtain ⟨hrole, hexec, -, -, htokens⟩ := hfits
  have hrole' : ev.role = (s.view e).ev.role := by rw [hev]; rfl
  have howned : Owned callback ev f := by
    rw [hev]
    exact hexec
  refine h.stay hfibers hnext (by rw [hidle]; exact List.Subset.refl _) hrequests
    (fun x hx => (hview x).trans (if_neg hx)) (by rw [hself]; exact hrole') (h.lt (by simp [hp])) ?_
  rw [hself, hp]
  refine ⟨hrole'.trans hrole, howned, htype, fun hz => ?_, htokens⟩
  have hz : (s.view e).registered = 0 := hz
  omega

theorem EventsInv.completed (h : EventsInv callback place waits s) (hp : place e = .awaited f) (hmem : (l, e) ∈ s.registered)
    (hnodup : (waits f).Nodup) {ev : Event} (hev : ev = (s.view e).ev.setType ev.type) (htype : Complete ev.type) :
    EventsInv callback (Function.update place e .done) (Function.update waits f ((waits f).erase e)) (s.unregister l e ev) := by
  have hview := view_handled hmem ev
  have hself := (hview e).trans (if_pos rfl)
  have hfits := h.fits e
  rw [hp] at hfits
  obtain ⟨hrole, -, -, -, htokens⟩ := hfits
  have hrole' : ev.role = (s.view e).ev.role := by rw [hev]; rfl
  refine h.change rfl rfl (List.Subset.refl _) (fun q hq => Or.inl hq) (fun x hx => (hview x).trans (if_neg hx))
    (by rw [hself]; exact hrole') (h.lt (by simp [hp])) ?_ ?_ (by simp) ?_ ?_ ?_
  · rw [hself]
    refine ⟨hrole'.trans hrole, htype, ?_⟩
    have : 0 < (s.view e).registered := mem_snd hmem
    unfold View.tokens at htokens
    show (s.view e).registered - 1 = 0
    omega
  · intro g hg
    have := (h.fresh g e hg).symm.trans hp
    cases this
  · intro g _ _ hserving
    have := hserving.symm.trans hp
    cases this
  · intro g
    refine iff_of_false ?_ (by simp)
    by_cases hg : g = f
    · subst hg
      rw [Function.update_self]
      exact fun hmem => (hnodup.mem_erase_iff.mp hmem).1 rfl
    · rw [Function.update_of_ne hg, h.mem_waits, hp]
      simpa using Ne.symm hg
  · intro g x hx
    by_cases hg : g = f
    · subst hg
      rw [Function.update_self]
      exact List.mem_erase_of_ne hx
    · rw [Function.update_of_ne hg]

/-- The types of an event that a loop of the server has, and whether a request is over. -/
def ServerTypes (ev : Event) : Prop :=
  ev.type ∈ [.next, .reading] ∧ ev.executor = none ∨ ev.type ∈ [.towrite, .writing]

theorem apply_server {a : Action} {ev : Event} (hrole : ev.role = .server) (hpossible : a.Possible ev.type)
    (htype : ServerTypes ev) :
    ((a.apply ev).2 = .stays ∨ (a.apply ev).2 = .dispatched) ∧ ServerTypes (a.apply ev).1 ∨
      (a.apply ev).2 = .executed ∧ (a.apply ev).1.executor = none ∨ (a.apply ev).2 = .deleted := by
  have hclient : ¬ ev.role = .client := by simp [hrole]
  have hnone : ev.type ∈ [.next, .toread, .reading] → ev.executor = none := by
    intro hread
    rcases htype with ht | ht
    · exact ht.2
    · simp only [List.mem_cons, List.not_mem_nil, or_false] at hread ht
      rcases hread with h1 | h1 | h1 <;> simp [h1] at ht
  cases a <;> simp only [Action.apply, if_pos hrole, if_neg hclient]
  case connected =>
    have hconnect : ev.type = .connect := hpossible
    simp [ServerTypes, hconnect] at htype
  case read => exact Or.inl ⟨Or.inl trivial, Or.inl ⟨show EventType.reading ∈ _ by decide, hnone hpossible⟩⟩
  case readed => exact Or.inr (Or.inl ⟨trivial, hnone hpossible⟩)
  case write => exact Or.inl ⟨Or.inl trivial, Or.inr (show EventType.writing ∈ _ by decide)⟩
  case writed => exact Or.inl ⟨Or.inr trivial, Or.inl ⟨show EventType.next ∈ _ by decide, rfl⟩⟩
  case close => exact Or.inr (Or.inr trivial)

theorem EventsInv.serverGoesOn (h : EventsInv callback place waits s) (hp : place e = .server) (hmem : (l, e) ∈ s.registered)
    {ev : Event} (hrole : ev.role = .server) (htype : ServerTypes ev) (hfibers : s'.fibers = s.fibers)
    (hnext : s'.nextEvent = s.nextEvent) (hidle : s'.idle = s.idle) (hrequests : s'.actor.requests = s.actor.requests)
    (hview : ∀ x, s'.view x = if x = e then { s.view x with ev } else s.view x) : EventsInv callback place waits s' := by
  have hregistered : 0 < (s.view e).registered := mem_snd hmem
  have hself := (hview e).trans (if_pos rfl)
  have hfits := h.fits e
  rw [hp] at hfits
  obtain ⟨hrole', hcalling, htokens, -⟩ := hfits
  have hone : (s.view e).registered = 1 := by
    unfold View.tokens at htokens
    omega
  refine h.stay hfibers hnext (by rw [hidle]; exact List.Subset.refl _) hrequests
    (fun x hx => (hview x).trans (if_neg hx)) (by rw [hself]; exact hrole.trans hrole'.symm) (h.lt (by simp [hp])) ?_
  rw [hself, hp]
  refine ⟨hrole, hcalling, htokens, ?_⟩
  rcases htype with ⟨ht, hnone⟩ | ht
  · exact Or.inl ⟨ht, hnone, hone⟩
  · exact Or.inr ⟨ht, fun hz => absurd (hone.symm.trans hz) (by decide)⟩

theorem EventsInv.serverLeaves (h : EventsInv callback place waits s) (hp : place e = .server) (hmem : (l, e) ∈ s.registered)
    {ev : Event} (hrole : ev.role = .server) :
    EventsInv callback (Function.update place e .gone) waits (s.unregister l e ev) := by
  have hview := view_handled hmem ev
  have hself := (hview e).trans (if_pos rfl)
  have hfits := h.fits e
  rw [hp] at hfits
  obtain ⟨hrole', hcalling, htokens, -⟩ := hfits
  refine h.change rfl rfl (List.Subset.refl _) (fun q hq => Or.inl hq) (fun x hx => (hview x).trans (if_neg hx))
    (by rw [hself]; exact hrole.trans hrole'.symm) (h.lt (by simp [hp])) ?_ ?_ (by simp) ?_ ?_ fun _ _ _ => Iff.rfl
  · rw [hself]
    refine ⟨hrole, ?_⟩
    have : 0 < (s.view e).registered := mem_snd hmem
    unfold View.tokens at htokens
    show (s.view e).calling + (s.view e).pending + ((s.view e).registered - 1) = 0
    omega
  · intro g hg
    have := (h.fresh g e hg).symm.trans hp
    cases this
  · intro g _ _ hserving
    have := hserving.symm.trans hp
    cases this
  · intro g
    rw [h.mem_waits, hp]
    simp

/-- An event without an executor becomes a request: one of the server that was read, or one of a client
in callback mode. -/
theorem EventsInv.newRequest (h : EventsInv callback place waits s) {p : Place}
    (hp : place e = .gone ∧ p = .request s.actor.nextFiber ∨ place e = .done ∧ p = .done ∧ callback)
    (hplace : ∀ x, place x ≠ .awaited s.actor.nextFiber) :
    EventsInv callback (Function.update place e p) waits { s with
      actor := s.actor.newRequest e
      fibers := Function.update s.fibers s.actor.nextFiber
        { task := .request e, executor := Executor.addSchedule {} (.addEvent e) } } := by
  have hview := view_newRequest (s := s) (e := e)
  have hself := (hview e).trans (if_pos rfl)
  have hfits := h.fits e
  have hnot : place e ≠ .absent ∧ (∀ g, place e ≠ .fresh g) ∧ (∀ g, place e ≠ .awaited g) ∧ (∀ g, place e ≠ .request g) := by
    rcases hp with ⟨hp, -⟩ | ⟨hp, -⟩ <;> simp [hp]
  have hnotAwaited : ∀ g, p ≠ .awaited g := by
    rcases hp with ⟨-, hp⟩ | ⟨-, hp, -⟩ <;> simp [hp]
  have h₁ : EventsInv callback (Function.update place e p) waits { s with actor := s.actor.newRequest e } := by
    refine h.change rfl rfl (List.Subset.refl _) ?_ (fun x hx => (hview x).trans (if_neg hx)) (by rw [hself]; rfl)
      (h.lt hnot.1) ?_ ?_ ?_ ?_ ?_ fun _ _ _ => Iff.rfl
    · intro q hq
      rcases List.mem_append.mp (show q ∈ s.actor.requests ++ [(s.actor.nextFiber, e)] from hq) with hq | hq
      · exact Or.inl hq
      · rw [List.mem_singleton.mp hq, hself]
        rcases hp with ⟨hp, -⟩ | ⟨-, -, hcallback⟩
        · rw [hp] at hfits
          exact Or.inr (Or.inl hfits.1)
        · exact Or.inr (Or.inr hcallback)
    · rw [hself]
      rcases hp with ⟨hp, rfl⟩ | ⟨hp, rfl, -⟩ <;> rw [hp] at hfits
      · exact ⟨hfits.1, rfl, hfits.2⟩
      · exact hfits
    · intro g hg
      exact absurd (h.fresh g e hg) (hnot.2.1 g)
    · intro g hg
      exact absurd hg (hnotAwaited g)
    · intro g _ _ hg
      exact absurd hg (hnot.2.2.2 g)
    · intro g
      rw [h.mem_waits]
      exact iff_of_false (hnot.2.2.1 g) (hnotAwaited g)
  refine h₁.setFiber ?_ ?_ (Nat.zero_le _) ?_ ?_ ?_
  · simp [Fiber.fresh, Executor.addSchedule]
  · simp [Fiber.fresh, Executor.addSchedule]
  · simp [Executor.addSchedule]
  · intro x hx
    by_cases hxe : x = e
    · rw [hxe, Function.update_self] at hx
      exact absurd hx (hnotAwaited _)
    · rw [Function.update_of_ne hxe] at hx
      exact absurd hx (hplace x)
  · intro x hx _
    cases hx
    rw [Function.update_self, hself]
    rcases hp with ⟨-, hp⟩ | ⟨hp, -, -⟩
    · exact Or.inl hp
    · rw [hp] at hfits
      exact Or.inr ⟨hfits.1, by simp⟩

end Raster.Framework
