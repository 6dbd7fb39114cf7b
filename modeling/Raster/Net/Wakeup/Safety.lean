import Raster.Net.Wakeup.Graphs

/-!
# Waking a fiber: every run

The four parts of the invariant together, step by step, and what follows for every run in which a fiber
waits for all that it hands over: a fiber is queued at most once and only while it is new or blocked, and
an event of a client that completes resumes the fiber that is blocked on it.
-/

namespace Raster.Framework

open Raster.Fiber (Callback)
open EventLoop (Dispatchable)

variable {callback : Prop} {place place' : Nat → Place} {waits : Nat → List Nat} {s s' : Framework} {e f d l : Nat}

/-! ### Steps of one fiber -/

theorem Inv.not_awaited (h : Inv callback place waits s) (e : Nat) : place e ≠ .awaited s.actor.nextFiber := by
  intro he
  have hmem := (h.events.mem_waits _ e).mpr he
  rw [h.fibers.waits_unused le_rfl] at hmem
  cases hmem

theorem Inv.notMem_waits (h : Inv callback place waits s) (he : ∀ f, place e ≠ .awaited f) (f : Nat) : e ∉ waits f := by
  rw [h.events.mem_waits]
  exact he f

theorem Inv.spawn (h : Inv callback place waits s) : Inv callback place waits (s.newFiber {}) where
  events := h.events.spawn h.not_awaited
  fibers := h.fibers.newFiber rfl rfl 0
  groups := by
    have hset := h.groups.setFiber (f := s.actor.nextFiber) (x := {}) (by simp [Fiber.fresh])
    exact hset.keep rfl (fun _ => Or.inl rfl) fun _ _ hx => Or.inr hx
  graphs := h.graphs.newFiber h.fibers (by simp) 0

theorem Inv.run (h : Inv callback place waits s) {poolId : Nat} (hs : s.run f poolId = some s') :
    Inv callback place waits s' where
  events := h.events.run hs
  fibers := h.fibers.run hs
  groups := by
    simp only [Framework.run] at hs
    split_ifs at hs
    rw [Option.some.injEq] at hs
    subst hs
    have hset := h.groups.setFiber (f := f) (x := { s.fibers f with toFiber := (s.fibers f).toFiber.activate })
      fun _ hx => Or.inr hx
    exact hset.keep rfl (fun _ => Or.inl rfl) fun _ _ hx => Or.inr hx
  graphs := h.graphs.run hs

theorem Inv.connection (h : Inv callback place waits s) (hconn : Connection s e s')
    (hplace : place e = .absent ∨ place e = .done) : FibersInv waits s' ∧ GroupsInv waits s' ∧ GraphsInv waits s' := by
  have hfree : ∀ g, e ∉ waits g := h.notMem_waits (by rcases hplace with hp | hp <;> simp [hp])
  refine ⟨h.fibers.same hconn.fibers hconn.pool hconn.nextFiber fun _ => id, ?_, ?_⟩
  · refine h.groups.keep hconn.group (fun x => ?_) fun _ _ hx => Or.inr (hconn.fibers ▸ hx)
    rw [hconn.events]
    split_ifs with hx
    · exact Or.inr ⟨rfl, hx ▸ hfree⟩
    · exact Or.inl rfl
  · refine h.graphs.same hconn.graphs hconn.fibers ?_ hconn.nextFiber.ge (fun _ => id) fun _ => by rw [hconn.calling]
    rw [queue, hconn.pool]
    exact List.Subset.refl _

theorem Inv.connect (h : Inv callback place waits s) {reuse : Option Nat} {channel : Nat}
    (hsettled : ∀ e ∈ reuse, s.Settled e) (hstill : s.Still f) (hs : s.connect f reuse channel = some s') :
    ∃ place', Inv callback place' waits s' := by
  unfold Framework.connect at hs
  split_ifs at hs with hrun
  split at hs
  · cases hs
  rename_i e s₁ hinit
  rw [Option.some.injEq] at hs
  subst hs
  obtain ⟨-, hplace, hconn⟩ := h.events.initConnection hsettled hinit f (Or.inl rfl)
  obtain ⟨hF, hG, hD⟩ := h.connection hconn hplace
  have hE := h.events.connect hsettled hstill hinit
  set s₂ := s₁.modifyEvent e fun ev => ev.setExecutor f
  have hstill₂ : s₂.Still f := (still_of_initConnection hinit).mpr hstill
  rw [addCallback_of_still hstill₂] at hE ⊢
  have hrun₂ : s₂.Running f := by
    rw [Running, hconn.fibers]
    exact hrun
  refine ⟨_, hE, ?_, ?_, ?_⟩
  · exact hF.setFiber (hF.lt_of_running hrun₂) (hF.waits_nil hrun₂) (hF.notMem_queue hrun₂) fun _ => hF.running f hrun₂
  · refine hG.setFiber fun x hx => ?_
    have hgrows : (s₂.fibers f).Grows := hconn.fibers ▸ h.events.grows f
    rw [Fiber.fresh_addCallback _ hgrows, List.mem_append, List.mem_singleton] at hx
    rcases hx with hx | hx
    · exact Or.inr hx
    · cases hx
      exact Or.inl ((hconn.events e).trans (if_pos rfl))
  · refine hD.setFiber hrun₂.not_blocked (fun _ => ⟨hrun₂.not_unstarted, rfl⟩) fun d hd => ?_
    rcases List.mem_append.mp (show .schedule d ∈ (s₂.fibers f).executor.callbacks ++ [_] from hd) with hd | hd
    · exact hd
    · cases List.mem_singleton.mp hd

theorem Inv.fetchNoWait (h : Inv callback place waits s) (hcallback : callback) {reuse : Option Nat} {channel : Nat}
    (hsettled : ∀ e ∈ reuse, s.Settled e) (hs : s.fetchNoWait reuse channel = some s') :
    ∃ place', Inv callback place' waits s' := by
  unfold Framework.fetchNoWait at hs
  split at hs
  · cases hs
  rename_i e s₁ hinit
  rw [Option.some.injEq] at hs
  subst hs
  obtain ⟨-, hplace, hconn⟩ := h.events.initConnection hsettled hinit s.actor.nextFiber (Or.inr ⟨hcallback, rfl⟩)
  rw [modifyEvent_id] at hconn
  obtain ⟨hF, hG, hD⟩ := h.connection hconn hplace
  refine ⟨_, h.events.fetchNoWait hcallback h.not_awaited hsettled hinit, hF.newFiber rfl rfl 0, ?_, ?_⟩
  · have hset := hG.setFiber (f := s₁.actor.nextFiber)
      (x := { task := .client e, executor := Executor.addCallback {} (.addEvent e) }) fun x hx => ?_
    · exact hset.keep rfl (fun _ => Or.inl rfl) fun _ _ hx => Or.inr hx
    · simp only [Fiber.fresh, Fiber.fired, Executor.addCallback, List.nil_append, List.getLastD_nil, List.length_nil,
        List.drop_zero, List.mem_singleton] at hx
      cases hx
      exact Or.inl ((hconn.events e).trans (if_pos rfl))
  · exact hD.newFiber hF (by simp [Executor.addCallback]) 0

theorem Inv.yield (h : Inv callback place waits s) (hfew : (s.fibers f).fresh.length ≤ 1) (hold : s.OldComplete f)
    (hs : s.yield f = some s') : ∃ place' waits', Inv callback place' waits' s' := by
  unfold Framework.yield at hs
  split_ifs at hs with hrun
  rw [Option.some.injEq] at hs
  subst hs
  exact ⟨_, _, h.events.block (h.fibers.waits_nil hrun) hold, (h.fibers.block hrun _).1, h.groups.block h.events hfew,
    h.graphs.block hrun _⟩

theorem Inv.yieldGroup (h : Inv callback place waits s) {events : List Nat}
    (hok : (∀ e ∈ events, (s.actor.events e).group = 0) →
      (∀ e, .addEvent e ∈ (s.fibers f).fresh → e ∈ events) ∧ s.OldComplete f)
    (hs : s.yieldGroup f events = some s') : ∃ place' waits', Inv callback place' waits' s' := by
  unfold Framework.yieldGroup at hs
  split_ifs at hs with hguard
  obtain ⟨hrun, hes⟩ := hguard
  split at hs
  · cases hs
  · rw [Option.some.injEq] at hs
    exact ⟨place, waits, hs ▸ h⟩
  rename_i actor hwait
  rw [Option.some.injEq] at hs
  subst hs
  have hnone := h.fibers.waits_nil hrun
  have hgroups := fun hall => h.groups.blockGroup h.events hnone (fun e he => (hes e he).1) hall hwait
  obtain ⟨hzero, i, group, -, rfl⟩ := Actor.waitGroup_made hwait
  obtain ⟨hall, hold⟩ := hok hzero
  set s₁ : Framework := { s with actor := { s.actor with group, events := Actor.setGroups s.actor.events i events } }
  have hview : ∀ x, ∃ k, s₁.view x = { s.view x with ev := (s.view x).ev.setGroup k } := by
    intro x
    refine ⟨(s₁.actor.events x).group, ?_⟩
    simp only [view, s₁, Actor.setGroups_apply]
    split_ifs <;> rfl
  have hE : EventsInv callback place waits s₁ := h.events.regroup rfl rfl rfl rfl hview
  have hF : FibersInv waits s₁ := h.fibers.same rfl rfl rfl fun _ => id
  have hD : GraphsInv waits s₁ := h.graphs.same rfl rfl (List.Subset.refl _) le_rfl (fun _ => id) fun _ => rfl
  have hold₁ : s₁.OldComplete f := by
    intro e he
    obtain ⟨k, hk⟩ := hview e
    have htype : (s₁.actor.events e).type = (s.actor.events e).type := congrArg (fun v : View => v.ev.type) hk
    rw [htype]
    exact hold e he
  exact ⟨_, _, hE.block hnone hold₁, (hF.block hrun _).1, hgroups hall, hD.block hrun _⟩

theorem Inv.runScheduler (h : Inv callback place waits s) {n : Nat} {edges : List (Nat × Nat)}
    (hnone : (s.fibers f).fresh = []) (hold : s.OldComplete f) (hstill : s.Still f)
    (hs : s.runScheduler f n edges = some s') : ∃ place', Inv callback place' waits s' := by
  have hD := h.graphs.runScheduler h.fibers hstill hs
  obtain ⟨hrun, -, g, src, dag, -, -, rfl⟩ := runScheduler_cases hstill hs
  have hf := h.fibers.lt_of_running hrun
  set x : ActorDAG := { owner := f, src, dag }
  have hself : (s.addGraph n x).fibers f = _ := addGraph_owner (x := x) hf
  have hfresh : ((s.addGraph n x).fibers f).fresh = [.schedule s.graphs.length] := by
    rw [hself, Fiber.fresh_addCallback _ (h.events.grows f), hnone]
    rfl
  have hevents : (s.addGraph n x).freshEvents f = [] := by
    simp [freshEvents, handedOver, hfresh]
  have hwaits : Function.update waits f ((s.addGraph n x).freshEvents f) = waits := by
    rw [hevents, ← h.fibers.waits_nil hrun, Function.update_eq_self]
  have hE : EventsInv callback place waits (s.addGraph n x) := h.events.addGraph (x := x) hf h.fibers
  have hF : FibersInv waits (s.addGraph n x) := h.fibers.addGraph (x := x) hf hrun
  have hG : GroupsInv waits (s.addGraph n x) := h.groups.addGraph (x := x) hf h.events
  have hrun₁ : (s.addGraph n x).Running f := by
    rw [Running, hself]
    exact hrun
  have hold₁ : (s.addGraph n x).OldComplete f := by
    intro e he
    rw [hself, Fiber.old_addCallback _ (h.events.grows f)] at he
    exact hold e he
  have hE' := hE.block (h.fibers.waits_nil hrun) hold₁
  have hF' := (hF.block hrun₁ ((s.addGraph n x).freshEvents f)).1
  have hG' := hG.block (f := f) hE (by simp [hfresh])
  rw [hwaits] at hE' hF' hG'
  exact ⟨_, hE', hF', hG', hD⟩

theorem Inv.exit (h : Inv callback place waits s) (hs : s.exit f l = some s') :
    ∃ place', Inv callback place' waits s' := by
  simp only [Framework.exit] at hs
  split_ifs at hs with hrun
  set s₁ := s.modifyFiber f fun x => { x with toFiber := x.afterYield .exit }
  have hE : EventsInv callback place waits s₁ := h.events.ended
  have hF : FibersInv waits s₁ := h.fibers.setFiber (h.fibers.lt_of_running hrun) (h.fibers.waits_nil hrun)
    (h.fibers.notMem_queue hrun) (by simp [Fiber.afterYield])
  have hG : GroupsInv waits s₁ := h.groups.setFiber fun _ hx => Or.inr hx
  have hD : GraphsInv waits s₁ := h.graphs.setFiber hrun.not_blocked (fun _ => ⟨hrun.not_unstarted, rfl⟩) fun _ hd => hd
  split at hs
  · rename_i e htask
    rw [Option.some.injEq] at hs
    subst hs
    have hplace : place e = .request f := by
      refine (h.events.serving f e htask (h.fibers.running f hrun)).resolve_right fun hclient => ?_
      exact hclient.2 hrun
    refine ⟨_, hE.answered hplace ?_, hF.same rfl rfl rfl fun _ => id, ?_, ?_⟩
    · rintro g - hdel rfl
      simp [s₁, modifyFiber, Fiber.afterYield] at hdel
    · refine hG.keep rfl (fun x => Or.inl ?_) fun _ _ hx => Or.inr hx
      simp only [Framework.addEvent, modifyEvent, Events.modify_apply]
      split_ifs <;> rfl
    · exact hD.same rfl rfl (List.Subset.refl _) le_rfl (fun _ => id) fun _ => rfl
  · rename_i d _
    rw [Option.some.injEq] at hs
    subst hs
    refine ⟨place, hE.same rfl rfl hE.idle rfl fun _ => rfl, hF.same rfl rfl rfl fun _ => id, ?_, hD.finish d f⟩
    exact hG.keep rfl (fun _ => Or.inl rfl) fun _ _ hx => Or.inr hx
  · rw [Option.some.injEq] at hs
    exact ⟨place, hs ▸ ⟨hE, hF, hG, hD⟩⟩

/-! ### Steps of the loops -/

theorem Inv.fibers_same (h : Inv callback place waits s) (hE : EventsInv callback place' waits s')
    (hfibers : s'.fibers = s.fibers) (hgraphs : s'.graphs = s.graphs) (hpool : s'.actor.pool = s.actor.pool)
    (hnext : s'.actor.nextFiber = s.actor.nextFiber) (hgroup : s'.actor.group = s.actor.group)
    (hevents : ∀ x, (s'.actor.events x).group = (s.actor.events x).group ∨
      (s'.actor.events x).group = 0 ∧ ∀ f, x ∉ waits f)
    (hcalling : ∀ d, s'.calling.count (.schedule d) = s.calling.count (.schedule d)) : Inv callback place' waits s' where
  events := hE
  fibers := h.fibers.same hfibers hpool hnext fun _ => id
  groups := h.groups.keep hgroup hevents fun _ _ hx => Or.inr (hfibers ▸ hx)
  graphs := by
    refine h.graphs.same hgraphs hfibers ?_ hnext.ge (fun _ => id) hcalling
    rw [queue, hpool]
    exact List.Subset.refl _

theorem Inv.close (h : Inv callback place waits s) (hs : s.close f e = some s') : Inv callback place waits s' := by
  have hE := h.events.close hs
  simp only [Framework.close] at hs
  split_ifs at hs
  rw [Option.some.injEq] at hs
  subst hs
  exact h.fibers_same hE rfl rfl rfl rfl rfl (fun _ => Or.inl rfl) fun _ => rfl

theorem Inv.newEvent_group (h : Inv callback place waits s) {ev : Event} (hgroup : ev.group = 0) (x : Nat) :
    ((s.newEvent ev).actor.events x).group = (s.actor.events x).group ∨
      ((s.newEvent ev).actor.events x).group = 0 ∧ ∀ f, x ∉ waits f := by
  simp only [Framework.newEvent, Function.update_apply]
  split_ifs with hx
  · refine Or.inr ⟨hgroup, hx ▸ h.notMem_waits ?_⟩
    simp [h.events.unused _ le_rfl]
  · exact Or.inl rfl

theorem Inv.forward (h : Inv callback place waits s) {i : Nat} (hs : s.forward i l = some s') :
    ∃ place', Inv callback place' waits s' := by
  have hE := h.events.forward hs
  obtain ⟨e, -, -, rfl⟩ := forward_eq_some hs
  exact ⟨_, h.fibers_same hE rfl rfl rfl rfl rfl (h.newEvent_group rfl) fun _ => rfl⟩

theorem Inv.accept (h : Inv callback place waits s) (l channel : Nat) :
    ∃ place', Inv callback place' waits (s.accept l channel) := by
  refine ⟨_, h.fibers_same (h.events.accept l channel) ?_ ?_ ?_ ?_ ?_ ?_ ?_⟩
  · rw [Framework.accept, dispatchEvent_fibers]
    rfl
  · rw [Framework.accept, dispatchEvent_graphs]
    rfl
  · rw [Framework.accept, dispatchEvent_actor]
    rfl
  · rw [Framework.accept, dispatchEvent_actor]
    rfl
  · rw [Framework.accept, dispatchEvent_actor]
    rfl
  · rw [Framework.accept, dispatchEvent_actor]
    exact h.newEvent_group rfl
  · intro d
    rw [Framework.accept, dispatchEvent_calling]
    rfl

theorem Inv.dispatch (h : Inv callback place waits s) (hs : s.dispatch l e = some s') : Inv callback place waits s' := by
  have hE := h.events.dispatch hs
  simp only [Framework.dispatch] at hs
  split_ifs at hs
  rw [Option.some.injEq] at hs
  subst hs
  refine h.fibers_same hE (by simp) (by simp) (by simp) (by simp) (by simp) (fun x => Or.inl ?_) fun d => ?_
  · rw [dispatchEvent_actor]
  · rw [dispatchEvent_calling]
    rfl

theorem Inv.call (h : Inv callback place waits s) {i : Nat} (hs : s.call i l = some s') :
    Inv callback place waits s' := by
  have hE := h.events.call hs
  rcases call_eq_some hs with ⟨e, hcurrent, rfl⟩ | ⟨d, hcurrent, rfl⟩
  · refine h.fibers_same hE rfl rfl rfl rfl rfl (fun _ => Or.inl rfl) fun d => ?_
    have hcount := count_advance hcurrent (.schedule d)
    rwa [if_neg (by simp), Nat.add_zero] at hcount
  · refine ⟨hE, h.fibers.same rfl rfl rfl fun _ => id, ?_, h.graphs.schedule hcurrent⟩
    exact h.groups.keep rfl (fun _ => Or.inl rfl) fun _ _ hx => Or.inr hx

theorem Inv.endWalk (h : Inv callback place waits s) {i : Nat} (hs : s.endWalk i = some s') :
    Inv callback place waits s' := by
  have hE := h.events.endWalk hs
  obtain ⟨hcalling, heq⟩ := endWalk_calling hs
  rw [heq] at hE hcalling ⊢
  exact h.fibers_same hE rfl rfl rfl rfl rfl (fun _ => Or.inl rfl) fun d => by rw [hcalling]

/-! ### The handler -/

theorem execute_cases (hs : s.execute e = some s') :
    (s.actor.events e).executor = none ∧ s' = { s with
      actor := s.actor.newRequest e
      fibers := Function.update s.fibers s.actor.nextFiber
        { task := .request e, executor := Executor.addSchedule {} (.addEvent e) } } ∨
    ∃ g, (s.actor.events e).executor = some g ∧ ∃ queued group,
      ((s.actor.events e).group = 0 ∧ queued = true ∧ group = s.actor.group ∨
        (s.actor.events e).group ≠ 0 ∧ s.actor.group.finish (s.actor.events e).group = some (queued, group)) ∧
      s' = { s with actor := { s.actor with
        group
        events := s.actor.events.modify e fun ev => ev.setGroup 0
        pool := if queued then s.actor.pool ++ [(g, (s.actor.events e).channel)] else s.actor.pool } } := by
  unfold Framework.execute at hs
  split at hs
  · cases hs
  rename_i actor hexecute
  rw [Option.some.injEq] at hs
  subst hs
  rcases Actor.execute_cases hexecute with ⟨hnone, rfl⟩ | ⟨g, hsome, queued, group, hcase, rfl⟩
  · exact Or.inl ⟨hnone, by rw [if_pos hnone]⟩
  · exact Or.inr ⟨g, hsome, queued, group, hcase, by rw [if_neg (show ¬ (s.actor.events e).executor = none by simp [hsome])]⟩

theorem apply_group (a : Action) (ev : Event) : (a.apply ev).1.group = ev.group ∨ (a.apply ev).1.group = 0 := by
  cases a with
  | writed =>
    simp only [Action.apply]
    split_ifs
    · exact Or.inr rfl
    · exact Or.inl rfl
  | close =>
    simp only [Action.apply]
    split_ifs <;> exact Or.inl rfl
  | _ => exact Or.inl rfl

theorem unregister_group (ev : Event) (x : Nat) :
    ((s.unregister l e ev).actor.events x).group = if x = e then ev.group else (s.actor.events x).group := by
  simp only [unregister, modifyEvent, Events.modify_apply]
  split_ifs <;> rfl

theorem Inv.newRequest (h : Inv callback place waits s) {p : Place}
    (hp : place e = .gone ∧ p = .request s.actor.nextFiber ∨ place e = .done ∧ p = .done ∧ callback) :
    Inv callback (Function.update place e p) waits { s with
      actor := s.actor.newRequest e
      fibers := Function.update s.fibers s.actor.nextFiber
        { task := .request e, executor := Executor.addSchedule {} (.addEvent e) } } := by
  have hchannel : (s.actor.newRequest e).pool = s.actor.pool ++ [(s.actor.nextFiber, (s.actor.events e).channel)] := by
    simp [Actor.newRequest, Actor.addFiber, Event.setExecutor]
  refine ⟨h.events.newRequest hp h.not_awaited, ?_, ?_, ?_⟩
  · have hnew := h.fibers.newFiber (x := { task := .request e, executor := Executor.addSchedule {} (.addEvent e) }) rfl rfl
      (s.actor.events e).channel
    exact hnew.same rfl hchannel rfl fun _ => id
  · have hset := h.groups.setFiber (f := s.actor.nextFiber)
      (x := { task := .request e, executor := Executor.addSchedule {} (.addEvent e) }) (by simp [Fiber.fresh, Executor.addSchedule])
    refine hset.keep rfl (fun x => Or.inl ?_) fun _ _ hx => Or.inr hx
    simp only [Actor.newRequest, Actor.addFiber, Events.modify_apply]
    split_ifs <;> rfl
  · have hnew := h.graphs.newFiber h.fibers
      (x := { task := .request e, executor := Executor.addSchedule {} (.addEvent e) }) (by simp [Executor.addSchedule])
      (s.actor.events e).channel
    refine hnew.same rfl rfl ?_ le_rfl (fun _ => id) fun _ => rfl
    rw [queue, hchannel]
    exact List.Subset.refl _

theorem Inv.awaited (h : Inv callback place waits s) (hp : place e = .awaited f) :
    e ∈ waits f ∧ (∀ g, e ∈ waits g → g = f) ∧ s.Blocked f := by
  have hwait : e ∈ waits f := (h.events.mem_waits f e).mpr hp
  refine ⟨hwait, fun g hg => ?_, h.fibers.blocked f (List.ne_nil_of_mem hwait)⟩
  have := hp.symm.trans ((h.events.mem_waits g e).mp hg)
  exact (Place.awaited.inj this).symm

theorem erase_waits_nil (hwait : e ∈ waits f) {g : Nat} (hg : waits g = []) :
    Function.update waits f ((waits f).erase e) g = [] := by
  by_cases hgf : g = f
  · subst hgf
    rw [hg] at hwait
    cases hwait
  · rwa [Function.update_of_ne hgf]

/-- The state after an event of a client has completed, before `Actor::execute(Event*)`. -/
structure Completed (callback : Prop) (place : Nat → Place) (waits : Nat → List Nat) (f e : Nat) (s s' : Framework) :
    Prop where
  events : EventsInv callback (Function.update place e .done) (Function.update waits f ((waits f).erase e)) s'
  fibers : s'.fibers = s.fibers
  graphs : s'.graphs = s.graphs
  calling : s'.calling = s.calling
  pool : s'.actor.pool = s.actor.pool
  nextFiber : s'.actor.nextFiber = s.actor.nextFiber
  group : s'.actor.group = s.actor.group
  event : ∀ x, (s'.actor.events x).group = (s.actor.events x).group
  owned : Owned callback (s'.actor.events e) f

theorem Inv.completed (h : Inv callback place waits s) (hp : place e = .awaited f) (hmem : (l, e) ∈ s.registered)
    {ev : Event} (hev : ev = (s.actor.events e).setType ev.type) (htype : Complete ev.type) :
    Completed callback place waits f e s (s.unregister l e ev) where
  events := h.events.completed hp hmem (h.groups.nodup f) hev htype
  fibers := rfl
  graphs := rfl
  calling := rfl
  pool := rfl
  nextFiber := rfl
  group := rfl
  event x := by
    rw [unregister_group]
    split_ifs with hx
    · rw [hev, hx]
      rfl
    · rfl
  owned := by
    have hfits := h.events.fits e
    rw [hp] at hfits
    rw [unregister_event, hev]
    exact hfits.2.1

theorem Inv.lost (h : Inv callback place waits s) (hp : place e = .awaited f)
    (hc : Completed callback place waits f e s s') (hnone : (s'.actor.events e).executor = none) :
    ∃ place' waits', Inv callback place' waits' { s' with
      actor := s'.actor.newRequest e
      fibers := Function.update s'.fibers s'.actor.nextFiber
        { task := .request e, executor := Executor.addSchedule {} (.addEvent e) } } := by
  obtain ⟨hwait, hown, hb⟩ := h.awaited hp
  have hcallback : callback := by
    rcases hc.owned with howned | ⟨hcallback, -⟩
    · rw [hnone] at howned
      cases howned
    · exact hcallback
  have hself : Function.update place e .done e = .done := Function.update_self ..
  have hF : FibersInv (Function.update waits f ((waits f).erase e)) s' :=
    h.fibers.same hc.fibers hc.pool hc.nextFiber fun g hg hnil => hg (erase_waits_nil hwait hnil)
  have hD : GraphsInv (Function.update waits f ((waits f).erase e)) s' := by
    refine h.graphs.same hc.graphs hc.fibers ?_ hc.nextFiber.ge (fun g => erase_waits_nil hwait)
      fun d => congrArg (List.count (.schedule d)) hc.calling
    rw [queue, hc.pool]
    exact List.Subset.refl _
  have hG : GroupsInv (Function.update waits f ((waits f).erase e)) s' := by
    refine h.groups.erase hwait hown (hc.group ▸ h.groups.group) (fun g x hx => ?_) (fun x _ => hc.event x)
      (fun _ _ _ _ _ => by rw [hc.group]) fun _ => ?_
    · rw [hc.event]
      exact h.groups.fresh g x (hc.fibers ▸ hx)
    · rw [hc.group]
      exact Nat.sub_le _ _
  have h₁ : Inv callback (Function.update place e .done) (Function.update waits f ((waits f).erase e)) s' :=
    ⟨hc.events, hF, hG, hD⟩
  exact ⟨_, _, h₁.newRequest (Or.inr ⟨hself, rfl, hcallback⟩)⟩

theorem Inv.resumed (h : Inv callback place waits s) (hp : place e = .awaited f)
    (hc : Completed callback place waits f e s s') {queued : Bool} {group : Group}
    (hcase : (s'.actor.events e).group = 0 ∧ queued = true ∧ group = s'.actor.group ∨
      (s'.actor.events e).group ≠ 0 ∧ s'.actor.group.finish (s'.actor.events e).group = some (queued, group)) :
    ∃ place' waits', Inv callback place' waits' { s' with actor := { s'.actor with
      group
      events := s'.actor.events.modify e fun ev => ev.setGroup 0
      pool := if queued then s'.actor.pool ++ [(f, (s'.actor.events e).channel)] else s'.actor.pool } } := by
  obtain ⟨hwait, hown, hb⟩ := h.awaited hp
  set s₁ : Framework := { s' with actor := { s'.actor with group, events := s'.actor.events.modify e fun ev => ev.setGroup 0 } }
  rw [hc.event e, hc.group] at hcase
  obtain ⟨hG, hlast⟩ : GroupsInv (Function.update waits f ((waits f).erase e)) s₁ ∧ (queued = true → (waits f).erase e = []) :=
    h.groups.completed hwait hown hcase rfl (by simp [s₁, Event.setGroup]) (fun x hx => by simp [s₁, hx, hc.event x])
      hc.fibers
  have hE : EventsInv callback (Function.update place e .done) (Function.update waits f ((waits f).erase e)) s₁ := by
    refine hc.events.regroup rfl rfl rfl rfl fun x => ⟨(s₁.actor.events x).group, ?_⟩
    simp only [view, s₁, Events.modify_apply]
    split_ifs <;> rfl
  have hF : FibersInv (Function.update waits f ((waits f).erase e)) s₁ :=
    h.fibers.same hc.fibers hc.pool hc.nextFiber fun g hg hnil => hg (erase_waits_nil hwait hnil)
  have hqueue : s₁.queue = s.queue := congrArg (List.map Prod.fst) hc.pool
  cases queued with
  | false =>
    refine ⟨_, _, hE, hF, hG, ?_⟩
    exact h.graphs.same hc.graphs hc.fibers (by rw [← hqueue]; exact List.Subset.refl _) hc.nextFiber.ge
      (fun g => erase_waits_nil hwait)
      fun d => congrArg (List.count (.schedule d)) hc.calling
  | true =>
    have hnil : Function.update waits f ((waits f).erase e) f = [] := (Function.update_self ..).trans (hlast rfl)
    have hb₁ : s₁.Blocked f := by
      rw [Blocked, hqueue]
      exact hc.fibers ▸ hb
    refine ⟨_, _, hE.same rfl rfl hE.idle rfl fun _ => rfl,
      hF.enqueue (hF.lt_of_blocked hb₁) hb₁.2.1 (Or.inr hb₁.1) hb₁.2.2 hnil (s'.actor.events e).channel,
      hG.keep rfl (fun _ => Or.inl rfl) fun _ _ hx => Or.inr hx, ?_⟩
    have hwake := h.graphs.wake hb (List.ne_nil_of_mem hwait) (s'.actor.events e).channel
    refine hwake.same hc.graphs hc.fibers ?_ hc.nextFiber.ge (fun g => erase_waits_nil hwait)
      fun d => congrArg (List.count (.schedule d)) hc.calling
    rw [queue, queue]
    refine List.map_subset _ ?_
    show s'.actor.pool ++ _ ⊆ s.actor.pool ++ _
    rw [hc.pool]
    exact List.Subset.refl _

theorem handle_cases {a : Action} (hs : s.handle l e a = some s') :
    (l, e) ∈ s.registered ∧ a.Possible (s.actor.events e).type ∧
      ((a.apply (s.actor.events e)).2 = .stays ∧ s' = s.modifyEvent e (fun _ => (a.apply (s.actor.events e)).1) ∨
        (a.apply (s.actor.events e)).2 = .dispatched ∧
          s' = (s.unregister l e (a.apply (s.actor.events e)).1).dispatchEvent l e ∨
        (a.apply (s.actor.events e)).2 = .executed ∧
          (s.unregister l e (a.apply (s.actor.events e)).1).execute e = some s' ∨
        (a.apply (s.actor.events e)).2 = .deleted ∧ s' = s.unregister l e (a.apply (s.actor.events e)).1) := by
  simp only [Framework.handle] at hs
  split_ifs at hs with hguard
  refine ⟨hguard.1, hguard.2, ?_⟩
  cases hdisp : (a.apply (s.actor.events e)).2 <;> simp only [hdisp] at hs
  case stays => exact Or.inl ⟨rfl, (Option.some.inj hs).symm⟩
  case dispatched => exact Or.inr (Or.inl ⟨rfl, (Option.some.inj hs).symm⟩)
  case executed => exact Or.inr (Or.inr (Or.inl ⟨rfl, hs⟩))
  case deleted => exact Or.inr (Or.inr (Or.inr ⟨rfl, (Option.some.inj hs).symm⟩))

theorem Inv.handled (h : Inv callback place waits s) (hmem : (l, e) ∈ s.registered) (hone : (s.view e).registered = 1)
    {a : Action} (hgroup : (a.apply (s.actor.events e)).1.group = (s.actor.events e).group ∨ ∀ f, e ∉ waits f)
    (hs : (a.apply (s.actor.events e)).2 = .stays ∧ s' = s.modifyEvent e (fun _ => (a.apply (s.actor.events e)).1) ∨
      (a.apply (s.actor.events e)).2 = .dispatched ∧
        s' = (s.unregister l e (a.apply (s.actor.events e)).1).dispatchEvent l e)
    (hE : s'.fibers = s.fibers → s'.nextEvent = s.nextEvent → s'.idle = s.idle → s'.actor.requests = s.actor.requests →
      (∀ x, s'.view x = if x = e then { s.view x with ev := (a.apply (s.actor.events e)).1 } else s.view x) →
      EventsInv callback place waits s') : Inv callback place waits s' := by
  have hevents : ∀ x, ((s.modifyEvent e (fun _ => (a.apply (s.actor.events e)).1)).actor.events x).group =
      (s.actor.events x).group ∨
      ((s.modifyEvent e (fun _ => (a.apply (s.actor.events e)).1)).actor.events x).group = 0 ∧ ∀ f, x ∉ waits f := by
    intro x
    simp only [modifyEvent, Events.modify_apply]
    split_ifs with hx
    · subst hx
      rcases apply_group a (s.actor.events x) with heq | hzero
      · exact Or.inl heq
      · exact hgroup.imp_right fun hfree => ⟨hzero, hfree⟩
    · exact Or.inl rfl
  rcases hs with ⟨-, rfl⟩ | ⟨hdisp, rfl⟩
  · exact h.fibers_same (hE rfl rfl rfl rfl (view_modifyEvent _)) rfl rfl rfl rfl rfl hevents fun _ => rfl
  · have htype : Dispatchable (a.apply (s.actor.events e)).1.type := by
      rcases Action.apply_dispatched hdisp with ht | ht <;> rw [ht] <;> decide
    have hE' := hE (by rw [dispatchEvent_fibers]; rfl) (by rw [dispatchEvent_nextEvent]; rfl)
      (by rw [dispatchEvent_idle]; rfl) (by rw [dispatchEvent_actor]; rfl) (view_redispatched hmem hone htype)
    refine h.fibers_same hE' (by rw [dispatchEvent_fibers]; rfl) (by rw [dispatchEvent_graphs]; rfl)
      (by rw [dispatchEvent_actor]; rfl) (by rw [dispatchEvent_actor]; rfl) (by rw [dispatchEvent_actor]; rfl) ?_ fun _ => ?_
    · rw [dispatchEvent_actor]
      exact hevents
    · rw [dispatchEvent_calling]
      rfl

theorem Inv.handleClient (h : Inv callback place waits s) (hp : place e = .awaited f) {a : Action}
    (hs : s.handle l e a = some s') : ∃ place' waits', Inv callback place' waits' s' := by
  obtain ⟨hmem, -, hs⟩ := handle_cases hs
  have hregistered : 0 < (s.view e).registered := mem_snd hmem
  have hfits := h.events.fits e
  rw [hp] at hfits
  have htokens := hfits.2.2.2.2
  have hone : (s.view e).registered = 1 := by
    unfold View.tokens at htokens
    omega
  have hrole : (s.actor.events e).role = .client := hfits.1
  obtain ⟨hev, hcase⟩ := apply_client a hrole
  have hgroup : (a.apply (s.actor.events e)).1.group = (s.actor.events e).group := by
    rw [hev]
    rfl
  rcases hcase with ⟨hgoes, htype⟩ | ⟨hexecuted, htype⟩
  · refine ⟨place, waits, h.handled hmem hone (Or.inl hgroup) ?_ fun hf hn hi hr hv =>
      h.events.goesOn hp hmem hev htype hf hn hi hr hv⟩
    rcases hs with hs | hs | ⟨hd, -⟩ | ⟨hd, -⟩
    · exact Or.inl hs
    · exact Or.inr hs
    · simp [hd] at hgoes
    · simp [hd] at hgoes
  · have hc := h.completed hp hmem hev htype
    rcases hs with ⟨hd, -⟩ | ⟨hd, -⟩ | ⟨-, hs⟩ | ⟨hd, -⟩
    · cases hd.symm.trans hexecuted
    · cases hd.symm.trans hexecuted
    · rcases execute_cases hs with ⟨hnone, rfl⟩ | ⟨g, hsome, queued, group, hgroup, rfl⟩
      · exact h.lost hp hc hnone
      · obtain rfl : g = f := by
          rcases hc.owned with howned | ⟨-, hnone⟩
          · exact Option.some.inj (hsome.symm.trans howned)
          · cases hsome.symm.trans hnone
        exact h.resumed hp hc hgroup
    · cases hd.symm.trans hexecuted

theorem Inv.handleServer (h : Inv callback place waits s) (hp : place e = .server) {a : Action}
    (hs : s.handle l e a = some s') : ∃ place' waits', Inv callback place' waits' s' := by
  obtain ⟨hmem, hpossible, hs⟩ := handle_cases hs
  have hregistered : 0 < (s.view e).registered := mem_snd hmem
  have hfits := h.events.fits e
  rw [hp] at hfits
  have htokens := hfits.2.2.1
  have hone : (s.view e).registered = 1 := by
    unfold View.tokens at htokens
    omega
  have hfree : ∀ f, e ∉ waits f := h.notMem_waits (by simp [hp])
  have hserver : ServerTypes (s.actor.events e) := hfits.2.2.2.imp (fun ht => ⟨ht.1, ht.2.1⟩) And.left
  have hrole : (s.actor.events e).role = .server := hfits.1
  have hrole' : (a.apply (s.actor.events e)).1.role = .server := (a.apply_role _).trans hrole
  -- the event after it has left its loop
  have hgone : Inv callback (Function.update place e .gone) waits (s.unregister l e (a.apply (s.actor.events e)).1) := by
    refine h.fibers_same (h.events.serverLeaves hp hmem hrole') rfl rfl rfl rfl rfl (fun x => ?_) fun _ => rfl
    rw [unregister_group]
    split_ifs with hx
    · subst hx
      exact (apply_group a _).imp_right fun hzero => ⟨hzero, hfree⟩
    · exact Or.inl rfl
  rcases apply_server hrole hpossible hserver with ⟨hgoes, htype⟩ | ⟨hexecuted, hnone⟩ | hdeleted
  · refine ⟨place, waits, h.handled hmem hone (Or.inr hfree) ?_ fun hf hn hi hr hv =>
      h.events.serverGoesOn hp hmem hrole' htype hf hn hi hr hv⟩
    rcases hs with hs | hs | ⟨hd, -⟩ | ⟨hd, -⟩
    · exact Or.inl hs
    · exact Or.inr hs
    · simp [hd] at hgoes
    · simp [hd] at hgoes
  · rcases hs with ⟨hd, -⟩ | ⟨hd, -⟩ | ⟨-, hs⟩ | ⟨hd, -⟩
    · cases hd.symm.trans hexecuted
    · cases hd.symm.trans hexecuted
    · rcases execute_cases hs with ⟨-, rfl⟩ | ⟨g, hsome, -⟩
      · exact ⟨_, _, hgone.newRequest (Or.inl ⟨Function.update_self .., rfl⟩)⟩
      · rw [unregister_event, hnone] at hsome
        cases hsome
    · cases hd.symm.trans hexecuted
  · rcases hs with ⟨hd, -⟩ | ⟨hd, -⟩ | ⟨hd, -⟩ | ⟨-, rfl⟩
    · cases hd.symm.trans hdeleted
    · cases hd.symm.trans hdeleted
    · cases hd.symm.trans hdeleted
    · exact ⟨_, _, hgone⟩

theorem Inv.handle (h : Inv callback place waits s) {a : Action} (hs : s.handle l e a = some s') :
    ∃ place' waits', Inv callback place' waits' s' := by
  have hregistered : 0 < (s.view e).registered := mem_snd (handle_cases hs).1
  rcases h.events.place_of_loop (Or.inr hregistered) with ⟨f, hp⟩ | hp | hp
  · exact h.handleClient hp hs
  · have hfits := h.events.fits e
    rw [hp] at hfits
    have := hfits.2.2
    omega
  · exact h.handleServer hp hs

/-! ### Steps of the graphs -/

theorem Inv.stepGraph (h : Inv callback place waits s) {x : DAG.Exec.Label Nat} (hs : s.stepGraph d x = some s') :
    Inv callback place waits s' := by
  have hD := h.graphs.stepGraph hs
  obtain ⟨x, y, y', -, -, -, rfl⟩ := stepGraph_cases hs
  refine ⟨h.events.same rfl rfl h.events.idle rfl fun _ => rfl, h.fibers.same rfl rfl rfl fun _ => id, ?_, hD⟩
  exact h.groups.keep rfl (fun _ => Or.inl rfl) fun _ _ hx => Or.inr hx

theorem Inv.executeNode (h : Inv callback place waits s) {j : Nat} (hs : s.executeNode d j = some s') :
    Inv callback place waits s' := by
  obtain ⟨hD, hF⟩ := h.graphs.executeNode h.fibers hs
  obtain ⟨x, y, y', key, rest, g, -, -, -, -, -, -, rfl⟩ := executeNode_cases hs
  refine ⟨h.events.same rfl rfl h.events.idle rfl fun _ => rfl, hF, ?_, hD⟩
  exact h.groups.keep rfl (fun _ => Or.inl rfl) fun _ _ hx => Or.inr hx

/-! ### Every run -/

theorem Inv.step (h : Inv callback place waits s) {x : Label} (hok : s.WaitsForAll x) (hmode : callback ∨ FiberMode x)
    (hs : s.step x = some s') : ∃ place' waits', Inv callback place' waits' s' := by
  cases x with
  | spawn => exact ⟨_, _, Option.some.inj hs ▸ h.spawn⟩
  | run f poolId => exact ⟨_, _, h.run hs⟩
  | connect f reuse channel =>
    obtain ⟨place', h'⟩ := h.connect hok.1 hok.2 hs
    exact ⟨_, _, h'⟩
  | close f e => exact ⟨_, _, h.close hs⟩
  | yield f => exact h.yield hok.1 hok.2 hs
  | yieldGroup f events => exact h.yieldGroup hok hs
  | runScheduler f n edges =>
    obtain ⟨place', h'⟩ := h.runScheduler hok.1 hok.2.1 hok.2.2 hs
    exact ⟨_, _, h'⟩
  | exit f l =>
    obtain ⟨place', h'⟩ := h.exit hs
    exact ⟨_, _, h'⟩
  | fetchNoWait reuse channel =>
    obtain ⟨place', h'⟩ := h.fetchNoWait (hmode.resolve_right id) hok hs
    exact ⟨_, _, h'⟩
  | forward i l =>
    obtain ⟨place', h'⟩ := h.forward hs
    exact ⟨_, _, h'⟩
  | call i l => exact ⟨_, _, h.call hs⟩
  | endWalk i => exact ⟨_, _, h.endWalk hs⟩
  | dispatch l e => exact ⟨_, _, h.dispatch hs⟩
  | accept l channel =>
    obtain ⟨place', h'⟩ := h.accept l channel
    exact ⟨_, _, Option.some.inj hs ▸ h'⟩
  | handle l e a => exact h.handle hs
  | decrement d j => exact ⟨_, _, h.stepGraph hs⟩
  | executeNode d j => exact ⟨_, _, h.executeNode hs⟩
  | leave d j => exact ⟨_, _, h.stepGraph hs⟩

theorem inv_start : Inv callback (fun _ => .absent) (fun _ => []) start where
  events := {
    fits := fun _ => ⟨rfl, rfl⟩
    unused := fun _ _ => rfl
    fresh := fun f e he => by simp [start, Fiber.fresh] at he
    fresh_once := fun f e => by simp [start, Fiber.fresh]
    grows := fun _ => Nat.le_refl 0
    client := fun f e he => by simp [start] at he
    awaited := nofun
    mem_waits := fun f e => by simp
    serving := fun f e htask => by simp [start] at htask
    idle := fun e he => by simp [start] at he
    requests := fun q hq => by simp [start] at hq }
  fibers := {
    blocked := fun f hf => absurd rfl hf
    queue_nodup := List.nodup_nil
    queued := fun f hf => by simp [start, queue] at hf
    unused := fun _ _ => rfl
    running := fun f hf => by simp [start, Running] at hf }
  groups := {
    group := Group.inv_make (by decide)
    fresh := fun f e he => by simp [start, Fiber.fresh] at he
    nodup := fun _ => List.nodup_nil
    single := fun f e he => by cases he
    same := fun f e he => by cases he
    counter := fun f e he => by cases he
    keys := fun f g e he => by cases he }
  graphs := {
    graph := fun d x hx => by simp [start] at hx
    owner := fun d d' x x' hx => by simp [start] at hx
    callback := fun f d hd => by simp [start] at hd
    calling := fun d hd => by simp [start, calling] at hd }

theorem run_inv (callback : Prop) {ok : Framework → Label → Prop} (hwaits : ∀ s x, ok s x → s.WaitsForAll x)
    (hmode : ∀ s x, ok s x → callback ∨ FiberMode x) {ls : List Label} (hok : Lib.StepsMeet step ok start ls)
    (hrun : Lib.run step start ls = some s) : ∃ place waits, Inv callback place waits s := by
  refine Lib.run_invariant_where (I := fun s => ∃ place waits, Inv callback place waits s) ?_ ⟨_, _, inv_start⟩ hok hrun
  rintro s x s' ⟨place, waits, h⟩ hx hs
  exact h.step (hwaits s x hx) (hmode s x hx) hs

/-- The step queues no fiber, or one that is new or that it does not touch. -/
def QueuesOne (s s' : Framework) : Prop :=
  (∀ f, s'.queue.count f ≤ s.queue.count f) ∨
    ∃ g, s'.queue = s.queue ++ [g] ∧ (g = s.actor.nextFiber ∨ s'.fibers g = s.fibers g)

theorem queuesOne_of_pool (hpool : s'.actor.pool = s.actor.pool) : s.QueuesOne s' := by
  refine Or.inl fun f => ?_
  rw [queue, hpool]
  exact le_rfl

theorem queuesOne_addFiber (g poolId : Nat) (hpool : s'.actor.pool = s.actor.pool ++ [(g, poolId)])
    (hg : g = s.actor.nextFiber ∨ s'.fibers g = s.fibers g) : s.QueuesOne s' := by
  refine Or.inr ⟨g, ?_, hg⟩
  rw [queue, hpool, List.map_append]
  rfl

theorem initConnection_pool {reuse : Option Nat} {channel : Nat} (hs : s.initConnection reuse channel = some (e, s')) :
    s'.actor.pool = s.actor.pool ∧ s'.actor.nextFiber = s.actor.nextFiber := by
  cases reuse with
  | some e' =>
    simp only [Framework.initConnection] at hs
    split_ifs at hs
    simp only [Option.some.injEq, Prod.mk.injEq] at hs
    obtain ⟨-, rfl⟩ := hs
    exact ⟨rfl, rfl⟩
  | none =>
    simp only [Framework.initConnection, Option.some.injEq, Prod.mk.injEq] at hs
    obtain ⟨-, rfl⟩ := hs
    exact ⟨rfl, rfl⟩

theorem execute_queue (hs : s.execute e = some s') : s.QueuesOne s' := by
  rcases execute_cases hs with ⟨-, rfl⟩ | ⟨g, -, queued, group, -, rfl⟩
  · exact queuesOne_addFiber s.actor.nextFiber _ rfl (Or.inl rfl)
  · cases queued with
    | false => exact queuesOne_of_pool rfl
    | true => exact queuesOne_addFiber g _ rfl (Or.inr rfl)

theorem handle_queue {a : Action} (hs : s.handle l e a = some s') : s.QueuesOne s' := by
  obtain ⟨-, -, ⟨-, rfl⟩ | ⟨-, rfl⟩ | ⟨-, hs⟩ | ⟨-, rfl⟩⟩ := handle_cases hs
  · exact queuesOne_of_pool rfl
  · refine queuesOne_of_pool ?_
    rw [dispatchEvent_actor]
    rfl
  · have h := execute_queue hs
    exact h
  · exact queuesOne_of_pool rfl

theorem step_queue {x : Label} (hs : s.step x = some s') : s.QueuesOne s' := by
  cases x with
  | spawn =>
    cases hs
    exact queuesOne_addFiber s.actor.nextFiber 0 rfl (Or.inl rfl)
  | run f poolId =>
    simp only [Framework.step, Framework.run] at hs
    split_ifs at hs
    cases hs
    exact Or.inl fun g => (List.erase_sublist.map Prod.fst).count_le g
  | connect f reuse channel =>
    simp only [Framework.step, Framework.connect] at hs
    split_ifs at hs
    split at hs
    · cases hs
    rename_i hinit
    cases hs
    exact queuesOne_of_pool (initConnection_pool hinit).1
  | close f e =>
    simp only [Framework.step, Framework.close] at hs
    split_ifs at hs
    cases hs
    exact queuesOne_of_pool rfl
  | yield f =>
    simp only [Framework.step, Framework.yield] at hs
    split_ifs at hs
    cases hs
    exact queuesOne_of_pool rfl
  | yieldGroup f events =>
    simp only [Framework.step, Framework.yieldGroup] at hs
    split_ifs at hs
    split at hs
    · cases hs
    · cases hs
      exact queuesOne_of_pool rfl
    · rename_i actor hwait
      obtain ⟨-, i, group, -, rfl⟩ := Actor.waitGroup_made hwait
      cases hs
      exact queuesOne_of_pool rfl
  | runScheduler f n edges =>
    simp only [Framework.step, Framework.runScheduler] at hs
    split_ifs at hs
    split at hs
    · cases hs
    split at hs <;> cases hs
    exact queuesOne_of_pool rfl
  | exit f l =>
    simp only [Framework.step, Framework.exit] at hs
    split_ifs at hs
    split at hs <;> cases hs <;> exact queuesOne_of_pool rfl
  | fetchNoWait reuse channel =>
    simp only [Framework.step, Framework.fetchNoWait] at hs
    split at hs
    · cases hs
    rename_i s₁ hinit
    obtain ⟨hpool, hnext⟩ := initConnection_pool hinit
    cases hs
    refine queuesOne_addFiber s₁.actor.nextFiber 0 ?_ (Or.inl hnext)
    rw [← hpool]
    rfl
  | forward i l =>
    obtain ⟨e, -, -, rfl⟩ := forward_eq_some hs
    exact queuesOne_of_pool rfl
  | call i l =>
    rcases call_eq_some hs with ⟨e, -, rfl⟩ | ⟨d, -, rfl⟩ <;> exact queuesOne_of_pool rfl
  | endWalk i =>
    rw [(endWalk_calling hs).2]
    exact queuesOne_of_pool rfl
  | dispatch l e =>
    simp only [Framework.step, Framework.dispatch] at hs
    split_ifs at hs
    cases hs
    refine queuesOne_of_pool ?_
    rw [dispatchEvent_actor]
  | accept l channel =>
    cases hs
    refine queuesOne_of_pool ?_
    rw [Framework.accept, dispatchEvent_actor]
    rfl
  | handle l e a => exact handle_queue hs
  | decrement d j =>
    obtain ⟨x, y, y', -, -, -, rfl⟩ := stepGraph_cases hs
    exact queuesOne_of_pool rfl
  | executeNode d j =>
    obtain ⟨x, y, y', key, rest, g, -, -, -, -, -, -, rfl⟩ := executeNode_cases hs
    exact queuesOne_addFiber g 0 rfl (Or.inr rfl)
  | leave d j =>
    obtain ⟨x, y, y', -, -, -, rfl⟩ := stepGraph_cases hs
    exact queuesOne_of_pool rfl

/-- The fiber is new or blocked, it is not in a queue, and it was not deleted. -/
def Wakeable (s : Framework) (f : Nat) : Prop :=
  ((s.fibers f).status = .init ∨ (s.fibers f).status = .block) ∧ f ∉ s.queue ∧ (s.fibers f).deleted = false

/-- **A fiber is queued only while it is new or blocked**, in the runs in which a fiber that blocks waits for
all that it hands over, and adds no callback while a walk through its callbacks is under way: in every state, no
fiber is in a queue twice, a fiber in a queue is new or blocked and was not deleted, so that it does not run;
and each step that queues a fiber finds it so, and in no queue. -/
theorem queued_once {ls : List Label} (hok : Lib.StepsMeet step WaitsForAll start ls)
    (hrun : Lib.run step start ls = some s) :
    s.queue.Nodup ∧
      (∀ f ∈ s.queue, ((s.fibers f).status = .init ∨ (s.fibers f).status = .block) ∧ (s.fibers f).deleted = false) ∧
      ∀ x s' f, s.WaitsForAll x → s.step x = some s' → s.queue.count f < s'.queue.count f → s.Wakeable f := by
  obtain ⟨place, waits, h⟩ := run_inv True (fun _ _ hx => hx) (fun _ _ _ => Or.inl trivial) hok hrun
  refine ⟨h.fibers.queue_nodup, fun f hf => ?_, fun x s' f hx hs hcount => ?_⟩
  · obtain ⟨-, hdel, hstatus⟩ := h.fibers.queued f hf
    exact ⟨hstatus, hdel⟩
  · obtain ⟨place', waits', h'⟩ := h.step hx (Or.inl trivial) hs
    rcases step_queue hs with hle | ⟨g, hqueue, hg⟩
    · exact absurd (hle f) (by omega)
    · obtain rfl : g = f := by
        by_contra hne
        rw [hqueue, List.count_append, List.count_singleton] at hcount
        simp [hne] at hcount
      have hnodup := h'.fibers.queue_nodup
      have hmem : g ∈ s'.queue := by
        rw [hqueue]
        exact List.mem_append_right _ List.mem_cons_self
      obtain ⟨-, hdel, hstatus⟩ := h'.fibers.queued g hmem
      have hnot : g ∉ s.queue := by
        rw [hqueue, List.nodup_append] at hnodup
        exact fun hold => hnodup.2.2 g hold g List.mem_cons_self rfl
      rcases hg with rfl | hsame
      · rw [Wakeable, h.fibers.unused _ le_rfl]
        exact ⟨Or.inl rfl, hnot, rfl⟩
      · rw [hsame] at hdel hstatus
        exact ⟨hstatus, hnot, hdel⟩

/-- A fiber that waits for two fetches in a group, and then runs a graph of two jobs. -/
def groupRun : List Label :=
  [.spawn, .run 0 0, .connect 0 none 1, .connect 0 none 1, .yieldGroup 0 [0, 1], .call 0 0, .call 0 1, .endWalk 0,
    .dispatch 0 0, .dispatch 1 1, .handle 0 0 .connected, .handle 0 0 .writed, .handle 0 0 .readed, .handle 1 1 .close,
    .run 0 1, .runScheduler 0 2 [(0, 1)], .call 0 0, .call 0 0, .call 0 0, .decrement 0 0, .executeNode 0 0]

theorem queued_once_group : ∃ s, Lib.run step start groupRun = some s ∧ s.queue = [1] ∧ s.queue.Nodup ∧
    (s.fibers 1).deleted = false := by
  obtain ⟨s, hs⟩ : ∃ s, Lib.run step start groupRun = some s := ⟨_, rfl⟩
  have hqueue : s.queue = [1] := by
    rw [← Option.some.inj hs]
    rfl
  obtain ⟨hnodup, hqueued, -⟩ := queued_once (by decide) hs
  exact ⟨s, hs, hqueue, hnodup, (hqueued 1 (by simp [hqueue])).2⟩

/-- A fiber that has connected two clients and yields for one of them is queued by each completion: it is
in a queue twice, and still in one when it runs. A fiber that connects the second client when it goes on,
while the walk that has handed over the first one is under way, is queued while it runs. -/
theorem queued_twice_two_clients :
    (∃ s, Lib.run step start [.spawn, .run 0 0, .connect 0 none 1, .connect 0 none 1, .yield 0, .call 0 0,
      .call 0 0, .dispatch 0 0, .dispatch 0 1, .handle 0 0 .connected, .handle 0 0 .writed,
      .handle 0 0 .readed, .handle 0 1 .close] = some s ∧ s.queue = [0, 0]) ∧
    (∃ s, Lib.run step start [.spawn, .run 0 0, .connect 0 none 1, .connect 0 none 1, .yield 0, .call 0 0,
      .call 0 0, .dispatch 0 0, .dispatch 0 1, .handle 0 0 .connected, .handle 0 0 .writed,
      .handle 0 0 .readed, .handle 0 1 .close, .run 0 1] = some s ∧ s.Running 0 ∧ s.queue = [0]) ∧
    ∃ s, Lib.run step start [.spawn, .run 0 0, .connect 0 none 1, .yield 0, .call 0 0, .dispatch 0 0,
      .handle 0 0 .connected, .handle 0 0 .writed, .handle 0 0 .readed, .run 0 1, .connect 0 none 1, .call 0 0,
      .dispatch 0 1, .handle 0 1 .close] = some s ∧ s.Running 0 ∧ s.queue = [0] :=
  ⟨⟨_, rfl, rfl⟩, ⟨_, rfl, rfl, rfl⟩, ⟨_, rfl, rfl, rfl⟩⟩

/-- **The completion of an event of a client resumes the fiber that is blocked on it**, in the runs in which
a fiber that blocks waits for all that it hands over, and adds no callback while a walk through its callbacks
is under way, and no client is in callback mode: in every state, a
registered event of a client has an executor, whose fiber is in the `BLOCK` that has handed the event
over and in no queue; and every request was made for an event of the server. -/
theorem client_resumes {ls : List Label}
    (hok : Lib.StepsMeet step (fun s x => s.WaitsForAll x ∧ FiberMode x) start ls)
    (hrun : Lib.run step start ls = some s) :
    (∀ l e, (l, e) ∈ s.registered → (s.actor.events e).role = .client →
      ∃ f, (s.actor.events e).executor = some f ∧ s.Blocked f ∧ .addEvent e ∈ (s.fibers f).awaited) ∧
      ∀ q ∈ s.actor.requests, (s.actor.events q.2).role = .server := by
  obtain ⟨place, waits, h⟩ := run_inv False (fun _ _ hx => hx.1) (fun _ _ hx => Or.inr hx.2) hok hrun
  refine ⟨fun l e hmem hrole => ?_, fun q hq => (h.events.requests q hq).resolve_right id⟩
  have hregistered : 0 < (s.view e).registered := mem_snd hmem
  have hfits := h.events.fits e
  rcases h.events.place_of_loop (Or.inr hregistered) with ⟨f, hp⟩ | hp | hp <;> rw [hp] at hfits
  · obtain ⟨-, -, hb⟩ := h.awaited hp
    exact ⟨f, hfits.2.1.resolve_right fun hnone => hnone.1, hb, h.events.awaited f e hp⟩
  · have := hfits.2.2
    omega
  · cases hrole.symm.trans hfits.1

/-- A fiber with one fetch. -/
def fetchRun : List Label :=
  [.spawn, .run 0 0, .connect 0 none 1, .yield 0, .call 0 0, .dispatch 0 0, .handle 0 0 .connected]

theorem client_resumes_fetch : ∃ s, Lib.run step start fetchRun = some s ∧ s.registered = [(0, 0)] ∧
    ∃ f, (s.actor.events 0).executor = some f ∧ s.Blocked f := by
  obtain ⟨s, hs⟩ : ∃ s, Lib.run step start fetchRun = some s := ⟨_, rfl⟩
  have hregistered : s.registered = [(0, 0)] := by
    rw [← Option.some.inj hs]
    rfl
  have hrole : (s.actor.events 0).role = .client := by
    rw [← Option.some.inj hs]
    rfl
  obtain ⟨hclient, -⟩ := client_resumes (by decide) hs
  obtain ⟨f, hexec, hb, -⟩ := hclient 0 0 (by simp [hregistered]) hrole
  exact ⟨s, hs, hregistered, f, hexec, hb⟩

/-- The event of a client in callback mode is registered without an executor, and its failure makes a
request for it. An event that is connected while the walk of the last `BLOCK` is under way is registered while
its fiber runs. -/
theorem callback_mode_requests :
    (∃ s, Lib.run step start [.fetchNoWait none 1, .run 0 0, .yield 0, .call 0 0, .dispatch 0 0] = some s ∧
      s.registered = [(0, 0)] ∧ (s.actor.events 0).role = .client ∧ (s.actor.events 0).executor = none) ∧
    (∃ s, Lib.run step start [.fetchNoWait none 1, .run 0 0, .yield 0, .call 0 0, .dispatch 0 0,
      .handle 0 0 .close] = some s ∧ s.actor.requests = [(1, 0)] ∧ (s.actor.events 0).role = .client) ∧
    ∃ s, Lib.run step start [.spawn, .run 0 0, .connect 0 none 1, .yield 0, .call 0 0, .dispatch 0 0,
      .handle 0 0 .connected, .handle 0 0 .writed, .handle 0 0 .readed, .run 0 1, .connect 0 none 1, .call 0 0,
      .dispatch 0 1] = some s ∧ s.registered = [(0, 1)] ∧ (s.actor.events 1).role = .client ∧
      (s.actor.events 1).executor = some 0 ∧ s.Running 0 :=
  ⟨⟨_, rfl, rfl, rfl, rfl⟩, ⟨_, rfl, rfl, rfl⟩, ⟨_, rfl, rfl, rfl, rfl, rfl⟩⟩

end Raster.Framework
