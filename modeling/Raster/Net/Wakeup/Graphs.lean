import Raster.Net.Wakeup.Fibers

/-!
# Waking a fiber: the graphs

`Scheduler::run` blocks its fiber until the sink of the graph is handed over. As long as the sink was not,
the owner of the graph is blocked and waits for no event, so nothing else queues it; afterwards the graph
is over, and another `schedule(src)`, which each later `BLOCK` of the owner calls, hands nothing over. The
fibers of the jobs are named by one node of one graph, and queued when that node is handed over.
-/

namespace Raster.Framework

open Raster.Fiber (Callback)

variable {callback : Prop} {place : Nat → Place} {waits waits' : Nat → List Nat} {s s' : Framework} {e f d : Nat}
  {x : ActorDAG}

/-! ### Steps that leave the graphs alone -/

theorem not_over_of_none (h : x.exec = none) : ¬ x.Over := by
  rintro ⟨y, hy, -⟩
  rw [h] at hy
  cases hy

theorem Unstarted.not_blocked (h : s.Unstarted f) : ¬ s.Blocked f := by
  intro hb
  have := h.1.symm.trans hb.1
  cases this

theorem Running.not_blocked (h : s.Running f) : ¬ s.Blocked f := by
  intro hb
  have := h.symm.trans hb.1
  cases this

theorem Running.not_unstarted (h : s.Running f) : ¬ s.Unstarted f := by
  intro hu
  have := h.symm.trans hu.1
  cases this

theorem GraphInv.frame (h : GraphInv waits s d x) (hnext : s.actor.nextFiber ≤ s'.actor.nextFiber)
    (htask : ∀ f < s.actor.nextFiber, (s.fibers f).task = .job d → (s'.fibers f).task = .job d)
    (hunstarted : ∀ i f, (x.dag.node i).executor = some f → i ≠ x.sink → i ∉ x.executed → f < s.actor.nextFiber →
      s.Unstarted f → s'.Unstarted f)
    (howner : ¬ x.Over → s.Blocked x.owner → waits x.owner = [] → s'.Blocked x.owner ∧ waits' x.owner = [])
    (hcalling : ¬ x.Over → s'.calling.count (.schedule d) = s.calling.count (.schedule d)) :
    GraphInv waits' s' d x where
  ready := h.ready
  leads := h.leads
  sink_executor := h.sink_executor
  job i f hexec hsink := by
    obtain ⟨hjob, hlt⟩ := h.job i f hexec hsink
    exact ⟨htask f hlt hjob, hlt.trans_le hnext⟩
  unstarted i f hexec hsink hnew := by
    exact hunstarted i f hexec hsink hnew (h.job i f hexec hsink).2 (h.unstarted i f hexec hsink hnew)
  waiting hover := by
    obtain ⟨hb, hnone⟩ := h.waiting hover
    exact howner hover hb hnone
  pending hnone := by
    rw [hcalling (not_over_of_none hnone)]
    exact h.pending hnone
  live y hy := by
    by_cases hover : y.Over
    · exact Or.inl hover
    · obtain ⟨hinv, hsink, hcall⟩ := (h.live y hy).resolve_left hover
      refine Or.inr ⟨hinv, hsink, ?_⟩
      have hx : ¬ x.Over := by
        rintro ⟨y', hy', hover'⟩
        rw [hy, Option.some.injEq] at hy'
        exact hover (hy' ▸ hover')
      rw [← List.count_eq_zero] at hcall ⊢
      rw [hcalling hx, hcall]

theorem GraphsInv.frame (h : GraphsInv waits s) (hgraphs : s'.graphs = s.graphs)
    (hnext : s.actor.nextFiber ≤ s'.actor.nextFiber)
    (htask : ∀ f < s.actor.nextFiber, (s'.fibers f).task = (s.fibers f).task)
    (hunstarted : ∀ f < s.actor.nextFiber, s.Unstarted f → s'.Unstarted f)
    (hblocked : ∀ f, s.Blocked f → waits f = [] → s'.Blocked f ∧ waits' f = [])
    (hcallback : ∀ f d, .schedule d ∈ (s'.fibers f).executor.callbacks → .schedule d ∈ (s.fibers f).executor.callbacks)
    (hcalling : ∀ d, s'.calling.count (.schedule d) = s.calling.count (.schedule d)) : GraphsInv waits' s' := by
  constructor
  case graph =>
    intro d x hx
    rw [hgraphs] at hx
    refine (h.graph d x hx).frame hnext (fun f hf hjob => (htask f hf).trans hjob)
      (fun _ f _ _ _ hf => hunstarted f hf) (fun _ => hblocked x.owner) fun _ => hcalling d
  case owner => exact hgraphs ▸ h.owner
  case callback =>
    intro f d hd
    rw [hgraphs]
    exact h.callback f d (hcallback f d hd)
  case calling =>
    intro d hd
    rw [hgraphs]
    refine h.calling d ?_
    rw [← List.count_pos_iff] at hd ⊢
    rwa [← hcalling d]

theorem GraphsInv.same (h : GraphsInv waits s) (hgraphs : s'.graphs = s.graphs) (hfibers : s'.fibers = s.fibers)
    (hqueue : s'.queue ⊆ s.queue) (hnext : s.actor.nextFiber ≤ s'.actor.nextFiber)
    (hwaits : ∀ f, waits f = [] → waits' f = [])
    (hcalling : ∀ d, s'.calling.count (.schedule d) = s.calling.count (.schedule d)) : GraphsInv waits' s' := by
  refine h.frame hgraphs hnext (fun f _ => by rw [hfibers]) ?_ ?_ (fun f d hd => hfibers ▸ hd) hcalling
  · rintro f - ⟨hst, hdel, hq⟩
    rw [Unstarted, hfibers]
    exact ⟨hst, hdel, fun hmem => hq (hqueue hmem)⟩
  · rintro f ⟨hst, hdel, hq⟩ hnone
    rw [Blocked, hfibers]
    exact ⟨⟨hst, hdel, fun hmem => hq (hqueue hmem)⟩, hwaits f hnone⟩

theorem GraphsInv.setFiber (h : GraphsInv waits s) {x : TaskFiber} (hb : ¬ s.Blocked f)
    (hu : f < s.actor.nextFiber → ¬ s.Unstarted f ∧ x.task = (s.fibers f).task)
    (hcallback : ∀ d, .schedule d ∈ x.executor.callbacks → .schedule d ∈ (s.fibers f).executor.callbacks) :
    GraphsInv waits { s with fibers := Function.update s.fibers f x } := by
  have hself : Function.update s.fibers f x f = x := Function.update_self ..
  have hother : ∀ g, g ≠ f → Function.update s.fibers f x g = s.fibers g := fun g hg => Function.update_of_ne hg ..
  refine h.frame rfl le_rfl ?_ ?_ ?_ ?_ fun _ => rfl
  · intro g hg
    by_cases hgf : g = f
    · subst hgf
      simp only [hself]
      exact (hu hg).2
    · simp only [hother g hgf]
  · intro g hg hun
    have hgf : g ≠ f := by
      rintro rfl
      exact (hu hg).1 hun
    simp only [Unstarted, hother g hgf]
    exact hun
  · intro g hg hnone
    have hgf : g ≠ f := by
      rintro rfl
      exact hb hg
    simp only [Blocked, hother g hgf]
    exact ⟨hg, hnone⟩
  · intro g d hd
    by_cases hgf : g = f
    · subst hgf
      simp only [hself] at hd
      exact hcallback d hd
    · simpa only [hother g hgf] using hd

theorem GraphsInv.enqueue (h : GraphsInv waits s)
    (howner : ∀ (d : Nat) (x : ActorDAG), s.graphs[d]? = some x → x.owner = f → x.Over)
    (hjob : ∀ (d : Nat) (x : ActorDAG), s.graphs[d]? = some x →
      ∀ i, (x.dag.node i).executor = some f → i ≠ x.sink → i ∈ x.executed) (poolId : Nat) :
    GraphsInv waits { s with actor := s.actor.addFiber f poolId } := by
  have hqueue : ∀ g, g ≠ f → g ∉ s.queue → g ∉ ({ s with actor := s.actor.addFiber f poolId } : Framework).queue := by
    intro g hg hq hmem
    simp only [queue, Actor.addFiber, List.map_append, List.map_cons, List.map_nil, List.mem_append,
      List.mem_singleton] at hmem
    exact hmem.elim hq hg
  constructor
  case graph =>
    intro d x hx
    refine (h.graph d x hx).frame le_rfl (fun _ _ hjob => hjob) ?_ ?_ fun _ => rfl
    · rintro i g hexec hsink hnew - ⟨hst, hdel, hq⟩
      refine ⟨hst, hdel, hqueue g ?_ hq⟩
      rintro rfl
      exact hnew (hjob d x hx i hexec hsink)
    · rintro hover ⟨hst, hdel, hq⟩ hnone
      exact ⟨⟨hst, hdel, hqueue _ (fun heq => hover (howner d x hx heq)) hq⟩, hnone⟩
  case owner => exact h.owner
  case callback => exact h.callback
  case calling => exact h.calling

theorem GraphsInv.wake (h : GraphsInv waits s) (hb : s.Blocked f) (hne : waits f ≠ []) (poolId : Nat) :
    GraphsInv waits { s with actor := s.actor.addFiber f poolId } := by
  refine h.enqueue ?_ ?_ poolId
  · intro d x hx howner
    by_contra hover
    exact hne (howner ▸ ((h.graph d x hx).waiting hover).2)
  · intro d x hx i hexec hsink
    by_contra hnew
    exact ((h.graph d x hx).unstarted i f hexec hsink hnew).not_blocked hb

theorem GraphsInv.newFiber (h : GraphsInv waits s) (hF : FibersInv waits s) {x : TaskFiber}
    (hcallback : ∀ d, .schedule d ∉ x.executor.callbacks) (poolId : Nat) :
    GraphsInv waits { s with
      fibers := Function.update s.fibers s.actor.nextFiber x
      actor := { s.actor with nextFiber := s.actor.nextFiber + 1 }.addFiber s.actor.nextFiber poolId } := by
  have hb : ¬ s.Blocked s.actor.nextFiber := fun hb => absurd (hF.lt_of_blocked hb) (lt_irrefl _)
  have hset := h.setFiber (x := x) hb (fun hlt => absurd hlt (lt_irrefl _)) fun d hd => absurd hd (hcallback d)
  have hqueued := hset.enqueue (f := s.actor.nextFiber) ?_ ?_ poolId
  · exact hqueued.same rfl rfl (List.Subset.refl _) (Nat.le_succ _) (fun _ => id) fun _ => rfl
  · intro d x hx howner
    by_contra hover
    exact hb (howner ▸ ((h.graph d x hx).waiting hover).1)
  · intro d x hx i hexec hsink
    exact absurd ((h.graph d x hx).job i _ hexec hsink).2 (lt_irrefl _)

theorem GraphsInv.run (h : GraphsInv waits s) {poolId : Nat} (hs : s.run f poolId = some s') : GraphsInv waits s' := by
  simp only [Framework.run] at hs
  split_ifs at hs with hguard
  rw [Option.some.injEq] at hs
  subst hs
  have hmem : f ∈ s.queue := List.mem_map_of_mem hguard.1
  have hset := h.setFiber (x := { s.fibers f with toFiber := (s.fibers f).toFiber.activate }) (fun hb => hb.2.2 hmem)
    (fun _ => ⟨fun hu => hu.2.2 hmem, rfl⟩) fun _ hd => hd
  refine hset.same rfl rfl ?_ le_rfl (fun _ => id) fun _ => rfl
  exact List.map_subset _ List.erase_subset

theorem GraphsInv.over_of_running (h : GraphsInv waits s) (hrun : s.Running f)
    (hd : .schedule d ∈ (s.fibers f).executor.callbacks) : ∃ x, s.graphs[d]? = some x ∧ x.Over := by
  obtain ⟨x, hx, howner⟩ := h.callback f d hd
  refine ⟨x, hx, ?_⟩
  by_contra hover
  exact hrun.not_blocked (howner ▸ ((h.graph d x hx).waiting hover).1)

theorem GraphsInv.block (h : GraphsInv waits s) (hrun : s.Running f) (es : List Nat) :
    GraphsInv (Function.update waits f es) (s.block f) := by
  constructor
  case graph =>
    intro d x hx
    refine (h.graph d x hx).frame le_rfl ?_ ?_ ?_ ?_
    · intro g _ hjob
      by_cases hg : g = f
      · rw [hg, block_self, ← hg]
        exact hjob
      · rwa [block_other hg]
    · intro _ g _ _ _ _ hu
      have hg : g ≠ f := by
        rintro rfl
        exact hrun.not_unstarted hu
      rw [Unstarted, block_other hg]
      exact hu
    · intro _ hb hnone
      have hg : x.owner ≠ f := by
        intro heq
        exact hrun.not_blocked (heq ▸ hb)
      rw [Blocked, block_other hg, Function.update_of_ne hg]
      exact ⟨hb, hnone⟩
    · intro hover
      have hzero : (s.fibers f).executor.callbacks.count (.schedule d) = 0 := by
        rw [List.count_eq_zero]
        intro hd
        obtain ⟨x', hx', hover'⟩ := h.over_of_running hrun hd
        rw [show s.graphs[d]? = some x from hx, Option.some.injEq] at hx'
        exact hover (hx' ▸ hover')
      rw [block_calling, List.count_append, hzero, Nat.add_zero]
  case owner => exact h.owner
  case callback =>
    intro g d hd
    by_cases hg : g = f
    · subst hg
      rw [block_self] at hd
      exact h.callback g d hd
    · rw [block_other hg] at hd
      exact h.callback g d hd
  case calling =>
    intro d hd
    rcases List.mem_append.mp (block_calling ▸ hd) with hd | hd
    · exact h.calling d hd
    · obtain ⟨x, hx, -⟩ := h.callback f d hd
      exact (List.getElem?_eq_some_iff.mp hx).1

/-! ### A graph changes -/

theorem over_of_exec {y : DAG.Exec Nat} (hy : x.exec = some y) : x.Over ↔ y.Over := by
  constructor
  · rintro ⟨y', hy', hover⟩
    rw [hy, Option.some.injEq] at hy'
    exact hy' ▸ hover
  · exact fun hover => ⟨y, hy, hover⟩

theorem executed_of_exec {y : DAG.Exec Nat} (hy : x.exec = some y) : x.executed = y.executed := by
  simp [ActorDAG.executed, hy]

theorem GraphInv.advance (h : GraphInv waits s d x) {y y' : DAG.Exec Nat} {l : DAG.Exec.Label Nat} (hy : x.exec = some y)
    (hstep : y.step l = some y') : GraphInv waits s d { x with exec := some y' } := by
  have hexecuted : y.executed ⊆ y'.executed := DAG.Exec.executed_subset hstep
  have hover : x.Over → ActorDAG.Over { x with exec := some y' } := by
    rw [over_of_exec hy]
    intro hover
    exact ⟨y', rfl, (hover.step hstep).1⟩
  constructor
  case ready => exact h.ready
  case leads => exact h.leads
  case sink_executor => exact h.sink_executor
  case job => exact h.job
  case unstarted =>
    intro i f hexec hsink hnew
    refine h.unstarted i f hexec hsink fun hold => hnew ?_
    rw [executed_of_exec hy] at hold
    exact hexecuted hold
  case waiting => exact fun hnot => h.waiting fun hx => hnot (hover hx)
  case pending =>
    intro hnone
    cases hnone
  case live =>
    intro z hz
    cases hz
    rcases h.live y hy with hover | ⟨hinv, -, hcalling⟩
    · exact Or.inl (hover.step hstep).1
    · have hinv' := DAG.Exec.step_inv h.ready l hinv hstep
      by_cases hsink : x.sink ∈ y'.executed
      · exact Or.inl (hinv'.over h.ready hsink h.leads)
      · exact Or.inr ⟨hinv', hsink, hcalling⟩

theorem GraphsInv.setGraph (h : GraphsInv waits s) (hx : s.graphs[d]? = some x) (x' : ActorDAG) (howner : x'.owner = x.owner)
    (hover : x.Over → x'.Over) (hgraphs : s'.graphs = s.graphs.set d x') (hfibers : s'.fibers = s.fibers)
    (hactor : s'.actor = s.actor) (hcalling : ∀ d', d' ≠ d → s'.calling.count (.schedule d') = s.calling.count (.schedule d'))
    (hx' : GraphInv waits s' d x') : GraphsInv waits s' := by
  have hlt : d < s.graphs.length := (List.getElem?_eq_some_iff.mp hx).1
  have hself : s'.graphs[d]? = some x' := by
    rw [hgraphs, List.getElem?_set_self hlt]
  have hother : ∀ d' : Nat, d' ≠ d → s'.graphs[d']? = s.graphs[d']? := by
    intro d' hd'
    rw [hgraphs, List.getElem?_set_ne (Ne.symm hd')]
  -- the graph before the step
  have hbefore : ∀ (d' : Nat) (z' : ActorDAG), s'.graphs[d']? = some z' →
      ∃ z, s.graphs[d']? = some z ∧ z.owner = z'.owner ∧ (z.Over → z'.Over) := by
    intro d' z' hz'
    by_cases hd' : d' = d
    · subst hd'
      rw [hself, Option.some.injEq] at hz'
      exact ⟨x, hx, hz' ▸ howner.symm, hz' ▸ hover⟩
    · exact ⟨z', hother d' hd' ▸ hz', rfl, id⟩
  constructor
  case graph =>
    intro d' z hz
    by_cases hd' : d' = d
    · subst hd'
      rw [hself, Option.some.injEq] at hz
      exact hz ▸ hx'
    · rw [hother d' hd'] at hz
      refine (h.graph d' z hz).frame (by rw [hactor]) (fun f _ hjob => hfibers ▸ hjob) ?_ ?_ fun _ => hcalling d' hd'
      · intro _ g _ _ _ _ hu
        rwa [Unstarted, queue, hfibers, hactor]
      · intro _ hb hnone
        rw [Blocked, queue, hfibers, hactor]
        exact ⟨hb, hnone⟩
  case owner =>
    intro d₁ d₂ z₁ z₂ h₁ h₂ hnot₁ hnot₂ heq
    obtain ⟨y₁, hy₁, ho₁, himp₁⟩ := hbefore d₁ z₁ h₁
    obtain ⟨y₂, hy₂, ho₂, himp₂⟩ := hbefore d₂ z₂ h₂
    exact h.owner d₁ d₂ y₁ y₂ hy₁ hy₂ (fun ho => hnot₁ (himp₁ ho)) (fun ho => hnot₂ (himp₂ ho))
      (ho₁.trans (heq.trans ho₂.symm))
  case callback =>
    intro g d' hd'
    rw [hfibers] at hd'
    obtain ⟨z, hz, ho⟩ := h.callback g d' hd'
    by_cases hdd : d' = d
    · subst hdd
      rw [hx, Option.some.injEq] at hz
      exact ⟨x', hself, howner.trans (hz ▸ ho)⟩
    · exact ⟨z, (hother d' hdd).trans hz, ho⟩
  case calling =>
    intro d' hd'
    rw [hgraphs, List.length_set]
    by_cases hdd : d' = d
    · exact hdd ▸ hlt
    · refine h.calling d' ?_
      rw [← List.count_pos_iff] at hd' ⊢
      rwa [← hcalling d' hdd]

theorem GraphsInv.advance (h : GraphsInv waits s) {y y' : DAG.Exec Nat} {l : DAG.Exec.Label Nat}
    (hx : s.graphs[d]? = some x) (hy : x.exec = some y) (hstep : y.step l = some y') :
    GraphsInv waits { s with graphs := s.graphs.set d { x with exec := some y' } } := by
  have hgraph := (h.graph d x hx).advance hy hstep
  refine h.setGraph hx { x with exec := some y' } rfl ?_ rfl rfl rfl (fun _ _ => rfl) ?_
  · rw [over_of_exec hy]
    exact fun hover => ⟨y', rfl, (hover.step hstep).1⟩
  · exact hgraph.frame le_rfl (fun _ _ hjob => hjob) (fun _ _ _ _ _ _ hu => hu) (fun _ hb hnone => ⟨hb, hnone⟩) fun _ => rfl

theorem stepGraph_cases {l : DAG.Exec.Label Nat} (hs : s.stepGraph d l = some s') :
    ∃ x y y', s.graphs[d]? = some x ∧ x.exec = some y ∧ y.step l = some y' ∧
      s' = { s with graphs := s.graphs.set d { x with exec := some y' } } := by
  unfold Framework.stepGraph at hs
  split at hs
  · cases hs
  rename_i x hx
  split at hs
  · cases hs
  rename_i y' hstep
  obtain ⟨y, hy, hstep⟩ := Option.bind_eq_some_iff.mp hstep
  exact ⟨x, y, y', hx, hy, hstep, (Option.some.inj hs).symm⟩

theorem GraphsInv.stepGraph (h : GraphsInv waits s) {l : DAG.Exec.Label Nat} (hs : s.stepGraph d l = some s') :
    GraphsInv waits s' := by
  obtain ⟨x, y, y', hx, hy, hstep, rfl⟩ := stepGraph_cases hs
  exact h.advance hx hy hstep

theorem finish_cases (f : Nat) (x : ActorDAG) :
    x.finish f = x ∨ ∃ y y', x.exec = some y ∧ y.step (.finish f) = some y' ∧ x.finish f = { x with exec := some y' } := by
  obtain ⟨owner, src, dag, exec⟩ := x
  rcases exec with _ | y
  · exact Or.inl rfl
  · rcases hstep : y.step (.finish f) with _ | y'
    · exact Or.inl (by simp [ActorDAG.finish, hstep])
    · exact Or.inr ⟨y, y', rfl, hstep, by simp [ActorDAG.finish, hstep]⟩

theorem graphs_modify (hx : s.graphs[d]? = some x) (g : ActorDAG → ActorDAG) :
    s.graphs.modify d g = s.graphs.set d (g x) := by
  rw [List.modify_eq_set_getElem?, hx]
  rfl

theorem GraphsInv.finish (h : GraphsInv waits s) (d f : Nat) : GraphsInv waits (s.modifyGraph d (ActorDAG.finish f)) := by
  rcases hx : s.graphs[d]? with _ | x
  · refine h.same ?_ rfl (List.Subset.refl _) le_rfl (fun _ => id) fun _ => rfl
    show s.graphs.modify d _ = _
    rw [List.modify_eq_set_getElem?, hx]
    rfl
  · rw [modifyGraph, graphs_modify hx]
    rcases finish_cases f x with heq | ⟨y, y', hy, hstep, heq⟩
    · obtain ⟨hlt, rfl⟩ := List.getElem?_eq_some_iff.mp hx
      rw [heq, List.set_getElem_self]
      exact h
    · rw [heq]
      exact h.advance hx hy hstep

theorem GraphsInv.schedule (h : GraphsInv waits s) {i : Nat} (hcurrent : s.current i = some (.schedule d)) :
    GraphsInv waits ((s.advance i).modifyGraph d ActorDAG.schedule) := by
  have hmem : .schedule d ∈ s.calling := mem_calling hcurrent
  obtain ⟨x, hx⟩ : ∃ x, s.graphs[d]? = some x := ⟨_, List.getElem?_eq_getElem (h.calling d hmem)⟩
  have hgraph := h.graph d x hx
  have hcount := fun d' => count_advance hcurrent (.schedule d')
  have hother : ∀ d', d' ≠ d → (s.advance i).calling.count (.schedule d') = s.calling.count (.schedule d') := by
    intro d' hd'
    rw [← hcount d', if_neg (by simpa using Ne.symm hd'), Nat.add_zero]
  rcases hy : x.exec with _ | y
  · have hschedule : x.schedule = { x with exec := some (DAG.Exec.start x.dag x.src) } := by
      simp only [ActorDAG.schedule, hy]
    have hexecuted : x.executed = [] := by
      simp [ActorDAG.executed, hy]
    refine h.setGraph hx x.schedule (by rw [hschedule]) (fun hover => absurd hover (not_over_of_none hy))
      (graphs_modify hx _) rfl rfl hother ?_
    rw [hschedule]
    refine { hgraph with
      unstarted := fun i g hexec hsink _ => hgraph.unstarted i g hexec hsink (by rw [hexecuted]; exact List.not_mem_nil)
      waiting := fun _ => hgraph.waiting (not_over_of_none hy)
      pending := nofun
      live := fun z hz => ?_ }
    cases hz
    refine Or.inr ⟨DAG.Exec.inv_start hgraph.ready, List.not_mem_nil, ?_⟩
    show .schedule d ∉ (s.advance i).calling
    have hone := hcount d
    rw [if_pos rfl, hgraph.pending hy] at hone
    rw [← List.count_eq_zero]
    omega
  · have hover : y.Over := by
      refine (hgraph.live y hy).resolve_right fun hlive => ?_
      exact hlive.2.2 hmem
    have hschedule : x.schedule = { x with exec := some { y with loops := y.loops ++ [{ rest := y.dag.schedule x.src }] } } := by
      simp only [ActorDAG.schedule, hy]
    have hover' : x.schedule.Over := by
      rw [hschedule]
      exact ⟨_, rfl, hover.addLoop (hover.nexts_lt x.src)⟩
    refine h.setGraph hx x.schedule (by rw [hschedule]) (fun _ => hover') (graphs_modify hx _) rfl rfl hother ?_
    rw [hschedule] at hover' ⊢
    refine { hgraph with
      unstarted := fun i g hexec hsink hnew => hgraph.unstarted i g hexec hsink ?_
      waiting := fun hnot => absurd hover' hnot
      pending := nofun
      live := fun z hz => ?_ }
    · rw [executed_of_exec hy]
      exact hnew
    · exact Or.inl ((over_of_exec hz).mp hover')

theorem executeNode_cases {j : Nat} (hs : s.executeNode d j = some s') :
    ∃ x y y' key rest g, s.graphs[d]? = some x ∧ x.exec = some y ∧ y.loops[j]? = some ⟨some key, rest⟩ ∧
      (y.dag.node key).executor = some g ∧ y.step (.execute j) = some y' ∧ y'.executed = y.executed ++ [key] ∧
      s' = { s with
        graphs := s.graphs.set d { x with exec := some y' }
        actor := s.actor.addFiber g 0 } := by
  unfold executeNode at hs
  split at hs
  · cases hs
  rename_i s₁ hs₁
  obtain ⟨x, y, y', hx, hy, hstep, rfl⟩ := stepGraph_cases hs₁
  have hlt : d < s.graphs.length := (List.getElem?_eq_some_iff.mp hx).1
  simp only [List.getElem?_set_self hlt, Option.bind_some] at hs
  have hstep' := hstep
  simp only [DAG.Exec.step] at hstep'
  split at hstep'
  · rename_i key rest hj
    rw [Option.some.injEq] at hstep'
    subst hstep'
    simp only [List.getLastD_concat] at hs
    split at hs
    · cases hs
    · rename_i g hg
      exact ⟨x, y, _, key, rest, g, hx, hy, hj, hg, hstep, rfl, (Option.some.inj hs).symm⟩
  · cases hstep'

/-- A node is handed over: a job is queued for the first time, or the owner of the graph that waits for
its sink. -/
theorem GraphsInv.executeNode (h : GraphsInv waits s) (hF : FibersInv waits s) {j : Nat}
    (hs : s.executeNode d j = some s') : GraphsInv waits s' ∧ FibersInv waits s' := by
  obtain ⟨x, y, y', key, rest, g, hx, hy, hj, hexec, hstep, hexecuted, rfl⟩ := executeNode_cases hs
  have hlt : d < s.graphs.length := (List.getElem?_eq_some_iff.mp hx).1
  have hgraph := h.graph d x hx
  have hmem := List.mem_of_getElem? hj
  have hnot : ¬ x.Over := by
    rw [over_of_exec hy]
    intro hover
    have := hover.handing_none _ hmem
    cases this
  obtain ⟨hinv, -, -⟩ := (hgraph.live y hy).resolve_left fun hover => hnot ((over_of_exec hy).mpr hover)
  have hkey : key ∉ x.executed := by
    rw [executed_of_exec hy]
    intro hold
    have hhanding : key ∈ DAG.Exec.handing y.loops := List.mem_filterMap.mpr ⟨_, hmem, rfl⟩
    exact (List.nodup_append.mp hinv.reached_nodup).2.2 key hhanding key hold rfl
  rw [hinv.executor_eq] at hexec
  have h₁ := h.advance hx hy hstep
  have hF₁ : FibersInv waits { s with graphs := s.graphs.set d { x with exec := some y' } } :=
    hF.same rfl rfl rfl fun _ => id
  -- the graphs after the step are those before it, but for `d`
  have hafter : ∀ (d' : Nat) (z : ActorDAG), (s.graphs.set d { x with exec := some y' })[d']? = some z →
      d' = d ∧ z = { x with exec := some y' } ∨ d' ≠ d ∧ s.graphs[d']? = some z := by
    intro d' z hz
    by_cases hd' : d' = d
    · subst hd'
      rw [List.getElem?_set_self hlt, Option.some.injEq] at hz
      exact Or.inl ⟨rfl, hz.symm⟩
    · rw [List.getElem?_set_ne (Ne.symm hd')] at hz
      exact Or.inr ⟨hd', hz⟩
  have hexecuted' : ∀ i ∈ y.executed ++ [key], i ∈ ActorDAG.executed { x with exec := some y' } := by
    intro i hi
    rw [← hexecuted] at hi
    exact hi
  by_cases hsink : key = x.sink
  · rw [hsink, hgraph.sink_executor, Option.some.injEq] at hexec
    subst hexec
    obtain ⟨hb, hnone⟩ := hgraph.waiting hnot
    have hover : ActorDAG.Over { x with exec := some y' } := by
      refine ⟨y', rfl, (DAG.Exec.step_inv hgraph.ready _ hinv hstep).over hgraph.ready ?_ hgraph.leads⟩
      rw [hexecuted, ← hsink]
      exact List.mem_append_right _ List.mem_cons_self
    refine ⟨h₁.enqueue ?_ ?_ 0, hF₁.enqueue (hF.lt_of_blocked hb) hb.2.1 (Or.inr hb.1) hb.2.2 hnone 0⟩
    · intro d' z hz howner
      rcases hafter d' z hz with ⟨-, rfl⟩ | ⟨hd', hz⟩
      · exact hover
      · by_contra hnot'
        exact hd' (h.owner d' d z x hz hx hnot' hnot howner)
    · intro d' z hz i hexec' hi
      by_contra hnew
      have hu : s.Unstarted x.owner := (h₁.graph d' z hz).unstarted i x.owner hexec' hi hnew
      exact hu.not_blocked hb
  · have hu : s.Unstarted g := hgraph.unstarted key g hexec hsink hkey
    obtain ⟨htask, hg⟩ := hgraph.job key g hexec hsink
    have hnone : waits g = [] := by
      by_contra hne
      exact hu.not_blocked (hF.blocked g hne)
    refine ⟨h₁.enqueue ?_ ?_ 0, hF₁.enqueue hg hu.2.1 (Or.inl hu.1) hu.2.2 hnone 0⟩
    · intro d' z hz howner
      by_contra hnot'
      have hb : s.Blocked z.owner := ((h₁.graph d' z hz).waiting hnot').1
      exact hu.not_blocked (howner ▸ hb)
    · intro d' z hz i hexec' hi
      rcases hafter d' z hz with ⟨-, rfl⟩ | ⟨hd', hz⟩
      · have : i = key := hgraph.ready.executor_inj i key g hexec' hexec
        exact hexecuted' i (this ▸ List.mem_append_right _ List.mem_cons_self)
      · have htask' := ((h.graph d' z hz).job i g hexec' hi).1
        rw [htask, Task.job.injEq] at htask'
        exact absurd htask'.symm hd'

/-! ### A new graph -/

/-- The nodes of the graph of a scheduler are its executors, in order. -/
structure Executors (first n : Nat) (g : DAG Nat) : Prop where
  size_eq : g.size = n
  executor_eq : ∀ i < n, (g.node i).executor = some (first + i)

theorem executors_add {first n : Nat} {g : DAG Nat}
    (hbuild : Lib.run DAG.build DAG.empty ((List.range n).map fun i => .add (first + i)) = some g) :
    Executors first n g := by
  induction n generalizing g with
  | zero =>
    cases hbuild
    exact ⟨rfl, fun i hi => absurd hi (Nat.not_lt_zero i)⟩
  | succ n ih =>
    rw [List.range_succ, List.map_append, Lib.run_append_eq_some] at hbuild
    obtain ⟨u, hu, hlast⟩ := hbuild
    obtain ⟨hsize, hexec⟩ := ih hu
    rw [List.map_singleton, Lib.run_cons_eq_some] at hlast
    obtain ⟨u', hadd, hnil⟩ := hlast
    rw [Lib.run_nil, Option.some.injEq] at hnil
    subst hnil
    simp only [DAG.build] at hadd
    split_ifs at hadd
    rw [Option.some.injEq] at hadd
    subst hadd
    refine ⟨(DAG.size_addNode ..).trans (congrArg (· + 1) hsize), fun i hi => ?_⟩
    rw [DAG.add, DAG.node_addNode]
    split_ifs with heq
    · rw [heq]
      exact congrArg (fun k => some (first + k)) hsize.symm
    · refine hexec i ?_
      have : i ≠ n := fun h => heq (h.trans hsize.symm)
      omega

theorem Executors.dependencies {first n : Nat} {g g' : DAG Nat} (h : Executors first n g) {edges : List (Nat × Nat)}
    (hbuild : Lib.run DAG.build g (edges.map fun p => .dependency p.1 p.2) = some g') : Executors first n g' := by
  have hok : Lib.StepsMeet DAG.build (fun _ c => ∃ a b, c = .dependency a b) g
      (edges.map fun p => .dependency p.1 p.2) := by
    refine Lib.StepsMeet.of_forall fun c hc _ => ?_
    obtain ⟨p, -, rfl⟩ := List.mem_map.mp hc
    exact ⟨p.1, p.2, rfl⟩
  refine Lib.run_invariant_where ?_ h hok hbuild
  rintro u _ u' hu ⟨a, b, rfl⟩ hstep
  simp only [DAG.build] at hstep
  split_ifs at hstep with hlt
  rw [Option.some.injEq] at hstep
  subst hstep
  refine ⟨(DAG.size_dependency ..).trans hu.size_eq, fun i hi => ?_⟩
  rw [DAG.executor_dependency hlt.1 hlt.2]
  exact hu.executor_eq i hi

/-- The graph that `go` returns for a scheduler: its nodes are the new fibers, and its sink is the fiber
that runs it. -/
theorem scheduler_go {first n src : Nat} {edges : List (Nat × Nat)} {g dag : DAG Nat}
    (hbuild : Lib.run DAG.build DAG.empty (schedulerCmds first n edges) = some g) (hgo : g.go f = .ok (src, dag))
    (hn : 0 < n) (hf : f < first) :
    dag.Ready src ∧ (∀ a < dag.size, a ≠ src + 1 → ∃ b, dag.Edge a b) ∧ (dag.node (src + 1)).executor = some f ∧
      ∀ i k, (dag.node i).executor = some k → i ≠ src + 1 → first ≤ k ∧ k < first + n := by
  have hwf := DAG.run_build_wellFormed hbuild
  obtain ⟨u, hadds, hdeps⟩ := Lib.run_append_eq_some.mp hbuild
  obtain ⟨hsize, hexec⟩ := (executors_add hadds).dependencies hdeps
  have hacyclic : Lib.Acyclic g.Edge := by
    by_contra hcycle
    rw [DAG.go, if_pos ((DAG.hasCycle_iff hwf.toCounted).mpr hcycle)] at hgo
    cases hgo
  have hfresh : g.Fresh f := by
    intro i hi heq
    rw [hexec i (hsize ▸ hi), Option.some.injEq] at heq
    omega
  obtain ⟨g', hgo', hready, hsize', hedge, hexec', hsink⟩ := DAG.go_ready hwf hacyclic (by omega) hfresh
  rw [hgo, Except.ok.injEq, Prod.mk.injEq] at hgo'
  obtain ⟨rfl, rfl⟩ := hgo'
  refine ⟨hready, fun a ha hne => ?_, hsink, fun i k hk hi => ?_⟩
  · obtain ⟨b, hab⟩ := DAG.goEdge_leads hwf.toCounted hacyclic (by omega) a (by omega) hne
    exact ⟨b, (hedge a b).mpr hab⟩
  · rcases lt_trichotomy i g.size with hlt | rfl | hgt
    · rw [hexec' i hlt, hexec i (hsize ▸ hlt), Option.some.injEq] at hk
      omega
    · rw [hready.source_executor] at hk
      cases hk
    · rw [DAG.node_of_size_le dag (by omega)] at hk
      cases hk

/-- The graph of a scheduler, the fibers of its jobs, and the callback of its owner. -/
def addGraph (s : Framework) (n : Nat) (x : ActorDAG) : Framework :=
  let s' : Framework := { s with
    graphs := s.graphs ++ [x]
    fibers := fun f =>
      if s.actor.nextFiber ≤ f ∧ f < s.actor.nextFiber + n then { task := .job s.graphs.length } else s.fibers f
    actor := { s.actor with nextFiber := s.actor.nextFiber + n } }
  s'.modifyFiber x.owner fun y => { y with executor := y.executor.addCallback (.schedule s.graphs.length) }

theorem runScheduler_cases {n : Nat} {edges : List (Nat × Nat)} (hstill : s.Still f)
    (hs : s.runScheduler f n edges = some s') :
    s.Running f ∧ 0 < n ∧ ∃ g src dag, Lib.run DAG.build DAG.empty (schedulerCmds s.actor.nextFiber n edges) = some g ∧
      g.go f = .ok (src, dag) ∧ s' = (s.addGraph n { owner := f, src, dag }).block f := by
  simp only [Framework.runScheduler] at hs
  split_ifs at hs with hguard
  split at hs
  · cases hs
  rename_i g hbuild
  split at hs
  · cases hs
  rename_i src dag hgo
  rw [addCallback_of_still] at hs
  swap
  · exact hstill
  exact ⟨hguard.1, hguard.2, g, src, dag, hbuild, hgo, (Option.some.inj hs).symm⟩

section Scheduled

variable {n : Nat} (howner : x.owner < s.actor.nextFiber)
include howner

theorem addGraph_owner :
    (s.addGraph n x).fibers x.owner =
      { s.fibers x.owner with executor := (s.fibers x.owner).executor.addCallback (.schedule s.graphs.length) } := by
  simp only [addGraph, modifyFiber, Function.update_self]
  rw [if_neg (by omega)]

omit howner in
theorem addGraph_other (hne : f ≠ x.owner) :
    (s.addGraph n x).fibers f =
      if s.actor.nextFiber ≤ f ∧ f < s.actor.nextFiber + n then { task := .job s.graphs.length } else s.fibers f := by
  simp only [addGraph, modifyFiber]
  rw [Function.update_of_ne hne]

theorem scheduled_job (hf : s.actor.nextFiber ≤ f) (hn : f < s.actor.nextFiber + n) :
    ((s.addGraph n x).block x.owner).fibers f = { task := .job s.graphs.length } := by
  have hne : f ≠ x.owner := by omega
  rw [block_other hne, addGraph_other hne, if_pos ⟨hf, hn⟩]

omit howner in
theorem scheduled_other (hf : f < s.actor.nextFiber) (hne : f ≠ x.owner) :
    ((s.addGraph n x).block x.owner).fibers f = s.fibers f := by
  rw [block_other hne, addGraph_other hne, if_neg (by omega)]

theorem scheduled_calling :
    ((s.addGraph n x).block x.owner).calling =
      s.calling ++ ((s.fibers x.owner).executor.callbacks ++ [.schedule s.graphs.length]) := by
  rw [block_calling, addGraph_owner howner]
  rfl

theorem scheduled_callback (hd : .schedule d ∈ (((s.addGraph n x).block x.owner).fibers f).executor.callbacks) :
    .schedule d ∈ (s.fibers f).executor.callbacks ∨ f = x.owner ∧ d = s.graphs.length := by
  by_cases hf : f = x.owner
  · subst hf
    rw [block_self, addGraph_owner howner] at hd
    rcases List.mem_append.mp (show .schedule d ∈ (s.fibers x.owner).executor.callbacks ++ [_] from hd) with hd | hd
    · exact Or.inl hd
    · cases List.mem_singleton.mp hd
      exact Or.inr ⟨rfl, rfl⟩
  · rw [block_other hf, addGraph_other hf] at hd
    split_ifs at hd
    · cases hd
    · exact Or.inl hd

theorem scheduled_blocked (hF : FibersInv waits s) (hrun : s.Running x.owner) :
    ((s.addGraph n x).block x.owner).Blocked x.owner ∧ waits x.owner = [] := by
  refine ⟨⟨?_, ?_, hF.notMem_queue hrun⟩, hF.waits_nil hrun⟩
  · rw [block_self, addGraph_owner howner]
    simp [Fiber.afterYield]
  · rw [block_self, addGraph_owner howner]
    exact hF.running x.owner hrun

theorem GraphsInv.newGraph (h : GraphsInv waits s) (hF : FibersInv waits s) (hrun : s.Running x.owner)
    (hexec : x.exec = none) (hready : x.dag.Ready x.src) (hleads : ∀ a < x.dag.size, a ≠ x.sink → ∃ b, x.dag.Edge a b)
    (hsink : (x.dag.node x.sink).executor = some x.owner)
    (hjobs : ∀ i k, (x.dag.node i).executor = some k → i ≠ x.sink →
      s.actor.nextFiber ≤ k ∧ k < s.actor.nextFiber + n) :
    GraphInv waits ((s.addGraph n x).block x.owner) s.graphs.length x := by
  constructor
  case ready => exact hready
  case leads => exact hleads
  case sink_executor => exact hsink
  case job =>
    intro i k hk hi
    obtain ⟨hk1, hk2⟩ := hjobs i k hk hi
    rw [scheduled_job howner hk1 hk2]
    exact ⟨rfl, hk2⟩
  case unstarted =>
    intro i k hk hi _
    obtain ⟨hk1, hk2⟩ := hjobs i k hk hi
    rw [Unstarted, scheduled_job howner hk1 hk2]
    exact ⟨rfl, rfl, fun hmem => absurd (hF.queued k hmem).1 (by omega)⟩
  case waiting => exact fun _ => scheduled_blocked howner hF hrun
  case pending =>
    intro _
    -- nothing names the new graph but the callback that was just added
    have hcallbacks : .schedule s.graphs.length ∉ (s.fibers x.owner).executor.callbacks := by
      intro hmem
      obtain ⟨z, hz, -⟩ := h.callback x.owner _ hmem
      simp at hz
    have hcalling : .schedule s.graphs.length ∉ s.calling := fun hmem => absurd (h.calling _ hmem) (lt_irrefl _)
    rw [scheduled_calling howner, List.count_append, List.count_append, List.count_eq_zero.mpr hcalling,
      List.count_eq_zero.mpr hcallbacks]
    simp
  case live =>
    intro y hy
    rw [hexec] at hy
    cases hy

theorem EventsInv.addGraph (h : EventsInv callback place waits s) (hF : FibersInv waits s) :
    EventsInv callback place waits (s.addGraph n x) := by
  -- first the fibers of the jobs, and then the callback of the owner
  have hjobs : EventsInv callback place waits { s with
      fibers := fun f =>
        if s.actor.nextFiber ≤ f ∧ f < s.actor.nextFiber + n then { task := .job s.graphs.length } else s.fibers f } := by
    refine h.addJobs (d := s.graphs.length) fun k => ?_
    split_ifs with hk
    · refine Or.inr ⟨rfl, fun e he => ?_⟩
      have := (h.mem_waits k e).mpr he
      rw [hF.waits_unused hk.1] at this
      cases this
    · exact Or.inl rfl
  have hmade : EventsInv callback place waits { s with
      graphs := s.graphs ++ [x]
      fibers := fun f =>
        if s.actor.nextFiber ≤ f ∧ f < s.actor.nextFiber + n then { task := .job s.graphs.length } else s.fibers f
      actor := { s.actor with nextFiber := s.actor.nextFiber + n } } :=
    hjobs.same rfl rfl h.idle rfl fun _ => rfl
  have howner' : ¬ (s.actor.nextFiber ≤ x.owner ∧ x.owner < s.actor.nextFiber + n) := by omega
  have hadded := Fiber.fresh_addCallback (s.fibers x.owner).toFiber (h.grows x.owner) (.schedule s.graphs.length)
  refine hmade.setFiber ?_ ?_ ?_ ?_ ?_ ?_
  · intro e he
    simp only [if_neg howner', hadded, List.mem_append, List.mem_singleton, reduceCtorEq, or_false] at he
    exact h.fresh x.owner e he
  · intro e
    simp only [if_neg howner', hadded, List.count_append]
    simpa using h.fresh_once x.owner e
  · simp only [if_neg howner']
    exact Fiber.Grows.addCallback (h.grows x.owner) _
  · intro e he
    simp only [if_neg howner', Executor.addCallback, List.mem_append, List.mem_singleton, reduceCtorEq, or_false] at he
    exact h.client x.owner e he
  · intro e he
    simp only [if_neg howner']
    exact h.awaited x.owner e he
  · intro e htask hdel
    simp only [if_neg howner'] at htask hdel ⊢
    exact h.serving x.owner e htask hdel

theorem FibersInv.addGraph (h : FibersInv waits s) (hrun : s.Running x.owner) : FibersInv waits (s.addGraph n x) := by
  have howner' : ¬ (s.actor.nextFiber ≤ x.owner ∧ x.owner < s.actor.nextFiber + n) := by omega
  have hmade : FibersInv waits { s with
      graphs := s.graphs ++ [x]
      fibers := fun f =>
        if s.actor.nextFiber ≤ f ∧ f < s.actor.nextFiber + n then { task := .job s.graphs.length } else s.fibers f
      actor := { s.actor with nextFiber := s.actor.nextFiber + n } } :=
    (h.addJobs n s.graphs.length).same rfl rfl rfl fun _ => id
  refine hmade.setFiber (Nat.lt_add_right n howner) (h.waits_nil hrun) (h.notMem_queue hrun) fun _ => ?_
  simp only [if_neg howner']
  exact h.running x.owner hrun

theorem GroupsInv.addGraph (h : GroupsInv waits s) (hE : EventsInv callback place waits s) :
    GroupsInv waits (s.addGraph n x) := by
  refine h.keep rfl (fun _ => Or.inl rfl) fun k e he => Or.inr ?_
  by_cases hk : k = x.owner
  · subst hk
    rw [addGraph_owner howner, Fiber.fresh_addCallback _ (hE.grows x.owner)] at he
    simpa using he
  · rw [addGraph_other hk] at he
    split_ifs at he
    · simp [Fiber.fresh] at he
    · exact he

end Scheduled

theorem GraphsInv.runScheduler (h : GraphsInv waits s) (hF : FibersInv waits s) {n : Nat} {edges : List (Nat × Nat)}
    (hstill : s.Still f) (hs : s.runScheduler f n edges = some s') : GraphsInv waits s' := by
  obtain ⟨hrun, hn, g, src, dag, hbuild, hgo, rfl⟩ := runScheduler_cases hstill hs
  have hf := hF.lt_of_running hrun
  obtain ⟨hready, hleads, hsink, hjobs⟩ := scheduler_go hbuild hgo hn hf
  set x : ActorDAG := { owner := f, src, dag } with hx
  have hnew := h.newGraph (x := x) hf hF hrun rfl hready hleads hsink hjobs
  have hafter : ∀ (d : Nat) (z : ActorDAG), (s.graphs ++ [x])[d]? = some z →
      s.graphs[d]? = some z ∨ d = s.graphs.length ∧ z = x := by
    intro d z hz
    rcases lt_trichotomy d s.graphs.length with hd | rfl | hd
    · rw [List.getElem?_append_left hd] at hz
      exact Or.inl hz
    · simp only [List.getElem?_concat_length, Option.some.injEq] at hz
      exact Or.inr ⟨rfl, hz.symm⟩
    · rw [List.getElem?_eq_none (by simp; omega)] at hz
      cases hz
  -- the owner of a graph that is not over is blocked, and so it is not `f`
  have howner : ∀ (d : Nat) (z : ActorDAG), s.graphs[d]? = some z → ¬ z.Over → z.owner ≠ f := by
    intro d z hz hover heq
    exact hrun.not_blocked (heq ▸ ((h.graph d z hz).waiting hover).1)
  constructor
  case graph =>
    intro d z hz
    rcases hafter d z hz with hz | ⟨rfl, rfl⟩
    · refine (h.graph d z hz).frame (Nat.le_add_right _ _) ?_ ?_ ?_ ?_
      · intro k hk hjob
        by_cases hkf : k = f
        · subst hkf
          rw [block_self, addGraph_owner (x := x) hf]
          exact hjob
        · rw [scheduled_other (x := x) hk hkf]
          exact hjob
      · intro _ k _ _ _ hk hu
        have hkf : k ≠ f := by
          rintro rfl
          exact hrun.not_unstarted hu
        rw [Unstarted, scheduled_other (x := x) hk hkf]
        exact hu
      · intro hover hb hnone
        rw [Blocked, scheduled_other (x := x) (hF.lt_of_blocked hb) (howner d z hz hover)]
        exact ⟨hb, hnone⟩
      · intro hover
        have hold : .schedule d ∉ (s.fibers f).executor.callbacks := by
          intro hd
          obtain ⟨z', hz', hown⟩ := h.callback f d hd
          rw [hz, Option.some.injEq] at hz'
          exact howner d z hz hover (hz' ▸ hown)
        have hlt : d < s.graphs.length := (List.getElem?_eq_some_iff.mp hz).1
        rw [scheduled_calling (x := x) hf, List.count_append, List.count_append, List.count_eq_zero.mpr hold,
          List.count_singleton]
        simp
        omega
    · exact hnew
  case owner =>
    intro d₁ d₂ z₁ z₂ h₁ h₂ hnot₁ hnot₂ heq
    rcases hafter d₁ z₁ h₁ with h₁ | ⟨rfl, rfl⟩ <;> rcases hafter d₂ z₂ h₂ with h₂ | ⟨rfl, rfl⟩
    · exact h.owner d₁ d₂ z₁ z₂ h₁ h₂ hnot₁ hnot₂ heq
    · exact absurd heq (howner d₁ z₁ h₁ hnot₁)
    · exact absurd heq.symm (howner d₂ z₂ h₂ hnot₂)
    · rfl
  case callback =>
    intro k d hd
    rcases scheduled_callback (x := x) hf hd with hd | ⟨rfl, rfl⟩
    · obtain ⟨z, hz, hown⟩ := h.callback k d hd
      refine ⟨z, ?_, hown⟩
      show (s.graphs ++ [x])[d]? = some z
      rw [List.getElem?_append_left (List.getElem?_eq_some_iff.mp hz).1]
      exact hz
    · exact ⟨x, List.getElem?_concat_length, rfl⟩
  case calling =>
    intro d hd
    show d < (s.graphs ++ [x]).length
    rw [List.length_append, List.length_singleton]
    rw [scheduled_calling (x := x) hf, List.mem_append, List.mem_append, List.mem_singleton] at hd
    rcases hd with hd | hd | hd
    · exact Nat.lt_succ_of_lt (h.calling d hd)
    · obtain ⟨z, hz, -⟩ := h.callback f d hd
      exact Nat.lt_succ_of_lt (List.getElem?_eq_some_iff.mp hz).1
    · cases hd
      exact Nat.lt_succ_self _

end Raster.Framework
