import Raster.Net.Wakeup.Events

/-!
# Waking a fiber: the queues and the groups

`FibersInv` says that a queued fiber is alive and new or blocked, and that a fiber with something to
wait for is not queued. `GroupsInv` ties what a fiber waits for to the counter of its group, so that the
group is complete with the last of its events.
-/

namespace Raster.Framework

open Raster.Fiber (Callback)

variable {callback : Prop} {place : Nat → Place} {waits waits' : Nat → List Nat} {s s' : Framework} {e f : Nat}

/-! ### The queues -/

theorem FibersInv.same (h : FibersInv waits s) (hfibers : s'.fibers = s.fibers) (hpool : s'.actor.pool = s.actor.pool)
    (hnext : s'.actor.nextFiber = s.actor.nextFiber) (hwaits : ∀ f, waits' f ≠ [] → waits f ≠ []) :
    FibersInv waits' s' := by
  have hqueue : s'.queue = s.queue := congrArg (List.map Prod.fst) hpool
  constructor
  case blocked =>
    intro f hf
    have := h.blocked f (hwaits f hf)
    rwa [Blocked, hfibers, hqueue]
  case queue_nodup => exact hqueue ▸ h.queue_nodup
  case queued =>
    rw [hqueue, hnext, hfibers]
    exact h.queued
  case unused =>
    rw [hnext, hfibers]
    exact h.unused
  case running =>
    intro f hf
    rw [Running, hfibers] at hf
    rw [hfibers]
    exact h.running f hf

theorem FibersInv.enqueue (h : FibersInv waits s) (hlt : f < s.actor.nextFiber) (hdel : (s.fibers f).deleted = false)
    (hstatus : (s.fibers f).status = .init ∨ (s.fibers f).status = .block) (hq : f ∉ s.queue) (hnone : waits f = [])
    (poolId : Nat) : FibersInv waits { s with actor := s.actor.addFiber f poolId } := by
  have hqueue : ({ s with actor := s.actor.addFiber f poolId } : Framework).queue = s.queue ++ [f] := by
    simp [queue, Actor.addFiber]
  constructor
  case blocked =>
    intro g hg
    obtain ⟨hst, hd, hnq⟩ := h.blocked g hg
    refine ⟨hst, hd, ?_⟩
    rw [hqueue, List.mem_append, List.mem_singleton]
    rintro (hmem | rfl)
    · exact hnq hmem
    · exact hg hnone
  case queue_nodup =>
    rw [hqueue, ← List.concat_eq_append]
    exact List.Nodup.concat hq h.queue_nodup
  case queued =>
    intro g hg
    rw [hqueue, List.mem_append, List.mem_singleton] at hg
    rcases hg with hg | rfl
    · exact h.queued g hg
    · exact ⟨hlt, hdel, hstatus⟩
  case unused => exact h.unused
  case running => exact h.running

theorem FibersInv.notMem_queue (h : FibersInv waits s) (hrun : s.Running f) : f ∉ s.queue := by
  intro hmem
  obtain ⟨-, -, hst⟩ := h.queued f hmem
  rw [Running] at hrun
  rcases hst with hst | hst <;> rw [hst] at hrun <;> cases hrun

theorem FibersInv.lt_of_running (h : FibersInv waits s) (hrun : s.Running f) : f < s.actor.nextFiber := by
  by_contra hge
  rw [Running, h.unused f (by omega)] at hrun
  cases hrun

theorem FibersInv.lt_of_blocked (h : FibersInv waits s) (hb : s.Blocked f) : f < s.actor.nextFiber := by
  by_contra hge
  have := hb.1
  rw [h.unused f (by omega)] at this
  cases this

theorem FibersInv.waits_nil (h : FibersInv waits s) (hrun : s.Running f) : waits f = [] := by
  by_contra hne
  have := (h.blocked f hne).1
  rw [Running] at hrun
  rw [this] at hrun
  cases hrun

theorem FibersInv.waits_unused (h : FibersInv waits s) (hf : s.actor.nextFiber ≤ f) : waits f = [] := by
  by_contra hne
  have := h.lt_of_blocked (h.blocked f hne)
  omega

theorem FibersInv.setFiber (h : FibersInv waits s) {x : TaskFiber} (hlt : f < s.actor.nextFiber) (hnone : waits f = [])
    (hq : f ∉ s.queue) (hrun : x.status = .running → x.deleted = false) :
    FibersInv waits { s with fibers := Function.update s.fibers f x } := by
  have hother : ∀ g, g ≠ f → Function.update s.fibers f x g = s.fibers g := fun g hg => Function.update_of_ne hg ..
  constructor
  case blocked =>
    intro g hg
    have hne : g ≠ f := by
      rintro rfl
      exact hg hnone
    simp only [Blocked, hother g hne]
    exact h.blocked g hg
  case queue_nodup => exact h.queue_nodup
  case queued =>
    intro g hg
    have hne : g ≠ f := by
      rintro rfl
      exact hq hg
    simp only [hother g hne]
    exact h.queued g hg
  case unused =>
    intro g hg
    have hne : g ≠ f := by
      have : s.actor.nextFiber ≤ g := hg
      omega
    simp only [hother g hne]
    exact h.unused g hg
  case running =>
    intro g hg
    by_cases hgf : g = f
    · subst hgf
      simp only [Running, Function.update_self] at hg ⊢
      exact hrun hg
    · simp only [Running, hother g hgf] at hg ⊢
      exact h.running g hg

theorem FibersInv.setWaits (h : FibersInv waits s) (hb : s.Blocked f) (es : List Nat) :
    FibersInv (Function.update waits f es) s where
  blocked g hg := by
    by_cases hgf : g = f
    · exact hgf ▸ hb
    · rw [Function.update_of_ne hgf] at hg
      exact h.blocked g hg
  queue_nodup := h.queue_nodup
  queued := h.queued
  unused := h.unused
  running := h.running

theorem FibersInv.newFiber (h : FibersInv waits s) {x : TaskFiber} (hinit : x.status = .init) (hdel : x.deleted = false)
    (poolId : Nat) :
    FibersInv waits { s with
      fibers := Function.update s.fibers s.actor.nextFiber x
      actor := { s.actor with nextFiber := s.actor.nextFiber + 1 }.addFiber s.actor.nextFiber poolId } := by
  have hreserved : FibersInv waits { s with actor := { s.actor with nextFiber := s.actor.nextFiber + 1 } } :=
    { h with
      queued := fun g hg => ⟨Nat.lt_succ_of_lt (h.queued g hg).1, (h.queued g hg).2⟩
      unused := fun g hg => h.unused g (Nat.le_of_succ_le hg) }
  have hnone := h.waits_unused (f := s.actor.nextFiber) le_rfl
  have hq : s.actor.nextFiber ∉ s.queue := fun hmem => absurd (h.queued _ hmem).1 (lt_irrefl _)
  have hset := hreserved.setFiber (x := x) (Nat.lt_succ_self _) hnone hq fun _ => hdel
  have hself : Function.update s.fibers s.actor.nextFiber x s.actor.nextFiber = x := Function.update_self ..
  exact hset.enqueue (Nat.lt_succ_self _) (by simpa only [hself] using hdel) (by simpa only [hself] using Or.inl hinit)
    hq hnone poolId

theorem FibersInv.run (h : FibersInv waits s) {poolId : Nat} (hs : s.run f poolId = some s') : FibersInv waits s' := by
  simp only [Framework.run] at hs
  split_ifs at hs with hguard
  obtain ⟨hmem, -, hdel, -⟩ := hguard
  rw [Option.some.injEq] at hs
  subst hs
  have hperm : s.queue.Perm (f :: (s.actor.pool.erase (f, poolId)).map Prod.fst) :=
    (List.perm_cons_erase hmem).map Prod.fst
  have hnodup := hperm.nodup_iff.mp h.queue_nodup
  have hsub : ∀ g ∈ (s.actor.pool.erase (f, poolId)).map Prod.fst, g ∈ s.queue := fun g hg =>
    hperm.mem_iff.mpr (List.mem_cons_of_mem _ hg)
  have hf : f ∈ s.queue := hperm.mem_iff.mpr List.mem_cons_self
  have htaken : FibersInv waits { s with actor := { s.actor with pool := s.actor.pool.erase (f, poolId) } } :=
    { h with
      blocked := fun g hg => ⟨(h.blocked g hg).1, (h.blocked g hg).2.1, fun hmem => (h.blocked g hg).2.2 (hsub g hmem)⟩
      queue_nodup := (List.nodup_cons.mp hnodup).2
      queued := fun g hg => h.queued g (hsub g hg) }
  refine htaken.setFiber (h.queued f hf).1 ?_ (List.nodup_cons.mp hnodup).1 fun _ => hdel
  by_contra hne
  exact (h.blocked f hne).2.2 hf

theorem FibersInv.block (h : FibersInv waits s) (hrun : s.Running f) (es : List Nat) :
    FibersInv (Function.update waits f es) (s.block f) ∧ (s.block f).Blocked f := by
  have hset := h.setFiber (x := { s.fibers f with toFiber := (s.fibers f).toFiber.afterYield .block })
    (h.lt_of_running hrun) (h.waits_nil hrun) (h.notMem_queue hrun) (by simp [Fiber.afterYield])
  have h₁ : FibersInv waits (s.block f) := hset.same rfl rfl rfl fun _ => id
  have hb : (s.block f).Blocked f := by
    refine ⟨?_, ?_, h.notMem_queue hrun⟩
    · simp [Framework.block, modifyFiber, Fiber.afterYield]
    · simpa [Framework.block, modifyFiber, Fiber.afterYield] using h.running f hrun
  exact ⟨h₁.setWaits hb es, hb⟩

theorem FibersInv.addJobs (h : FibersInv waits s) (n d : Nat) :
    FibersInv waits { s with
      fibers := fun x => if s.actor.nextFiber ≤ x ∧ x < s.actor.nextFiber + n then { task := .job d } else s.fibers x
      actor := { s.actor with nextFiber := s.actor.nextFiber + n } } := by
  have hold : ∀ g < s.actor.nextFiber,
      (if s.actor.nextFiber ≤ g ∧ g < s.actor.nextFiber + n then ({ task := .job d } : TaskFiber) else s.fibers g) =
        s.fibers g := fun g hg => if_neg (by omega)
  constructor
  case blocked =>
    intro g hg
    have hb := h.blocked g hg
    rw [Blocked]
    simp only [hold g (h.lt_of_blocked hb)]
    exact hb
  case queue_nodup => exact h.queue_nodup
  case queued =>
    intro g hg
    have hq := h.queued g hg
    simp only [hold g hq.1]
    exact ⟨Nat.lt_add_right n hq.1, hq.2⟩
  case unused =>
    intro g hg
    have hg : s.actor.nextFiber + n ≤ g := hg
    simp only [if_neg (show ¬ (s.actor.nextFiber ≤ g ∧ g < s.actor.nextFiber + n) by omega)]
    exact h.unused g (by omega)
  case running =>
    intro g hg
    simp only [Running] at hg ⊢
    split_ifs at hg ⊢
    exact h.running g hg

/-! ### The groups -/

theorem GroupsInv.frame (h : GroupsInv waits s) (hinv : s'.actor.group.Inv)
    (hwaits : ∀ f, ∀ e ∈ waits f, (s'.actor.events e).group = (s.actor.events e).group)
    (hcount : ∀ f, ∀ e ∈ waits f, (s.actor.events e).group ≠ 0 →
      s'.actor.group.countAt (s.actor.events e).group = s.actor.group.countAt (s.actor.events e).group)
    (hfresh : ∀ f e, .addEvent e ∈ (s'.fibers f).fresh → (s'.actor.events e).group = 0) : GroupsInv waits s' where
  group := hinv
  fresh := hfresh
  nodup := h.nodup
  single f e he hzero := h.single f e he (hwaits f e he ▸ hzero)
  same f e he e' he' := by
    rw [hwaits f e he, hwaits f e' he']
    exact h.same f e he e' he'
  counter f e he hne := by
    rw [hwaits f e he] at hne ⊢
    rw [hcount f e he hne]
    exact h.counter f e he hne
  keys f g e he e' he' hne heq := by
    rw [hwaits f e he] at hne heq
    rw [hwaits g e' he'] at heq
    exact h.keys f g e he e' he' hne heq

theorem GroupsInv.keep (h : GroupsInv waits s) (hgroup : s'.actor.group = s.actor.group)
    (hevents : ∀ x, (s'.actor.events x).group = (s.actor.events x).group ∨
      (s'.actor.events x).group = 0 ∧ ∀ f, x ∉ waits f)
    (hfresh : ∀ f x, .addEvent x ∈ (s'.fibers f).fresh →
      (s'.actor.events x).group = 0 ∨ .addEvent x ∈ (s.fibers f).fresh) : GroupsInv waits s' := by
  refine h.frame (hgroup ▸ h.group) ?_ (fun _ _ _ _ => by rw [hgroup]) ?_
  · intro f e he
    exact (hevents e).resolve_right fun hleft => hleft.2 f he
  · intro f x hx
    rcases hfresh f x hx with hzero | hmem
    · exact hzero
    · rcases hevents x with heq | ⟨hzero, -⟩
      · rw [heq]
        exact h.fresh f x hmem
      · exact hzero

theorem GroupsInv.setFiber (h : GroupsInv waits s) {x : TaskFiber}
    (hfresh : ∀ e, .addEvent e ∈ x.fresh → (s.actor.events e).group = 0 ∨ .addEvent e ∈ (s.fibers f).fresh) :
    GroupsInv waits { s with fibers := Function.update s.fibers f x } := by
  refine h.keep rfl (fun _ => Or.inl rfl) fun g e he => ?_
  by_cases hg : g = f
  · subst hg
    simp only [Function.update_self] at he
    exact hfresh e he
  · simp only [Function.update_of_ne hg] at he
    exact Or.inr he

theorem GroupsInv.setWaits (h : GroupsInv waits s) {es : List Nat} (hnodup : es.Nodup) {k : Nat}
    (hgroup : ∀ e ∈ es, (s.actor.events e).group = k) (hsingle : k = 0 → es.length ≤ 1)
    (hcounter : k ≠ 0 → es.length ≤ s.actor.group.countAt k)
    (hkey : k ≠ 0 → ∀ g, ∀ e ∈ waits g, (s.actor.events e).group ≠ k) :
    GroupsInv (Function.update waits f es) s := by
  have hself : Function.update waits f es f = es := Function.update_self ..
  have hother : ∀ g, g ≠ f → Function.update waits f es g = waits g := fun g hg => Function.update_of_ne hg ..
  constructor
  case group => exact h.group
  case fresh => exact h.fresh
  case nodup =>
    intro g
    by_cases hg : g = f
    · rw [hg, hself]
      exact hnodup
    · rw [hother g hg]
      exact h.nodup g
  case single =>
    intro g e he hzero
    by_cases hg : g = f
    · rw [hg, hself] at he ⊢
      have hk : k = 0 := (hgroup e he).symm.trans hzero
      obtain ⟨e', rfl⟩ := List.length_eq_one_iff.mp (Nat.le_antisymm (hsingle hk) (List.length_pos_of_mem he))
      rw [List.mem_singleton.mp he]
    · rw [hother g hg] at he ⊢
      exact h.single g e he hzero
  case same =>
    intro g e he e' he'
    by_cases hg : g = f
    · rw [hg, hself] at he he'
      rw [hgroup e he, hgroup e' he']
    · rw [hother g hg] at he he'
      exact h.same g e he e' he'
  case counter =>
    intro g e he hne
    by_cases hg : g = f
    · rw [hg, hself] at he ⊢
      rw [hgroup e he] at hne ⊢
      exact hcounter hne
    · rw [hother g hg] at he ⊢
      exact h.counter g e he hne
  case keys =>
    intro g g' e he e' he' hne heq
    by_cases hg : g = f <;> by_cases hg' : g' = f
    · rw [hg, hg']
    · rw [hg, hself] at he
      rw [hother g' hg'] at he'
      rw [hgroup e he] at hne heq
      exact absurd heq.symm (hkey hne g' e' he')
    · rw [hother g hg] at he
      rw [hg', hself] at he'
      rw [hgroup e' he'] at heq
      exact absurd heq (hkey (heq ▸ hne) g e he)
    · rw [hother g hg] at he
      rw [hother g' hg'] at he'
      exact h.keys g g' e he e' he' hne heq

theorem EventsInv.freshEvents_nodup (h : EventsInv callback place waits s) (f : Nat) : (s.freshEvents f).Nodup := by
  rw [List.nodup_iff_count_le_one]
  intro e
  rw [freshEvents, count_handedOver]
  exact h.fresh_once f e

theorem fresh_of_block {g : Nat} {c : Callback} (hc : c ∈ ((s.block f).fibers g).fresh) :
    g ≠ f ∧ c ∈ (s.fibers g).fresh := by
  by_cases hg : g = f
  · subst hg
    have : (s.block g).fibers g = { s.fibers g with toFiber := (s.fibers g).toFiber.afterYield .block } :=
      Function.update_self ..
    rw [this, Fiber.fresh_block] at hc
    cases hc
  · refine ⟨hg, ?_⟩
    have : (s.block f).fibers g = s.fibers g := Function.update_of_ne hg ..
    rwa [this] at hc

theorem GroupsInv.block (h : GroupsInv waits s) (hE : EventsInv callback place waits s)
    (hfew : (s.fibers f).fresh.length ≤ 1) : GroupsInv (Function.update waits f (s.freshEvents f)) (s.block f) := by
  have h₁ : GroupsInv waits (s.block f) :=
    h.keep rfl (fun _ => Or.inl rfl) fun g e he => Or.inr (fresh_of_block he).2
  refine h₁.setWaits (k := 0) (hE.freshEvents_nodup f) ?_ ?_ (fun hk => absurd rfl hk) fun hk => absurd rfl hk
  · intro e he
    exact h.fresh f e (mem_freshEvents.mp he)
  · intro _
    exact (List.length_filterMap_le _ _).trans hfew

theorem GroupsInv.blockGroup (h : GroupsInv waits s) (hE : EventsInv callback place waits s) (hnone : waits f = [])
    {es : List Nat} (hes : ∀ e ∈ es, (s.actor.events e).executor = some f)
    (hall : ∀ e, .addEvent e ∈ (s.fibers f).fresh → e ∈ es) {actor : Actor}
    (hwait : s.actor.waitGroup es = some (true, actor)) :
    GroupsInv (Function.update waits f (s.freshEvents f)) (({ s with actor } : Framework).block f) := by
  -- what `waitGroup` has done
  obtain ⟨i, group, rfl, hcreated⟩ : ∃ i group, actor = { s.actor with group, events := Actor.setGroups s.actor.events i es } ∧
      Group.Created s.actor.group es.length i group := by
    obtain ⟨-, i, group, hcreate, hactor⟩ := Actor.waitGroup_made hwait
    refine ⟨i, group, hactor, ?_⟩
    have hpos : 0 < es.length := by
      by_contra hzero
      rw [Group.create, if_neg hzero] at hcreate
      cases hcreate
    obtain ⟨i', group', hcreate', hcreated⟩ := Group.create_spec h.group hpos
    rw [hcreate, Option.some.injEq, Prod.mk.injEq] at hcreate'
    obtain ⟨rfl, rfl⟩ := hcreate'
    exact hcreated
  have hgroup : ∀ e, (Actor.setGroups s.actor.events i es e).group =
      if e ∈ es then i else (s.actor.events e).group := by
    intro e
    rw [Actor.setGroups_apply]
    split_ifs <;> rfl
  -- the events of other fibers are not in the group
  have hother : ∀ g e, g ≠ f → Owned callback (s.actor.events e) g → e ∉ es := by
    rintro g e hg (hexec | ⟨-, hexec⟩) hmem <;> rw [hes e hmem] at hexec
    · exact hg (Option.some.inj hexec).symm
    · cases hexec
  have hawaited : ∀ g, ∀ e ∈ waits g, e ∉ es := by
    intro g e he
    have hg : g ≠ f := by
      rintro rfl
      rw [hnone] at he
      cases he
    have hfits := hE.fits e
    rw [(hE.mem_waits g e).mp he] at hfits
    exact hother g e hg hfits.2.1
  have hkeep : ∀ g, ∀ e ∈ waits g, (Actor.setGroups s.actor.events i es e).group = (s.actor.events e).group := by
    intro g e he
    rw [hgroup, if_neg (hawaited g e he)]
  have hne : ∀ g, ∀ e ∈ waits g, (s.actor.events e).group ≠ 0 → (s.actor.events e).group ≠ i := by
    intro g e he hk heq
    have hle := h.counter g e he hk
    rw [heq, hcreated.unused] at hle
    have := List.length_pos_of_mem he
    omega
  have h₁ : GroupsInv waits
      (({ s with actor := { s.actor with group, events := Actor.setGroups s.actor.events i es } } : Framework).block f) := by
    refine h.frame hcreated.inv hkeep ?_ ?_
    · intro g e he hk
      show group.countAt _ = _
      rw [hcreated.countAt_eq, if_neg (hne g e he hk)]
    · intro g e he
      obtain ⟨hg, hmem⟩ := fresh_of_block he
      have hmem : .addEvent e ∈ (s.fibers g).fresh := hmem
      have hfits := hE.fits e
      rw [hE.fresh g e hmem] at hfits
      show (Actor.setGroups s.actor.events i es e).group = 0
      rw [hgroup, if_neg (hother g e hg hfits.2.1)]
      exact h.fresh g e hmem
  refine h₁.setWaits (k := i) (hE.freshEvents_nodup f) ?_ (fun hk => absurd hk hcreated.key_ne_zero) ?_ ?_
  · intro e he
    show (Actor.setGroups s.actor.events i es e).group = i
    rw [hgroup, if_pos (hall e (mem_freshEvents.mp he))]
  · intro _
    show _ ≤ group.countAt i
    rw [hcreated.countAt_eq, if_pos rfl]
    exact ((hE.freshEvents_nodup f).subperm fun e he => hall e (mem_freshEvents.mp he)).length_le
  · intro _ g e he
    show (Actor.setGroups s.actor.events i es e).group ≠ i
    rw [hkeep g e he]
    intro heq
    refine hne g e he ?_ heq
    rw [heq]
    exact hcreated.key_ne_zero

theorem GroupsInv.erase (h : GroupsInv waits s) (he : e ∈ waits f) (hown : ∀ g, e ∈ waits g → g = f)
    (hinv : s'.actor.group.Inv) (hfresh : ∀ g x, .addEvent x ∈ (s'.fibers g).fresh → (s'.actor.events x).group = 0)
    (hother : ∀ x, x ≠ e → (s'.actor.events x).group = (s.actor.events x).group)
    (hkeep : ∀ g, ∀ x ∈ waits g, g ≠ f → (s.actor.events x).group ≠ 0 →
      s'.actor.group.countAt (s.actor.events x).group = s.actor.group.countAt (s.actor.events x).group)
    (hdec : (s.actor.events e).group ≠ 0 →
      s.actor.group.countAt (s.actor.events e).group - 1 ≤ s'.actor.group.countAt (s.actor.events e).group) :
    GroupsInv (Function.update waits f ((waits f).erase e)) s' := by
  have hlength : ((waits f).erase e).length = (waits f).length - 1 := List.length_erase_of_mem he
  have hwaits : ∀ g, ∀ x ∈ Function.update waits f ((waits f).erase e) g, x ≠ e ∧ x ∈ waits g := by
    intro g x hx
    by_cases hg : g = f
    · subst hg
      rw [Function.update_self] at hx
      exact (h.nodup g).mem_erase_iff.mp hx
    · rw [Function.update_of_ne hg] at hx
      refine ⟨?_, hx⟩
      rintro rfl
      exact hg (hown g hx)
  constructor
  case group => exact hinv
  case fresh => exact hfresh
  case nodup =>
    intro g
    by_cases hg : g = f
    · rw [hg, Function.update_self]
      exact (h.nodup f).erase e
    · rw [Function.update_of_ne hg]
      exact h.nodup g
  case single =>
    intro g x hx hzero
    obtain ⟨hxe, hxg⟩ := hwaits g x hx
    rw [hother x hxe] at hzero
    have hlist := h.single g x hxg hzero
    by_cases hg : g = f
    · subst hg
      rw [hlist, List.mem_singleton] at he
      exact absurd he.symm hxe
    · rw [Function.update_of_ne hg]
      exact hlist
  case same =>
    intro g x hx y hy
    obtain ⟨hxe, hxg⟩ := hwaits g x hx
    obtain ⟨hye, hyg⟩ := hwaits g y hy
    rw [hother x hxe, hother y hye]
    exact h.same g x hxg y hyg
  case counter =>
    intro g x hx hne
    obtain ⟨hxe, hxg⟩ := hwaits g x hx
    rw [hother x hxe] at hne ⊢
    by_cases hg : g = f
    · subst hg
      rw [Function.update_self]
      have hsame := h.same g x hxg e he
      have hle := h.counter g x hxg hne
      have := hdec (hsame ▸ hne)
      rw [hsame] at this
      omega
    · rw [Function.update_of_ne hg, hkeep g x hxg hg hne]
      exact h.counter g x hxg hne
  case keys =>
    intro g g' x hx y hy hne heq
    obtain ⟨hxe, hxg⟩ := hwaits g x hx
    obtain ⟨hye, hyg⟩ := hwaits g' y hy
    rw [hother x hxe] at hne heq
    rw [hother y hye] at heq
    exact h.keys g g' x hxg y hyg hne heq

theorem GroupsInv.completed (h : GroupsInv waits s) (he : e ∈ waits f) (hown : ∀ g, e ∈ waits g → g = f)
    {queued : Bool} {group : Group}
    (hcase : (s.actor.events e).group = 0 ∧ queued = true ∧ group = s.actor.group ∨
      (s.actor.events e).group ≠ 0 ∧ s.actor.group.finish (s.actor.events e).group = some (queued, group))
    (hgroup : s'.actor.group = group) (hself : (s'.actor.events e).group = 0)
    (hother : ∀ x, x ≠ e → (s'.actor.events x).group = (s.actor.events x).group) (hfibers : s'.fibers = s.fibers) :
    GroupsInv (Function.update waits f ((waits f).erase e)) s' ∧ (queued = true → (waits f).erase e = []) := by
  subst hgroup
  have hfresh : ∀ g x, .addEvent x ∈ (s'.fibers g).fresh → (s'.actor.events x).group = 0 := by
    intro g x hx
    by_cases hxe : x = e
    · rw [hxe, hself]
    · rw [hother x hxe]
      exact h.fresh g x (hfibers ▸ hx)
  rcases hcase with ⟨hzero, -, hsame⟩ | ⟨hne, hfinish⟩
  · refine ⟨h.erase he hown (hsame ▸ h.group) hfresh hother (fun _ _ _ _ _ => by rw [hsame]) ?_, fun _ => ?_⟩
    · exact fun hne => absurd hzero hne
    · rw [h.single f e he hzero]
      simp
  · have hle := h.counter f e he hne
    have hpos := List.length_pos_of_mem he
    obtain ⟨done, group', hfinish', hfinished⟩ := Group.finish_spec h.group hne (by omega)
    rw [hfinish, Option.some.injEq, Prod.mk.injEq] at hfinish'
    obtain ⟨rfl, rfl⟩ := hfinish'
    refine ⟨h.erase he hown hfinished.inv hfresh hother ?_ ?_, fun hq => ?_⟩
    · intro g x hx hg hk
      rw [hfinished.countAt_eq, if_neg fun heq => hg (h.keys g f x hx e he hk heq)]
    · intro _
      rw [hfinished.countAt_eq, if_pos rfl]
    · have hone := hfinished.done_iff.mp hq
      have hlength : ((waits f).erase e).length = (waits f).length - 1 := List.length_erase_of_mem he
      exact List.eq_nil_of_length_eq_zero (by omega)

end Raster.Framework
