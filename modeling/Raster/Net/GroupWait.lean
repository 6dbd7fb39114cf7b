import Raster.Net.Actor
import Raster.Lib.Machine
import Mathlib.Data.List.Count

/-!
# Waiting for a group of events

Fibers call `Actor::waitGroup` (`MultiAsyncClient::yield`, `yieldMultiTask`) and block, and the events
complete in any order. A fiber is queued again with the last event of its own group, whatever happens
to the other groups in between.

The invariant says that the counter of the key of an open group is the number of its events that have
not completed, that the open groups have different keys, and that an event carries the key of its group
until it completes.
-/

namespace Raster

/-- One call of `waitGroup` and the key it was given. -/
structure Wait where
  fiber : Nat
  events : List Nat
  key : Nat
  deriving DecidableEq, Repr

/-- The actor, with the calls of `waitGroup` and the completions so far. -/
structure GroupWait where
  actor : Actor
  waits : List Wait := []
  completed : List Nat := []

namespace GroupWait

inductive Label
  /-- A fiber calls `waitGroup` and blocks. -/
  | wait (fiber : Nat) (events : List Nat)
  /-- An event completes or fails, and `Actor::execute` is called. -/
  | complete (event : Nat)
  deriving DecidableEq, Repr

/-- What a step of a fiber or of an event loop may be: a fiber waits for events of its own that have not
completed, and an event that is waited for completes once. -/
def Allowed (s : GroupWait) : Label → Prop
  | .wait fiber events => events ≠ [] ∧ events.Nodup ∧ fiber ∉ s.waits.map Wait.fiber ∧
      ∀ e ∈ events, (s.actor.events e).group = 0 ∧ (s.actor.events e).executor = some fiber ∧ e ∉ s.completed
  | .complete event => (∃ w ∈ s.waits, event ∈ w.events) ∧ event ∉ s.completed

instance (s : GroupWait) : DecidablePred s.Allowed
  | .wait _ _ => by unfold Allowed; infer_instance
  | .complete _ => by unfold Allowed; infer_instance

def step (s : GroupWait) (l : Label) : Option GroupWait :=
  if s.Allowed l then
    match l with
    | .wait fiber events =>
      match s.actor.waitGroup events with
      | some (true, actor) =>
        let key := (actor.events (events.headD 0)).group
        some { s with actor, waits := s.waits ++ [⟨fiber, events, key⟩] }
      | _ => none
    | .complete event =>
      (s.actor.execute event).map fun actor => { s with actor, completed := s.completed ++ [event] }
  else none

/-- Before the first call. -/
def start (events : Events) : GroupWait := { actor := { events } }

/-! ### The invariant -/

/-- The events of a group that have not completed. -/
def remaining (completed : List Nat) (w : Wait) : Nat := w.events.countP (· ∉ completed)

/-- A group with an event that has not completed. -/
def Open (completed : List Nat) (w : Wait) : Prop := 0 < remaining completed w

structure Inv (s : GroupWait) : Prop where
  group : s.actor.group.Inv
  fibers : (s.waits.map Wait.fiber).Nodup
  nodup : ∀ w ∈ s.waits, w.events.Nodup
  executor : ∀ w ∈ s.waits, ∀ e ∈ w.events, (s.actor.events e).executor = some w.fiber
  group_eq : ∀ w ∈ s.waits, ∀ e ∈ w.events, (s.actor.events e).group = if e ∈ s.completed then 0 else w.key
  key_ne_zero : ∀ w ∈ s.waits, w.key ≠ 0
  counter : ∀ w ∈ s.waits, Open s.completed w → s.actor.group.countAt w.key = remaining s.completed w
  keys : ∀ w ∈ s.waits, ∀ v ∈ s.waits, Open s.completed w → Open s.completed v → w.key = v.key → w = v
  count : s.actor.group.count = s.waits.countP (0 < remaining s.completed ·)
  queued : ∀ w ∈ s.waits, (s.actor.pool.map Prod.fst).count w.fiber = if remaining s.completed w = 0 then 1 else 0
  queued_only : ∀ f ∈ s.actor.pool.map Prod.fst, f ∈ s.waits.map Wait.fiber

theorem inv_start (events : Events) : (start events).Inv where
  group := Group.inv_make (by decide)
  fibers := List.nodup_nil
  nodup := nofun
  executor := nofun
  group_eq := nofun
  key_ne_zero := nofun
  counter := nofun
  keys := nofun
  count := show (Group.make 100).count = 0 by decide
  queued := nofun
  queued_only := nofun

theorem Inv.wait_unique {s : GroupWait} (h : s.Inv) {w v : Wait} (hw : w ∈ s.waits) (hv : v ∈ s.waits) {e : Nat}
    (hew : e ∈ w.events) (hev : e ∈ v.events) : w = v := by
  have hfiber : w.fiber = v.fiber := by
    have := (h.executor w hw e hew).symm.trans (h.executor v hv e hev)
    simpa using this
  exact List.inj_on_of_nodup_map h.fibers hw hv hfiber

theorem remaining_append_of_notMem {completed : List Nat} {w : Wait} {e : Nat} (he : e ∉ w.events) :
    remaining (completed ++ [e]) w = remaining completed w := by
  refine List.countP_congr fun x hx => ?_
  have : x ≠ e := fun heq => he (heq ▸ hx)
  simp [this]

theorem remaining_append_of_mem {completed : List Nat} {w : Wait} {e : Nat} (hnodup : w.events.Nodup)
    (he : e ∈ w.events) (hnew : e ∉ completed) :
    remaining (completed ++ [e]) w + 1 = remaining completed w := by
  obtain ⟨l₁, l₂, hsplit⟩ := List.append_of_mem he
  have hnot : e ∉ l₁ ∧ e ∉ l₂ := by
    rw [hsplit] at hnodup
    have := List.nodup_middle.mp hnodup
    simpa using (List.nodup_cons.mp this).1
  have hside : ∀ l : List Nat, e ∉ l → l.countP (· ∉ completed ++ [e]) = l.countP (· ∉ completed) := by
    intro l hl
    refine List.countP_congr fun x hx => ?_
    have : x ≠ e := fun heq => hl (heq ▸ hx)
    simp [this]
  simp only [remaining, hsplit, List.countP_append, List.countP_cons, hside l₁ hnot.1, hside l₂ hnot.2]
  simp [hnew]
  omega

/-! ### A fiber starts to wait -/

theorem waitGroup_spec {a : Actor} (ha : a.group.Inv) {events : List Nat} (hne : events ≠ [])
    (hfree : ∀ e ∈ events, (a.events e).group = 0) :
    ∃ i group, a.waitGroup events = some (true, { a with group, events := Actor.setGroups a.events i events }) ∧
      Group.Created a.group events.length i group := by
  obtain ⟨i, group, hcreate, hcreated⟩ := Group.create_spec ha (List.length_pos_iff.mpr hne)
  refine ⟨i, group, ?_, hcreated⟩
  have hany : ¬ (events.any fun e => (a.events e).group ≠ 0) = true := by
    simpa using hfree
  rw [Actor.waitGroup, if_neg hany, hcreate]

theorem step_wait {s : GroupWait} (h : s.Inv) {fiber : Nat} {events : List Nat}
    (hal : s.Allowed (.wait fiber events)) :
    ∃ i group, Group.Created s.actor.group events.length i group ∧
      s.step (.wait fiber events) = some { s with
        actor := { s.actor with group, events := Actor.setGroups s.actor.events i events }
        waits := s.waits ++ [⟨fiber, events, i⟩] } := by
  obtain ⟨hne, -, -, hevents⟩ := id hal
  obtain ⟨i, group, hwait, hcreated⟩ := waitGroup_spec h.group hne fun e he => (hevents e he).1
  refine ⟨i, group, hcreated, ?_⟩
  obtain ⟨e, rest, rfl⟩ := List.exists_cons_of_ne_nil hne
  simp only [step, if_pos hal, hwait, List.headD_cons, Actor.setGroups_apply, List.mem_cons_self, if_true,
    Event.setGroup]

theorem Inv.wait {s s' : GroupWait} (h : s.Inv) {fiber : Nat} {events : List Nat}
    (hs : s.step (.wait fiber events) = some s') : s'.Inv := by
  have hal : s.Allowed (.wait fiber events) := by
    by_contra hnot
    rw [step, if_neg hnot] at hs
    cases hs
  obtain ⟨i, group, hcreated, hstep⟩ := step_wait h hal
  rw [hstep, Option.some.injEq] at hs
  subst hs
  obtain ⟨hne, hnodup, hfiber, hevents⟩ := hal
  -- the new group is disjoint from the old ones, and its key from the keys of the open ones
  have hold : ∀ w ∈ s.waits, ∀ e ∈ w.events, e ∉ events := by
    intro w hw e he hmem
    have := (h.executor w hw e he).symm.trans (hevents e hmem).2.1
    rw [Option.some.injEq] at this
    exact hfiber (this ▸ List.mem_map_of_mem hw)
  have hkey : ∀ w ∈ s.waits, Open s.completed w → w.key ≠ i := by
    intro w hw hopen heq
    have h1 := h.counter w hw hopen
    rw [heq, hcreated.unused] at h1
    exact absurd hopen (by rw [Open, ← h1]; omega)
  have hremaining : remaining s.completed ⟨fiber, events, i⟩ = events.length :=
    List.countP_eq_length.mpr fun e he => by simpa using (hevents e he).2.2
  have hpos : 0 < events.length := List.length_pos_iff.mpr hne
  have hnotPool : fiber ∉ s.actor.pool.map Prod.fst := fun hmem => hfiber (h.queued_only fiber hmem)
  constructor
  case group => exact hcreated.inv
  case fibers =>
    simp only [List.map_append, List.map_cons, List.map_nil]
    rw [← List.concat_eq_append]
    exact List.Nodup.concat hfiber h.fibers
  case nodup =>
    intro w hw
    rcases List.mem_append.mp hw with hw | hw
    · exact h.nodup w hw
    · rw [List.mem_singleton.mp hw]
      exact hnodup
  case executor =>
    intro w hw e he
    rcases List.mem_append.mp hw with hw | hw
    · simpa [Actor.setGroups_apply, hold w hw e he] using h.executor w hw e he
    · rw [List.mem_singleton.mp hw] at he ⊢
      simpa [Actor.setGroups_apply, show e ∈ events from he, Event.setGroup] using (hevents e he).2.1
  case group_eq =>
    intro w hw e he
    rcases List.mem_append.mp hw with hw | hw
    · simpa [Actor.setGroups_apply, hold w hw e he] using h.group_eq w hw e he
    · rw [List.mem_singleton.mp hw] at he ⊢
      simp [Actor.setGroups_apply, show e ∈ events from he, Event.setGroup, (hevents e he).2.2]
  case key_ne_zero =>
    intro w hw
    rcases List.mem_append.mp hw with hw | hw
    · exact h.key_ne_zero w hw
    · rw [List.mem_singleton.mp hw]
      exact hcreated.key_ne_zero
  case counter =>
    intro w hw hopen
    rcases List.mem_append.mp hw with hw | hw
    · rw [hcreated.countAt_eq, if_neg (hkey w hw hopen)]
      exact h.counter w hw hopen
    · rw [List.mem_singleton.mp hw, hcreated.countAt_eq, if_pos rfl]
      exact hremaining.symm
  case keys =>
    intro w hw v hv hwo hvo heq
    rcases List.mem_append.mp hw with hw | hw <;> rcases List.mem_append.mp hv with hv | hv
    · exact h.keys w hw v hv hwo hvo heq
    · rw [List.mem_singleton.mp hv] at heq
      exact absurd heq (hkey w hw hwo)
    · rw [List.mem_singleton.mp hw] at heq
      exact absurd heq.symm (hkey v hv hvo)
    · rw [List.mem_singleton.mp hw, List.mem_singleton.mp hv]
  case count =>
    rw [hcreated.count_eq, h.count, List.countP_append, List.countP_singleton, hremaining]
    simp [hpos]
  case queued =>
    intro w hw
    rcases List.mem_append.mp hw with hw | hw
    · exact h.queued w hw
    · rw [List.mem_singleton.mp hw, hremaining, if_neg (by omega)]
      exact List.count_eq_zero.mpr hnotPool
  case queued_only =>
    intro f hf
    rw [List.map_append]
    exact List.mem_append_left _ (h.queued_only f hf)

/-! ### An event completes -/

/-- What the completion of an event of the group `w` does. -/
structure Completed (s : GroupWait) (w : Wait) (event : Nat) (s' : GroupWait) : Prop where
  mem : w ∈ s.waits
  event_mem : event ∈ w.events
  notMem : event ∉ s.completed
  waits_eq : s'.waits = s.waits
  completed_eq : s'.completed = s.completed ++ [event]
  events_eq : s'.actor.events = s.actor.events.modify event fun e => e.setGroup 0
  group : Group.Finished s.actor.group w.key (remaining s.completed w = 1) s'.actor.group
  pool_eq : s'.actor.pool =
    if remaining s.completed w = 1 then s.actor.pool ++ [(w.fiber, (s.actor.events event).channel)] else s.actor.pool

theorem step_complete {s : GroupWait} (h : s.Inv) {event : Nat} (hal : s.Allowed (.complete event)) :
    ∃ w s', s.step (.complete event) = some s' ∧ Completed s w event s' := by
  obtain ⟨⟨w, hw, hevent⟩, hnew⟩ := id hal
  have hgroup := h.group_eq w hw event hevent
  rw [if_neg hnew] at hgroup
  have hremaining := remaining_append_of_mem (h.nodup w hw) hevent hnew
  have hopen : Open s.completed w := by
    rw [Open]
    omega
  have hcounter := h.counter w hw hopen
  have hne := h.key_ne_zero w hw
  obtain ⟨done, group, hfinish, hfinished⟩ := Group.finish_spec h.group hne (by rw [hcounter]; exact hopen)
  have hdone : done = decide (remaining s.completed w = 1) := by
    rw [← hcounter, Bool.eq_iff_iff, decide_eq_true_iff]
    exact hfinished.done_iff
  subst hdone
  refine ⟨w, { s with
      completed := s.completed ++ [event]
      actor := { s.actor with
        group
        events := s.actor.events.modify event fun e => e.setGroup 0
        pool := if remaining s.completed w = 1 then s.actor.pool ++ [(w.fiber, (s.actor.events event).channel)]
          else s.actor.pool } }, ?_, ⟨hw, hevent, hnew, rfl, rfl, rfl, hfinished, rfl⟩⟩
  simp only [step, if_pos hal, Actor.execute, h.executor w hw event hevent, hgroup, if_neg hne, hfinish]
  by_cases hlast : remaining s.completed w = 1
  · simp [hlast, Actor.addFiber, Event.setGroup]
  · simp [hlast]

theorem Inv.complete {s s' : GroupWait} (h : s.Inv) {w : Wait} {event : Nat} (hc : Completed s w event s') :
    s'.Inv := by
  obtain ⟨actor', waits', completed'⟩ := s'
  obtain ⟨hw, hevent, hnew, rfl, rfl, hevents, hgroup, hpool⟩ := hc
  simp only at hevents hgroup hpool
  have hdec := remaining_append_of_mem (h.nodup w hw) hevent hnew
  have hother : ∀ v ∈ s.waits, v ≠ w → event ∉ v.events := fun v hv hne hmem =>
    hne (h.wait_unique hv hw hmem hevent)
  have hsame : ∀ v ∈ s.waits, v ≠ w → remaining (s.completed ++ [event]) v = remaining s.completed v :=
    fun v hv hne => remaining_append_of_notMem (hother v hv hne)
  have hopenw : Open s.completed w := by
    rw [Open]
    omega
  have hopen : ∀ v ∈ s.waits, Open (s.completed ++ [event]) v → Open s.completed v := by
    intro v hv hvo
    by_cases hvw : v = w
    · exact hvw ▸ hopenw
    · rwa [Open, hsame v hv hvw] at hvo
  have hfield : ∀ e, (actor'.events e).executor = (s.actor.events e).executor ∧
      (actor'.events e).group = if e = event then 0 else (s.actor.events e).group := by
    intro e
    rw [hevents, Events.modify_apply]
    split_ifs <;> simp [Event.setGroup]
  constructor
  case group => exact hgroup.inv
  case fibers => exact h.fibers
  case nodup => exact h.nodup
  case executor =>
    intro v hv e he
    rw [(hfield e).1]
    exact h.executor v hv e he
  case group_eq =>
    intro v hv e he
    simp only [(hfield e).2, h.group_eq v hv e he, List.mem_append, List.mem_singleton]
    by_cases h1 : e = event <;> by_cases h2 : e ∈ s.completed <;> simp [h1, h2]
  case key_ne_zero => exact h.key_ne_zero
  case counter =>
    intro v hv hvo
    rw [hgroup.countAt_eq]
    by_cases hvw : v = w
    · subst hvw
      rw [if_pos rfl, h.counter v hv hopenw]
      simp only
      omega
    · rw [if_neg fun heq => hvw (h.keys v hv w hw (hopen v hv hvo) hopenw heq), hsame v hv hvw]
      exact h.counter v hv (hopen v hv hvo)
  case keys =>
    intro u hu v hv huo hvo heq
    exact h.keys u hu v hv (hopen u hu huo) (hopen v hv hvo) heq
  case count =>
    obtain ⟨l₁, l₂, hsplit⟩ := List.append_of_mem hw
    have hnot : w ∉ l₁ ∧ w ∉ l₂ := by
      have := h.fibers.of_map
      rw [hsplit] at this
      simpa using (List.nodup_cons.mp (List.nodup_middle.mp this)).1
    have hside : ∀ l : List Wait, l ⊆ s.waits → w ∉ l →
        l.countP (0 < remaining (s.completed ++ [event]) ·) = l.countP (0 < remaining s.completed ·) := by
      intro l hl hwl
      refine List.countP_congr fun v hv => ?_
      rw [hsame v (hl hv) fun heq => hwl (heq ▸ hv)]
    have h₁ := hside l₁ (fun v hv => hsplit ▸ List.mem_append_left _ hv) hnot.1
    have h₂ := hside l₂ (fun v hv => hsplit ▸ List.mem_append_right _ (List.mem_cons_of_mem _ hv)) hnot.2
    have hcount := h.count
    rw [hgroup.count_eq]
    simp only [hsplit, List.countP_append, List.countP_cons, h₁, h₂] at hcount ⊢
    simp only [Open] at hopenw
    simp only [decide_eq_true_eq, hopenw, if_true] at hcount ⊢
    split_ifs <;> omega
  case queued =>
    intro v hv
    have hcount := h.queued v hv
    by_cases hvw : v = w
    · subst hvw
      rw [if_neg (by omega)] at hcount
      rw [hpool]
      split_ifs with h1 h2 h2
      · simp [hcount]
      · simp only at h2
        omega
      · simp only at h2
        omega
      · exact hcount
    · have hfiber : v.fiber ≠ w.fiber := fun heq => hvw (List.inj_on_of_nodup_map h.fibers hv hw heq)
      simp only [hsame v hv hvw, ← hcount, hpool]
      split_ifs
      · simp [hfiber.symm]
      · rfl
  case queued_only =>
    intro f hf
    rw [hpool] at hf
    split_ifs at hf
    · rw [List.map_append, List.mem_append] at hf
      rcases hf with hf | hf
      · exact h.queued_only f hf
      · rw [List.map_singleton, List.mem_singleton] at hf
        exact hf ▸ List.mem_map_of_mem hw
    · exact h.queued_only f hf

theorem step_inv {s s' : GroupWait} (l : Label) (h : s.Inv) (hs : s.step l = some s') : s'.Inv := by
  cases l with
  | wait fiber events => exact h.wait hs
  | complete event =>
    have hal : s.Allowed (.complete event) := by
      by_contra hnot
      rw [step, if_neg hnot] at hs
      cases hs
    obtain ⟨w, u, hu, hc⟩ := step_complete h hal
    rw [hs, Option.some.injEq] at hu
    exact h.complete (hu ▸ hc)

theorem run_inv {events : Events} {ls : List Label} {s : GroupWait} (hrun : Lib.run step (start events) ls = some s) :
    s.Inv :=
  Lib.run_invariant (fun _ l _ h hs => step_inv l h hs) (inv_start events) hrun

/-! ### What every run does -/

/-- All events of the group have completed. -/
def AllCompleted (s : GroupWait) (w : Wait) : Prop := ∀ e ∈ w.events, e ∈ s.completed

/-- `event` is the only event of the group that has not completed. -/
def IsLast (s : GroupWait) (w : Wait) (event : Nat) : Prop := ∀ e ∈ w.events, e = event ∨ e ∈ s.completed

instance (s : GroupWait) (w : Wait) : Decidable (s.AllCompleted w) := by unfold AllCompleted; infer_instance

instance (s : GroupWait) (w : Wait) (event : Nat) : Decidable (s.IsLast w event) := by unfold IsLast; infer_instance

theorem remaining_eq_zero_iff (s : GroupWait) (w : Wait) : remaining s.completed w = 0 ↔ s.AllCompleted w := by
  simp [remaining, AllCompleted, List.countP_eq_zero]

theorem Completed.remaining_eq_one_iff {s s' : GroupWait} (h : s.Inv) {w : Wait} {event : Nat}
    (hc : Completed s w event s') : remaining s.completed w = 1 ↔ s.IsLast w event := by
  have hdec := remaining_append_of_mem (h.nodup w hc.mem) hc.event_mem hc.notMem
  have hzero : remaining (s.completed ++ [event]) w = 0 ↔ s.IsLast w event := by
    simp only [remaining, IsLast, List.countP_eq_zero, List.mem_append, List.mem_singleton, not_or,
      decide_eq_true_eq, not_and_or, not_not]
    exact forall₂_congr fun _ _ => or_comm
  rw [← hzero]
  omega

/-- **A fiber that waits for a group is queued exactly once, with the last event of its group.** In every
state that fibers and completions reach: no assertion of `Group` fails at what can happen next; a fiber
was queued once if all its events completed and not at all otherwise; a completion queues the fiber of
the event and returns the key of its group if it is the last one of the group, and does neither
otherwise; and when all events have completed, no key is in use. -/
theorem group_queued_once {events : Events} {ls : List Label} {s : GroupWait}
    (hrun : Lib.run step (start events) ls = some s) :
    (∀ l, s.Allowed l → ∃ s', s.step l = some s') ∧
    (∀ w ∈ s.waits, (s.actor.pool.map Prod.fst).count w.fiber = if s.AllCompleted w then 1 else 0) ∧
    (∀ event s', s.step (.complete event) = some s' → ∃ w ∈ s.waits, event ∈ w.events ∧
      (s.IsLast w event → w.key ∉ s.actor.group.keys ∧ s'.actor.group.keys = w.key :: s.actor.group.keys ∧
        s'.actor.pool = s.actor.pool ++ [(w.fiber, (s.actor.events event).channel)]) ∧
      (¬ s.IsLast w event → s'.actor.group.keys = s.actor.group.keys ∧ s'.actor.pool = s.actor.pool)) ∧
    ((∀ w ∈ s.waits, s.AllCompleted w) → s.actor.group.count = (start events).actor.group.count) := by
  have h := run_inv hrun
  refine ⟨fun l hal => ?_, fun w hw => ?_, fun event s' hs => ?_, fun hall => ?_⟩
  · cases l with
    | wait fiber events =>
      obtain ⟨i, group, -, hstep⟩ := step_wait h hal
      exact ⟨_, hstep⟩
    | complete event =>
      obtain ⟨w, s', hstep, -⟩ := step_complete h hal
      exact ⟨s', hstep⟩
  · rw [h.queued w hw]
    exact if_congr (remaining_eq_zero_iff s w) rfl rfl
  · have hal : s.Allowed (.complete event) := by
      by_contra hnot
      rw [step, if_neg hnot] at hs
      cases hs
    obtain ⟨w, u, hu, hc⟩ := step_complete h hal
    rw [hs, Option.some.injEq] at hu
    subst hu
    have hlast := hc.remaining_eq_one_iff h
    refine ⟨w, hc.mem, hc.event_mem, fun hl => ⟨?_, ?_, ?_⟩, fun hl => ⟨?_, ?_⟩⟩
    · intro hmem
      have hone := hlast.mpr hl
      have hfree := ((h.group.mem_keys w.key).mp hmem).2
      rw [h.counter w hc.mem (by rw [Open]; omega)] at hfree
      omega
    · rw [hc.group.keys_eq, if_pos (decide_eq_true (hlast.mpr hl))]
    · rw [hc.pool_eq, if_pos (hlast.mpr hl)]
    · rw [hc.group.keys_eq, if_neg (by simpa using fun hone => hl (hlast.mp hone))]
    · rw [hc.pool_eq, if_neg fun hone => hl (hlast.mp hone)]
  · rw [h.count, (inv_start events).count]
    refine List.countP_eq_zero.mpr fun w hw => ?_
    simp [(remaining_eq_zero_iff s w).mpr (hall w hw)]

/-- Two fibers, of two events and one event, whose completions interleave. -/
theorem group_queued_once_two_fibers :
    ∃ s, Lib.run step (start fun e => { executor := some (e / 2), role := .client })
        [.wait 0 [0, 1], .complete 1, .wait 1 [2], .complete 2, .complete 0] = some s ∧
      (s.actor.pool.map Prod.fst).count 0 = 1 ∧ s.actor.group.count = 0 := by
  obtain ⟨s, hs⟩ : ∃ s, Lib.run step (start fun e => { executor := some (e / 2), role := .client })
      [.wait 0 [0, 1], .complete 1, .wait 1 [2], .complete 2, .complete 0] = some s := ⟨_, rfl⟩
  have hsome := Option.some.inj hs
  have hwaits : s.waits = [⟨0, [0, 1], 1⟩, ⟨1, [2], 2⟩] := by
    rw [← hsome]
    rfl
  have hcompleted : s.completed = [1, 2, 0] := by
    rw [← hsome]
    rfl
  have hall : ∀ w ∈ s.waits, s.AllCompleted w := by
    rw [hwaits]
    simp [AllCompleted, hcompleted]
  have h := group_queued_once hs
  refine ⟨s, hs, ?_, ?_⟩
  · have hfirst := h.2.1 ⟨0, [0, 1], 1⟩ (by simp [hwaits])
    rwa [if_pos (hall _ (by simp [hwaits]))] at hfirst
  · rw [h.2.2.2 hall]
    decide

end GroupWait

end Raster
