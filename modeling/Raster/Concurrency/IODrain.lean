import Raster.Concurrency.IOThreads
import Raster.Concurrency.Accounting

/-!
# Removing IO threads

A thread that leaves has found `pendingTasks` at zero, and from then on nobody may give it a task. The
threads of the pool only give tasks to themselves, while they run. A thread outside the pool picks any
thread in `threads_`; it is safe as long as none of them is being removed, or still being started, which
holds between two calls of the controller.
-/

namespace Raster

open Lib (tally tally_update tally_eq_zero)

/-! ### Places -/

namespace IOPlace

/-- After the test of `shouldRun` has failed. -/
def drains : IOPlace → Bool
  | .looping once => once
  | .swapping once => once
  | .calling once _ => once
  | .running once _ _ _ => once
  | .uncounting once _ _ _ => once
  | .handling once => once
  | .clearing once => once
  | .testingJoin => true
  | .draining => true
  | .leaving => true
  | .unsetting => true
  | .exited => true
  | _ => false

/-- The thread has left its final loop. -/
def gone : IOPlace → Bool
  | .leaving => true
  | .unsetting => true
  | .exited => true
  | _ => false

end IOPlace

namespace IOController

/-- The thread that was taken from `stoppedThreads_` and is not erased yet. -/
def hand : IOController → Option Nat
  | .joining t _ _ _ => some t
  | .erasing t _ _ _ => some t
  | _ => none

/-- The threads that were made and are not created yet. -/
def fresh : IOController → List Nat
  | .making _ newThreads _ => newThreads
  | .creating todo _ _ => todo
  | _ => []

/-- The threads that may not have posted yet. -/
def unstarted : IOController → List Nat
  | .creating _ newThreads _ => newThreads
  | .sorting newThreads _ => newThreads
  | .waiting todo _ => todo
  | _ => []

def unsorted : IOController → Bool
  | .creating _ _ _ => true
  | .sorting _ _ => true
  | _ => false

/-- What a call knows of `threads_.size()`. -/
def SizeIs (length : Nat) : IOController → Prop
  | .making todo newThreads size => length + newThreads.length + todo = size
  | .creating todo _ size => length + todo.length = size
  | .sorting _ size => length = size
  | .waiting _ size => length = size
  | .removing n _ size => length = size + n
  | .settingJoin n _ size => length = size + n
  | .stopping i n size => length = size + n ∧ i ≤ n
  | .stoppingLoop _ i n size => length = size + n ∧ i < n
  | .taking i n size => length + i = size + n ∧ i ≤ n
  | .joining _ i n size => length + i = size + n ∧ i < n
  | .erasing _ i n size => length + i = size + n ∧ i < n
  | .checking size => length = size
  | .returning size => length = size
  | _ => True

/-- No call of `stop` is in progress, and `isJoin_` is set for the one that is. -/
def Joins (isJoin : Bool) : IOController → Prop
  | .locking call => call ≠ .stop
  | .unlocking call => call ≠ .stop
  | .entering call => call ≠ .stop
  | .removing _ isJoin' _ => isJoin' = true
  | .settingJoin _ isJoin' _ => isJoin' = true
  | .stopping _ _ _ => isJoin = true
  | .stoppingLoop _ _ _ _ => isJoin = true
  | _ => True

/-- Which of the threads are to leave: the first ones, and then those that are not erased yet. -/
def Running (threads : List Nat) (stopped : Nat → Bool) : IOController → Prop
  | .stopping i _ _ => ∀ j t, threads[j]? = some t → (stopped t = true ↔ j < i)
  | .stoppingLoop _ i _ _ => ∀ j t, threads[j]? = some t → (stopped t = true ↔ j < i + 1)
  | .taking i n _ => threads.countP stopped + i = n
  | .joining _ i n _ => threads.countP stopped + i = n
  | .erasing _ i n _ => threads.countP stopped + i = n
  | _ => ∀ t ∈ threads, stopped t = false

end IOController

/-! ### One thread -/

theorem ThreadMoves.places {isJoin : Bool} {now : Nat} {th th' : IOThread} (hs : ThreadMoves isJoin now th th') :
    th.place ≠ .absent ∧ th.place ≠ .exited ∧ th'.place ≠ .absent ∧
      (th'.place = .starting ∨ th'.place = .posting → th.place = .starting) ∧
      (th.place = .unsetting → th'.place = .exited) ∧ (th.place = .leaving → th'.place = .unsetting) := by
  cases hs with
  | handled once hp => cases once <;> simp [hp]
  | clear once hp => cases once <;> simp [hp]
  | _ => simp [‹th.place = _›]

theorem ThreadMoves.drains {isJoin : Bool} {now : Nat} {th th' : IOThread} (hs : ThreadMoves isJoin now th th') :
    th'.place.drains = true → th.place.drains = true ∨ th.shouldRun = false := by
  cases hs with
  | stop hp hrun => exact fun _ => Or.inr hrun
  | handled once hp => cases once <;> simp [hp, IOPlace.drains]
  | clear once hp => cases once <;> simp [hp, IOPlace.drains]
  | _ => simp +contextual [IOPlace.drains, ‹th.place = _›]

/-- What holds of a thread by itself. -/
structure IOThread.Steady (isJoin : Bool) (th : IOThread) : Prop where
  fresh : th.place = .absent → th.shouldRun = true ∧ th.pendingTasks = 0
  drains : th.place.drains = true → th.shouldRun = false
  gone : th.place.gone = true → th.pendingTasks = 0
  loop : th.place ≠ .absent → th.place ≠ .starting → th.place ≠ .exited → th.eventLoop = .loop
  own : th.adder ≠ .idle → th.place.inUser = true
  join : th.shouldRun = false → isJoin = true

namespace IOThread

variable {isJoin isJoin' : Bool} {now : Nat} {th th' : IOThread}

theorem steady_default : (({} : IOThread)).Steady isJoin where
  fresh _ := ⟨rfl, rfl⟩
  drains := nofun
  gone := nofun
  loop habs := absurd rfl habs
  own hne := absurd rfl hne
  join := nofun

theorem Steady.threadMoves (h : th.Steady isJoin) (hidle : th.adder = .idle) (hpos : 0 ≤ th.pendingTasks)
    (hs : ThreadMoves isJoin now th th') : th'.Steady isJoin := by
  obtain ⟨hadder, hrun⟩ := hs.keeps
  have hplaces := hs.places
  have hloop : th'.place ≠ .absent → th'.place ≠ .starting → th'.place ≠ .exited → th'.eventLoop = .loop := by
    intro _ _ hexited
    cases hs with
    | start hp => rfl
    | unset hp => exact absurd rfl hexited
    | _ => exact h.loop hplaces.1 (by simp [‹th.place = _›]) hplaces.2.1
  refine ⟨fun habs => ?_, fun hd => ?_, fun hg => ?_, hloop, fun hne => ?_, fun hr => h.join (hrun ▸ hr)⟩
  · exfalso
    cases hs with
    | handled once hp => cases once <;> simp at habs
    | clear once hp => cases once <;> simp at habs
    | _ => cases habs
  · rw [hrun]
    exact (hs.drains hd).elim h.drains id
  · cases hs with
    | handled once hp => cases once <;> cases hg
    | clear once hp => cases once <;> cases hg
    | giveUp hp hjoin =>
      -- the thread was stopped by a call that sets `isJoin_`
      have := h.join (h.drains (by rw [hp]; rfl))
      rw [hjoin] at this
      cases this
    | drained hp hnone => exact le_antisymm hnone hpos
    | leave hp => exact h.gone (by rw [hp]; rfl)
    | unset hp => exact h.gone (by rw [hp]; rfl)
    | _ => cases hg
  · rw [hadder] at hne
    exact absurd hidle hne

/-- What the controller does to a thread. -/
def Touched (isJoin : Bool) (th th' : IOThread) : Prop :=
  th' = th ∨ th.place = .absent ∧ th' = { th with place := .starting } ∨
    isJoin = true ∧ th.place ≠ .absent ∧ th' = { th with shouldRun := false } ∨ ∃ stop, th' = { th with stop }

theorem Touched.tasks (h : Touched isJoin th th') :
    th'.doneIds = th.doneIds ∧ th'.held = th.held ∧ th'.pendingTasks = th.pendingTasks ∧ th'.done = th.done ∧
      th'.adder = th.adder := by
  rcases h with rfl | ⟨hp, rfl⟩ | ⟨-, -, rfl⟩ | ⟨stop, rfl⟩
  · exact ⟨rfl, rfl, rfl, rfl, rfl⟩
  · exact ⟨rfl, by rw [held, held, hp]; rfl, rfl, rfl, rfl⟩
  · exact ⟨rfl, rfl, rfl, rfl, rfl⟩
  · exact ⟨rfl, rfl, rfl, rfl, rfl⟩

theorem Steady.touched (h : th.Steady isJoin) (hjoin : isJoin = true → isJoin' = true) (ht : Touched isJoin' th th') :
    th'.Steady isJoin' := by
  have hjoin' : th.shouldRun = false → isJoin' = true := fun hrun => hjoin (h.join hrun)
  rcases ht with rfl | ⟨hp, rfl⟩ | ⟨hset, hp, rfl⟩ | ⟨stop, rfl⟩
  · exact ⟨h.fresh, h.drains, h.gone, h.loop, h.own, hjoin'⟩
  · refine ⟨nofun, nofun, nofun, fun _ hne => absurd rfl hne, fun hne => ?_, hjoin'⟩
    have := h.own hne
    rw [hp] at this
    cases this
  · exact ⟨fun habs => absurd habs hp, fun _ => rfl, h.gone, h.loop, h.own, fun _ => hset⟩
  · exact ⟨h.fresh, h.drains, h.gone, h.loop, h.own, hjoin'⟩

theorem Steady.given (h : th.Steady isJoin) (habs : th.place ≠ .absent) (hgone : th.place.gone = false) (hplace : th'.place = th.place)
    (hrun : th'.shouldRun = th.shouldRun) (hloop : th'.eventLoop = th.eventLoop) (hadder : th'.adder = th.adder) :
    th'.Steady isJoin := by
  refine ⟨fun hp => ?_, ?_, fun hg => ?_, ?_, ?_, ?_⟩
  · rw [hplace] at hp
    exact absurd hp habs
  · rw [hplace, hrun]
    exact h.drains
  · rw [hplace, hgone] at hg
    cases hg
  · rw [hplace, hloop]
    exact h.loop
  · rw [hplace, hadder]
    exact h.own
  · rw [hrun]
    exact h.join

theorem Steady.setAdder (h : th.Steady isJoin) (huser : th.place.inUser = true) (a : Adder) :
    ({ th with adder := a } : IOThread).Steady isJoin :=
  ⟨h.fresh, h.drains, h.gone, h.loop, fun _ => huser, h.join⟩

end IOThread

namespace IOPool

variable {p p' : IOPool} {t now m : Nat}

/-! ### `threads_` and `stoppedThreads_` -/

/-- The thread was told to leave. -/
def stopped (p : IOPool) (t : Nat) : Bool := !(p.io t).shouldRun

/-- The thread is in `stoppedThreads_`, or was. -/
def Left (p : IOPool) (t : Nat) : Prop := (p.io t).place = .unsetting ∨ (p.io t).place = .exited

/-- What the controller knows of the threads. -/
structure Roster (p : IOPool) : Prop where
  unknown : ∀ t, p.nextId ≤ t → (p.io t).place = .absent
  listed : ∀ t ∈ p.threads, (p.io t).place ≠ .absent
  unlisted : ∀ t, t ∉ p.threads → (p.io t).place = .absent ∨ (p.io t).place = .exited
  left : ∀ t ∈ p.stoppedThreads, t ∈ p.threads ∧ p.Left t
  hand : ∀ t, p.controller.hand = some t → t ∈ p.threads ∧ t ∉ p.stoppedThreads ∧ p.Left t
  erasing : ∀ t i n size, p.controller = .erasing t i n size → (p.io t).place = .exited
  nodup : p.threads.Nodup
  leftNodup : p.stoppedThreads.Nodup
  sorted : p.controller.unsorted = false → p.threads.Pairwise (· ≤ ·)
  fresh : ∀ t ∈ p.controller.fresh, t < p.nextId ∧ (p.io t).place = .absent
  freshNodup : p.controller.fresh.Nodup
  toStart : ∀ t ∈ p.controller.fresh, p.controller.unsorted = true → t ∈ p.controller.unstarted
  unstarted : ∀ t ∈ p.threads, (p.io t).place = .starting ∨ (p.io t).place = .posting → t ∈ p.controller.unstarted
  running : p.controller.Running p.threads p.stopped
  size : p.controller.SizeIs p.threads.length
  joins : p.controller.Joins p.isJoin

theorem roster_start (isJoin : Bool) (numThreads : Nat) : (start isJoin numThreads).Roster where
  unknown _ _ := rfl
  listed := nofun
  unlisted _ _ := Or.inl rfl
  left := nofun
  hand := nofun
  erasing := nofun
  nodup := List.nodup_nil
  leftNodup := List.nodup_nil
  sorted _ := List.Pairwise.nil
  fresh := nofun
  freshNodup := List.nodup_nil
  toStart := nofun
  unstarted := nofun
  running := nofun
  size := by simp [start, IOController.SizeIs]
  joins := trivial

theorem Roster.goOn (h : p.Roster) {q : IOPool} (hplace : ∀ t, (q.io t).place = (p.io t).place)
    (hrun : ∀ t, (q.io t).shouldRun = (p.io t).shouldRun) (hthreads : q.threads = p.threads)
    (hleft : q.stoppedThreads = p.stoppedThreads) (hnext : q.nextId = p.nextId)
    (hhand : q.controller.hand = p.controller.hand)
    (herasing : ∀ t i n size, q.controller = .erasing t i n size → (p.io t).place = .exited)
    (hsorted : q.controller.unsorted = false → p.controller.unsorted = false)
    (hfresh : q.controller.fresh = p.controller.fresh)
    (htoStart : ∀ t ∈ q.controller.fresh, q.controller.unsorted = true → t ∈ q.controller.unstarted)
    (hunstarted : ∀ t ∈ p.threads, (p.io t).place = .starting ∨ (p.io t).place = .posting → t ∈ p.controller.unstarted →
      t ∈ q.controller.unstarted)
    (hrunning : q.controller.Running p.threads p.stopped) (hsize : q.controller.SizeIs p.threads.length)
    (hjoins : q.controller.Joins q.isJoin) : q.Roster := by
  have hLeft : ∀ t, q.Left t ↔ p.Left t := fun t => by rw [Left, Left, hplace]
  have hstopped : q.stopped = p.stopped := by
    funext t
    rw [stopped, stopped, hrun]
  refine ⟨fun t => ?_, fun t => ?_, fun t => ?_, fun t => ?_, fun t => ?_, fun t => ?_, ?_, ?_, fun hu => ?_, fun t => ?_, ?_,
    htoStart, fun t ht hp => ?_, ?_, ?_, hjoins⟩
  · rw [hnext, hplace]
    exact h.unknown t
  · rw [hthreads, hplace]
    exact h.listed t
  · rw [hthreads, hplace]
    exact h.unlisted t
  · rw [hleft, hthreads, hLeft]
    exact h.left t
  · rw [hhand, hleft, hthreads, hLeft]
    exact h.hand t
  · rw [hplace]
    exact herasing t
  · rw [hthreads]
    exact h.nodup
  · rw [hleft]
    exact h.leftNodup
  · rw [hthreads]
    exact h.sorted (hsorted hu)
  · rw [hfresh, hnext, hplace]
    exact h.fresh t
  · rw [hfresh]
    exact h.freshNodup
  · rw [hthreads] at ht
    rw [hplace] at hp
    exact hunstarted t ht hp (h.unstarted t ht hp)
  · rw [hthreads, hstopped]
    exact hrunning
  · rw [hthreads]
    exact hsize

theorem Roster.congr (h : p.Roster) {q : IOPool} (hplace : ∀ t, (q.io t).place = (p.io t).place)
    (hrun : ∀ t, (q.io t).shouldRun = (p.io t).shouldRun) (hthreads : q.threads = p.threads)
    (hleft : q.stoppedThreads = p.stoppedThreads) (hcontroller : q.controller = p.controller)
    (hnext : q.nextId = p.nextId) (hjoin : q.isJoin = p.isJoin) : q.Roster := by
  refine h.goOn hplace hrun hthreads hleft hnext ?_ ?_ ?_ ?_ ?_ ?_ ?_ ?_ ?_
  · rw [hcontroller]
  · rw [hcontroller]
    exact h.erasing
  · rw [hcontroller]
    exact id
  · rw [hcontroller]
  · rw [hcontroller]
    exact h.toStart
  · rw [hcontroller]
    exact fun _ _ _ => id
  · rw [hcontroller]
    exact h.running
  · rw [hcontroller]
    exact h.size
  · rw [hcontroller, hjoin]
    exact h.joins

theorem Roster.threadMoves (h : p.Roster) {th : IOThread} (hs : ThreadMoves p.isJoin now (p.io t) th) :
    ({ p.setThread t th with
      stoppedThreads := if (p.io t).place = .leaving then p.stoppedThreads ++ [t] else p.stoppedThreads } : IOPool).Roster := by
  obtain ⟨habs, hexited, habs', hstart, hunset, hleave⟩ := hs.places
  have hmem : t ∈ p.threads := by
    by_contra hnot
    exact (h.unlisted t hnot).elim habs hexited
  set q : IOPool := { p.setThread t th with
    stoppedThreads := if (p.io t).place = .leaving then p.stoppedThreads ++ [t] else p.stoppedThreads } with hq
  have hself : q.io t = th := Function.update_self ..
  have hother : ∀ x, x ≠ t → q.io x = p.io x := fun x hx => Function.update_of_ne hx ..
  have hLeft : ∀ x, p.Left x → q.Left x := by
    intro x hx
    by_cases hxt : x = t
    · subst hxt
      right
      rw [hself]
      exact hunset (hx.resolve_right hexited)
    · rw [Left, hother x hxt]
      exact hx
  have hnot : (p.io t).place = .leaving → ¬ p.Left t := fun hp hleft => by
    rw [Left, hp] at hleft
    rcases hleft with hleft | hleft <;> cases hleft
  have hstopped : q.stopped = p.stopped := by
    funext x
    by_cases hxt : x = t
    · subst hxt
      rw [stopped, stopped, hself, hs.keeps.2]
    · rw [stopped, stopped, hother x hxt]
  have hin : ∀ x, x ∈ q.stoppedThreads → x ∈ p.stoppedThreads ∨ x = t ∧ (p.io t).place = .leaving := by
    intro x hx
    simp only [hq] at hx
    split_ifs at hx with hp
    · rcases List.mem_append.mp hx with hx | hx
      · exact Or.inl hx
      · exact Or.inr ⟨List.mem_singleton.mp hx, hp⟩
    · exact Or.inl hx
  refine ⟨fun x hx => ?_, fun x hx => ?_, fun x hx => ?_, fun x hx => ?_, fun x hx => ?_, fun x i n size hc => ?_, h.nodup, ?_,
    h.sorted, fun x hx => ?_, h.freshNodup, h.toStart, fun x hx hp => ?_, ?_, h.size, h.joins⟩
  · rw [hother x]
    · exact h.unknown x hx
    · rintro rfl
      exact habs (h.unknown x hx)
  · by_cases hxt : x = t
    · subst hxt
      rw [hself]
      exact habs'
    · rw [hother x hxt]
      exact h.listed x hx
  · rw [hother x (fun hxt => hx (hxt ▸ hmem))]
    exact h.unlisted x hx
  · rcases hin x hx with hx | ⟨rfl, hp⟩
    · exact ⟨(h.left x hx).1, hLeft x (h.left x hx).2⟩
    · refine ⟨hmem, Or.inl ?_⟩
      rw [hself]
      exact hleave hp
  · obtain ⟨hx₁, hx₂, hx₃⟩ := h.hand x hx
    refine ⟨hx₁, fun hx' => ?_, hLeft x hx₃⟩
    rcases hin x hx' with hx' | ⟨rfl, hp⟩
    · exact hx₂ hx'
    · exact hnot hp hx₃
  · have hx := h.erasing x i n size hc
    rw [hother x]
    · exact hx
    · rintro rfl
      exact hexited hx
  · simp only [hq]
    split_ifs with hp
    · rw [← List.concat_eq_append]
      exact List.Nodup.concat (fun ha => hnot hp (h.left t ha).2) h.leftNodup
    · exact h.leftNodup
  · obtain ⟨hx₁, hx₂⟩ := h.fresh x hx
    refine ⟨hx₁, ?_⟩
    rw [hother x]
    · exact hx₂
    · rintro rfl
      exact habs hx₂
  · by_cases hxt : x = t
    · subst hxt
      rw [hself] at hp
      exact h.unstarted x hx (Or.inl (hstart hp))
    · rw [hother x hxt] at hp
      exact h.unstarted x hx hp
  · rw [hstopped]
    exact h.running

/-! ### The controller -/

theorem Roster.making (h : p.Roster) {todo size : Nat} {newThreads : List Nat}
    (hc : p.controller = .making (todo + 1) newThreads size) :
    ({ p with nextId := p.nextId + 1, controller := .making todo (newThreads ++ [p.nextId]) size } : IOPool).Roster := by
  obtain ⟨hunknown, hlisted, hunlisted, hleft, hhand, herasing, hnodup, hlnodup, hsorted, hfresh, hfnodup, htoStart, hunstarted,
    hrunning, hsize, hjoins⟩ := h
  rw [hc] at hsorted hfresh hfnodup hunstarted hrunning hsize
  refine ⟨fun t ht => hunknown t (Nat.le_of_succ_le ht), hlisted, hunlisted, hleft, nofun, nofun, hnodup, hlnodup, hsorted,
    fun t ht => ?_, ?_, nofun, hunstarted, hrunning, ?_, trivial⟩
  · rcases List.mem_append.mp ht with ht | ht
    · exact ⟨Nat.lt_succ_of_lt (hfresh t ht).1, (hfresh t ht).2⟩
    · rw [List.mem_singleton] at ht
      subst ht
      exact ⟨Nat.lt_succ_self _, hunknown _ (le_refl _)⟩
  · rw [← List.concat_eq_append]
    exact List.Nodup.concat (fun hmem => Nat.lt_irrefl _ (hfresh _ hmem).1) hfnodup
  · simp only [IOController.SizeIs, List.length_append, List.length_singleton] at hsize ⊢
    omega

theorem Roster.creating (h : p.Roster) (hsteady : (p.io t).Steady p.isJoin) {todo newThreads : List Nat} {size : Nat}
    (hc : p.controller = .creating (t :: todo) newThreads size) :
    ({ p.setThread t { p.io t with place := .starting } with
      threads := p.threads ++ [t]
      controller := .creating todo newThreads size } : IOPool).Roster := by
  obtain ⟨hunknown, hlisted, hunlisted, hleft, hhand, herasing, hnodup, hlnodup, hsorted, hfresh, hfnodup, htoStart, hunstarted,
    hrunning, hsize, hjoins⟩ := h
  rw [hc] at hsorted hfresh hfnodup htoStart hunstarted hrunning hsize
  obtain ⟨hlt, habs⟩ := hfresh t List.mem_cons_self
  have hnot : t ∉ p.threads := fun hmem => hlisted t hmem habs
  set q : IOPool := { p.setThread t { p.io t with place := .starting } with
    threads := p.threads ++ [t]
    controller := .creating todo newThreads size }
  have hself : q.io t = { p.io t with place := .starting } := Function.update_self ..
  have hother : ∀ x, x ≠ t → q.io x = p.io x := fun x hx => Function.update_of_ne hx ..
  have hne : ∀ x ∈ p.threads, x ≠ t := fun x hx heq => hnot (heq ▸ hx)
  refine ⟨fun x hx => ?_, fun x hx => ?_, fun x hx => ?_, fun x hx => ?_, nofun, nofun, ?_, hlnodup, nofun, fun x hx => ?_,
    (List.nodup_cons.mp hfnodup).2, fun x hx _ => htoStart x (List.mem_cons_of_mem _ hx) rfl, fun x hx hp => ?_,
    fun x hx => ?_, ?_, trivial⟩
  · rw [hother x (by rintro rfl; exact absurd hx (Nat.not_le.mpr hlt))]
    exact hunknown x hx
  · rcases List.mem_append.mp hx with hx | hx
    · rw [hother x (hne x hx)]
      exact hlisted x hx
    · rw [List.mem_singleton] at hx
      rw [hx, hself]
      exact nofun
  · have hx' : x ∉ p.threads ∧ x ≠ t := by simpa [q] using hx
    rw [hother x hx'.2]
    exact hunlisted x hx'.1
  · obtain ⟨hx₁, hx₂⟩ := hleft x hx
    refine ⟨List.mem_append_left _ hx₁, ?_⟩
    rw [Left, hother x (hne x hx₁)]
    exact hx₂
  · show (p.threads ++ [t]).Nodup
    rw [← List.concat_eq_append]
    exact List.Nodup.concat hnot hnodup
  · obtain ⟨hx₁, hx₂⟩ := hfresh x (List.mem_cons_of_mem _ hx)
    refine ⟨hx₁, ?_⟩
    rw [hother x (by rintro rfl; exact (List.nodup_cons.mp hfnodup).1 hx)]
    exact hx₂
  · rcases List.mem_append.mp hx with hx | hx
    · rw [hother x (hne x hx)] at hp
      exact hunstarted x hx hp
    · rw [List.mem_singleton] at hx
      exact hx ▸ htoStart t List.mem_cons_self rfl
  · rcases List.mem_append.mp hx with hx | hx
    · rw [stopped, hother x (hne x hx)]
      exact hrunning x hx
    · rw [List.mem_singleton] at hx
      rw [hx, stopped, hself]
      simp [(hsteady.fresh habs).1]
  · show (p.threads ++ [t]).length + todo.length = size
    simp only [IOController.SizeIs, List.length_cons] at hsize
    rw [List.length_append, List.length_singleton]
    omega

theorem Roster.sorting (h : p.Roster) {newThreads : List Nat} {size : Nat} (hc : p.controller = .sorting newThreads size) :
    ({ p with threads := p.threads.insertionSort (· ≤ ·), controller := .waiting newThreads size } : IOPool).Roster := by
  obtain ⟨hunknown, hlisted, hunlisted, hleft, hhand, herasing, hnodup, hlnodup, hsorted, hfresh, hfnodup, htoStart, hunstarted,
    hrunning, hsize, hjoins⟩ := h
  rw [hc] at hunstarted hrunning hsize
  have hperm : (p.threads.insertionSort (· ≤ ·)).Perm p.threads := List.perm_insertionSort _ _
  have hmem : ∀ t, t ∈ p.threads.insertionSort (· ≤ ·) ↔ t ∈ p.threads := fun t => hperm.mem_iff
  refine ⟨hunknown, fun t ht => hlisted t ((hmem t).mp ht), fun t ht => hunlisted t fun hin => ht ((hmem t).mpr hin),
    fun t ht => ⟨(hmem t).mpr (hleft t ht).1, (hleft t ht).2⟩, nofun, nofun, hperm.nodup_iff.mpr hnodup, hlnodup, fun _ => ?_,
    nofun, List.nodup_nil, nofun, fun t ht hp => hunstarted t ((hmem t).mp ht) hp, fun t ht => hrunning t ((hmem t).mp ht), ?_, trivial⟩
  · exact List.pairwise_insertionSort (· ≤ ·) p.threads
  · rw [← hperm.length_eq] at hsize
    exact hsize

theorem Roster.stopping (h : p.Roster) {i n size : Nat} (hc : p.controller = .stopping i n size) (hi : i < n)
    (hget : p.threads[i]? = some t) :
    ({ p.setThread t { p.io t with shouldRun := false } with controller := .stoppingLoop t i n size } : IOPool).Roster := by
  obtain ⟨hunknown, hlisted, hunlisted, hleft, hhand, herasing, hnodup, hlnodup, hsorted, hfresh, hfnodup, htoStart, hunstarted,
    hrunning, hsize, hjoins⟩ := h
  rw [hc] at hsorted hunstarted hrunning hsize hjoins
  set q : IOPool := { p.setThread t { p.io t with shouldRun := false } with controller := .stoppingLoop t i n size }
  have hplace : ∀ x, (q.io x).place = (p.io x).place := by
    intro x
    by_cases hx : x = t
    · rw [hx, show q.io t = { p.io t with shouldRun := false } from Function.update_self ..]
    · rw [show q.io x = p.io x from Function.update_of_ne hx ..]
  have hLeft : ∀ x, q.Left x ↔ p.Left x := fun x => by rw [Left, Left, hplace]
  refine ⟨fun x => ?_, fun x => ?_, fun x => ?_, fun x => ?_, nofun, nofun, hnodup, hlnodup, hsorted, nofun, List.nodup_nil,
    nofun, fun x hx hp => ?_, fun j x hx => ?_, ⟨hsize.1, hi⟩, hjoins⟩
  · rw [hplace]
    exact hunknown x
  · rw [hplace]
    exact hlisted x
  · rw [hplace]
    exact hunlisted x
  · rw [hLeft]
    exact hleft x
  · rw [hplace] at hp
    exact hunstarted x hx hp
  · by_cases hxt : x = t
    · subst hxt
      have hji : j = i := (List.getElem?_inj (List.getElem?_eq_some_iff.mp hx).1 hnodup).mp (hx.trans hget.symm)
      simp [q, stopped, setThread, hji]
    · have hji : j ≠ i := by
        rintro rfl
        exact hxt (Option.some.inj (hx.symm.trans hget))
      have hsame : q.stopped x = p.stopped x := by
        rw [stopped, stopped, show q.io x = p.io x from Function.update_of_ne hxt ..]
      rw [hsame, hrunning j x hx]
      omega

theorem countP_of_first {l : List Nat} {f : Nat → Bool} {n : Nat} (hn : n ≤ l.length)
    (h : ∀ j t, l[j]? = some t → (f t = true ↔ j < n)) : l.countP f = n := by
  have htake : (l.take n).countP f = n := by
    have hall : (l.take n).countP f = (l.take n).length := List.countP_eq_length.mpr fun t ht => by
      obtain ⟨j, hj, hget⟩ := List.mem_take_iff_getElem.mp ht
      exact (h j t (by rw [← hget]; exact List.getElem?_eq_getElem _)).mpr (by omega)
    rw [hall, List.length_take]
    omega
  have hdrop : (l.drop n).countP f = 0 := List.countP_eq_zero.mpr fun t ht htrue => by
    obtain ⟨j, hj, hget⟩ := List.mem_drop_iff_getElem.mp ht
    have := (h (n + j) t (by rw [← hget]; exact List.getElem?_eq_getElem _)).mp htrue
    omega
  rw [← List.take_append_drop n l, List.countP_append, htake, hdrop, Nat.add_zero]

theorem Roster.taking (h : p.Roster) {i n size : Nat} {rest : List Nat} (hc : p.controller = .taking i n size) (hi : i < n)
    (hstop : p.stoppedThreads = t :: rest) :
    ({ p with stoppedThreads := rest, controller := .joining t i n size } : IOPool).Roster := by
  obtain ⟨hunknown, hlisted, hunlisted, hleft, hhand, herasing, hnodup, hlnodup, hsorted, hfresh, hfnodup, htoStart, hunstarted,
    hrunning, hsize, hjoins⟩ := h
  rw [hc] at hsorted hunstarted hrunning hsize
  rw [hstop] at hleft hlnodup
  refine ⟨hunknown, hlisted, hunlisted, fun x hx => hleft x (List.mem_cons_of_mem _ hx), fun x hx => ?_, nofun, hnodup,
    (List.nodup_cons.mp hlnodup).2, hsorted, nofun, List.nodup_nil, nofun, hunstarted, hrunning, ⟨hsize.1, hi⟩, trivial⟩
  simp only [IOController.hand, Option.some.injEq] at hx
  subst hx
  exact ⟨(hleft t List.mem_cons_self).1, (List.nodup_cons.mp hlnodup).1, (hleft t List.mem_cons_self).2⟩

theorem Roster.erase (h : p.Roster) (hsteady : (p.io t).Steady p.isJoin) {i n size : Nat}
    (hc : p.controller = .erasing t i n size) :
    ((equalRange p.threads t).1 ≠ p.threads.length ∧ (equalRange p.threads t).1 + 1 = (equalRange p.threads t).2) ∧
    ({ p with
      threads := p.threads.eraseIdx (equalRange p.threads t).1
      controller := .taking (i + 1) n size } : IOPool).Roster := by
  obtain ⟨hunknown, hlisted, hunlisted, hleft, hhand, herasing, hnodup, hlnodup, hsorted, hfresh, hfnodup, htoStart, hunstarted,
    hrunning, hsize, hjoins⟩ := h
  have hexited := herasing t i n size hc
  rw [hc] at hsorted hunstarted hrunning hsize hhand
  obtain ⟨hmem, hnot, -⟩ := hhand t rfl
  obtain ⟨a, b, hab, hrange⟩ := Pool.equalRange_of_mem (hsorted rfl) hnodup hmem
  have hlength : p.threads.length = a.length + (b.length + 1) := by rw [hab, List.length_append, List.length_cons]
  have herase : p.threads.eraseIdx (equalRange p.threads t).1 = a ++ b := by
    rw [hrange, hab, List.eraseIdx_append_of_length_le (le_refl _), Nat.sub_self, List.eraseIdx_cons_zero]
  have hmem' : ∀ x, x ∈ a ++ b ↔ x ∈ p.threads ∧ x ≠ t := by
    intro x
    have hnodup' := hnodup
    rw [hab, List.nodup_middle] at hnodup'
    rw [hab, List.mem_append, List.mem_append, List.mem_cons]
    constructor
    · intro hx
      refine ⟨hx.imp_right Or.inr, fun heq => (List.nodup_cons.mp hnodup').1 ?_⟩
      exact heq ▸ List.mem_append.mpr hx
    · rintro ⟨hx, hne⟩
      exact hx.imp_right fun hx => hx.resolve_left hne
  rw [herase]
  refine ⟨by rw [hrange]; omega, hunknown, fun x hx => hlisted x ((hmem' x).mp hx).1, fun x hx => ?_, fun x hx => ?_, nofun, nofun,
    ?_, hlnodup, fun _ => ?_, nofun, List.nodup_nil, nofun, fun x hx => hunstarted x ((hmem' x).mp hx).1, ?_, ?_, trivial⟩
  · by_cases hxt : x = t
    · exact Or.inr (hxt ▸ hexited)
    · exact hunlisted x fun hin => hx ((hmem' x).mpr ⟨hin, hxt⟩)
  · refine ⟨(hmem' x).mpr ⟨(hleft x hx).1, ?_⟩, (hleft x hx).2⟩
    rintro rfl
    exact hnot hx
  · rw [hab, List.nodup_middle] at hnodup
    exact (List.nodup_cons.mp hnodup).2
  · have hs := hsorted rfl
    rw [hab] at hs
    exact hs.sublist ((List.sublist_cons_self t b).append_left a)
  · -- the thread that is erased was one of those to leave
    have hstop : p.stopped t = true := by
      rw [stopped, hsteady.drains (by rw [hexited]; rfl)]
      rfl
    have hcount : p.threads.countP p.stopped = (a ++ b).countP p.stopped + 1 := by
      rw [hab, List.countP_append, List.countP_append, List.countP_cons_of_pos hstop, Nat.add_assoc]
    simp only [IOController.Running] at hrunning
    show (a ++ b).countP p.stopped + (i + 1) = n
    omega
  · simp only [IOController.SizeIs] at hsize
    show (a ++ b).length + (i + 1) = size + n ∧ i + 1 ≤ n
    rw [List.length_append]
    omega

theorem Roster.none_left (h : p.Roster) (hsteady : ∀ t, (p.io t).Steady p.isJoin) (hrun : ∀ t ∈ p.threads, p.stopped t = false) :
    p.stoppedThreads = [] := by
  rw [List.eq_nil_iff_forall_not_mem]
  intro t ht
  obtain ⟨hmem, hleft⟩ := h.left t ht
  have hdrains : (p.io t).place.drains = true := by rcases hleft with hp | hp <;> rw [hp] <;> rfl
  have := hrun t hmem
  rw [stopped, (hsteady t).drains hdrains] at this
  cases this

/-- What a step of the controller leaves alone. -/
structure Touch (p q : IOPool) : Prop where
  given : q.given = p.given
  adders : q.adders = p.adders
  returned : q.returned = p.returned
  failed : q.failed = p.failed
  isJoin : p.isJoin = true → q.isJoin = true
  io : ∀ t, (p.io t).Touched q.isJoin (q.io t)

theorem touch_update {th : IOThread} {q : IOPool} (hgiven : q.given = p.given) (hadders : q.adders = p.adders)
    (hreturned : q.returned = p.returned) (hfailed : q.failed = p.failed) (hjoin : q.isJoin = p.isJoin) (hio : q.io = Function.update p.io t th)
    (hth : (p.io t).Touched q.isJoin th) : Touch p q := by
  refine ⟨hgiven, hadders, hreturned, hfailed, hjoin ▸ id, fun x => ?_⟩
  rw [hio]
  by_cases hx : x = t
  · rw [hx, Function.update_self]
    exact hth
  · rw [Function.update_of_ne hx]
    exact Or.inl rfl

theorem Roster.advance (h : p.Roster) {c c' : IOController} {writer isJoin : Bool} (hc : p.controller = c)
    (hhand : c'.hand = c.hand) (herasing : ∀ t i n size, c' = .erasing t i n size → (p.io t).place = .exited)
    (hsorted : c'.unsorted = false → c.unsorted = false) (hfresh : c'.fresh = c.fresh)
    (htoStart : ∀ t ∈ c'.fresh, c'.unsorted = true → t ∈ c'.unstarted)
    (hunstarted : ∀ t ∈ p.threads, (p.io t).place = .starting ∨ (p.io t).place = .posting → t ∈ c.unstarted → t ∈ c'.unstarted)
    (hrunning : c'.Running p.threads p.stopped) (hsize : c'.SizeIs p.threads.length) (hjoins : c'.Joins isJoin)
    (hjoin : p.isJoin = true → isJoin = true) :
    ({ p with controller := c', writer, isJoin } : IOPool).Roster ∧ Touch p { p with controller := c', writer, isJoin } := by
  subst hc
  exact ⟨h.goOn (fun _ => rfl) (fun _ => rfl) rfl rfl rfl hhand herasing hsorted hfresh htoStart hunstarted hrunning hsize hjoins,
    rfl, rfl, rfl, rfl, hjoin, fun _ => Or.inl rfl⟩

/-- **A step of the controller** keeps the roster; no check fails. -/
theorem Roster.controllerStep (h : p.Roster) (hsteady : ∀ t, (p.io t).Steady p.isJoin) (hs : p.controllerStep = some p') :
    p'.Roster ∧ Touch p p' := by
  have hsize := h.size
  have hrunning := h.running
  have hjoins := h.joins
  unfold IOPool.controllerStep at hs
  split at hs <;> rename_i hc <;> rw [hc] at hsize hrunning hjoins
  · cases hs
  · split_ifs at hs
    cases hs
    exact h.advance hc rfl nofun id rfl nofun (fun _ _ _ => id) hrunning trivial hjoins id
  · cases hs
    exact h.advance hc rfl nofun id rfl nofun (fun _ _ _ => id) hrunning trivial hjoins id
  · rename_i call
    cases hs
    cases call with
    | setNumThreads n =>
      simp only [enter]
      split_ifs with hlt hgt
      · refine h.advance hc rfl nofun id rfl nofun (fun _ _ _ => id) hrunning ?_ trivial id
        simp only [IOController.SizeIs, List.length_nil]
        omega
      · refine h.advance hc rfl nofun id rfl nofun (fun _ _ _ => id) hrunning ?_ rfl id
        simp only [IOController.SizeIs]
        omega
      · refine h.advance hc rfl nofun id rfl nofun (fun _ _ _ => id) hrunning ?_ trivial id
        simp only [IOController.SizeIs]
        omega
    | stop => exact absurd rfl hjoins
    | join => exact h.advance hc rfl nofun id rfl nofun (fun _ _ _ => id) hrunning (Nat.zero_add _).symm rfl id
  · cases hs
    exact h.advance hc rfl nofun (fun _ => rfl) rfl (fun _ ht _ => ht) (fun _ _ _ hno => by cases hno) hrunning hsize trivial id
  · cases hs
    exact ⟨h.making hc, rfl, rfl, rfl, rfl, id, fun _ => Or.inl rfl⟩
  · cases hs
    exact h.advance hc rfl nofun id rfl nofun (fun _ _ _ => id) hrunning hsize trivial id
  · rename_i t todo newThreads size
    cases hs
    have habs : (p.io t).place = .absent := (h.fresh t (by rw [hc]; exact List.mem_cons_self)).2
    exact ⟨h.creating (hsteady t) hc, touch_update rfl rfl rfl rfl rfl rfl (Or.inr (Or.inl ⟨habs, rfl⟩))⟩
  · cases hs
    exact ⟨h.sorting hc, rfl, rfl, rfl, rfl, id, fun _ => Or.inl rfl⟩
  · cases hs
    exact h.advance hc rfl nofun id rfl nofun (fun _ _ _ => id) hrunning hsize trivial id
  · rename_i t todo size
    split_ifs at hs with hposted
    cases hs
    refine h.advance hc rfl nofun id rfl nofun (fun x _ hp hx => ?_) hrunning hsize trivial id
    rcases List.mem_cons.mp hx with rfl | hx
    · exact absurd hp hposted
    · exact hx
  · rename_i n isJoin size
    have hnone : (p.stoppedThreads.length == 0) = true := by rw [h.none_left hsteady hrunning]; rfl
    rw [IOPool.check, if_pos hnone] at hs
    cases hs
    exact h.advance hc rfl nofun id rfl nofun (fun _ _ _ => id) hrunning hsize hjoins id
  · rename_i n isJoin size
    cases hs
    refine h.advance hc rfl nofun id rfl nofun (fun _ _ _ => id) (fun j t hget => ?_) ⟨hsize, Nat.zero_le n⟩ hjoins fun _ => hjoins
    rw [hrunning t (List.mem_of_getElem? hget)]
    simp
  · rename_i i n size
    split_ifs at hs with hi
    · split at hs
      · rename_i t hget
        cases hs
        have hne : (p.io t).place ≠ .absent := h.listed t (List.mem_of_getElem? hget)
        exact ⟨h.stopping hc hi hget, touch_update rfl rfl rfl rfl rfl rfl (Or.inr (Or.inr (Or.inl ⟨hjoins, hne, rfl⟩)))⟩
      · cases hs
    · cases hs
      obtain rfl : i = n := by
        simp only [IOController.SizeIs] at hsize
        omega
      refine h.advance hc rfl nofun id rfl nofun (fun _ _ _ => id) ?_ ⟨by simpa using hsize.1, Nat.zero_le _⟩ trivial id
      simp only [IOController.Running, Nat.add_zero]
      exact countP_of_first (by rw [hsize.1]; exact Nat.le_add_left ..) hrunning
  · rename_i t i n size
    cases hs
    refine ⟨?_, touch_update rfl rfl rfl rfl rfl rfl (Or.inr (Or.inr (Or.inr ⟨_, rfl⟩)))⟩
    have hrecord : ∀ x, (Function.update p.io t { p.io t with stop := (p.io t).stop || (p.io t).eventLoop == .loop } x).place =
        (p.io x).place ∧ (Function.update p.io t { p.io t with stop := (p.io t).stop || (p.io t).eventLoop == .loop } x).shouldRun =
        (p.io x).shouldRun := by
      intro x
      by_cases hx : x = t
      · subst hx
        simp
      · simp [hx]
    exact h.goOn (fun x => (hrecord x).1) (fun x => (hrecord x).2) rfl rfl rfl (by rw [hc]; rfl) nofun (by rw [hc]; exact id)
      (by rw [hc]; rfl) nofun (by rw [hc]; exact fun _ _ _ => id) hrunning hsize hjoins
  · rename_i i n size
    split_ifs at hs with hi
    · split at hs
      · cases hs
      · rename_i t rest hstop
        cases hs
        exact ⟨h.taking hc hi hstop, rfl, rfl, rfl, rfl, id, fun _ => Or.inl rfl⟩
    · cases hs
      simp only [IOController.SizeIs, IOController.Running] at hsize hrunning
      have hnone : p.threads.countP p.stopped = 0 := by omega
      refine h.advance hc rfl nofun id rfl nofun (fun _ _ _ => id) (fun t ht => ?_) ?_ trivial id
      · simpa using List.countP_eq_zero.mp hnone t ht
      · simp only [IOController.SizeIs]
        omega
  · rename_i t i n size
    split_ifs at hs with hexit
    cases hs
    refine h.advance hc rfl (fun t' i' n' size' heq => ?_) id rfl nofun (fun _ _ _ => id) hrunning hsize trivial id
    cases heq
    exact hexit
  · rename_i t i n size
    obtain ⟨hrange, hroster⟩ := h.erase (hsteady t) hc
    simp only [IOPool.check, hrange, ne_eq, not_false_eq_true, and_self, decide_true, if_true, Option.some.injEq] at hs
    subst hs
    exact ⟨hroster, rfl, rfl, rfl, rfl, id, fun _ => Or.inl rfl⟩
  · rename_i size
    have hnone : (p.stoppedThreads.length == 0) = true := by rw [h.none_left hsteady hrunning]; rfl
    rw [IOPool.check, if_pos hnone] at hs
    cases hs
    exact h.advance hc rfl nofun id rfl nofun (fun _ _ _ => id) hrunning hsize trivial id
  · rename_i size
    have hlength : p.threads.length = size := hsize
    rw [IOPool.check, hlength, beq_self_eq_true, if_pos rfl] at hs
    cases hs
    exact h.advance hc rfl nofun id rfl nofun (fun _ _ _ => id) hrunning trivial trivial id

/-! ### The threads outside the pool -/

/-- A thread outside the pool is in `add` only between two calls of the controller, and has picked a thread
of the pool. -/
structure Callers (p : IOPool) : Prop where
  busy : ∀ k, p.adders k ≠ .idle → p.controller = .idle
  target : ∀ k x, (p.adders k).target = some x → x ∈ p.threads
  picking : ∀ k task, p.adders k = .picking task → p.threads ≠ []

structure Inv (m : Nat) (p : IOPool) : Prop where
  conserved : p.Conserved m
  steady : ∀ t, (p.io t).Steady p.isJoin
  roster : p.Roster
  callers : p.Callers
  returned : ∀ id ∈ p.returned, id < p.given.length
  failed : p.failed = none

theorem inv_start (isJoin : Bool) (numThreads : Nat) : (start isJoin numThreads).Inv m where
  conserved := conserved_start isJoin numThreads
  steady _ := IOThread.steady_default
  roster := roster_start isJoin numThreads
  callers := ⟨fun _ hne => absurd rfl hne, nofun, nofun⟩
  returned := nofun
  failed := rfl

theorem Inv.outside_target (h : p.Inv m) {k x : Nat} (hx : (p.adders k).target = some x) :
    (p.io x).place ≠ .absent ∧ (p.io x).place.gone = false ∧ (p.io x).eventLoop = .loop := by
  have hidle : p.controller = .idle := h.callers.busy k fun hidle => by
    rw [hidle] at hx
    cases hx
  have hmem := h.callers.target k x hx
  have hrunning := h.roster.running
  rw [hidle] at hrunning
  have hdrains : (p.io x).place.drains = false := by
    by_contra hd
    have := hrunning x hmem
    rw [stopped, (h.steady x).drains (Bool.not_eq_false _ ▸ hd)] at this
    cases this
  have hunstarted : ¬ ((p.io x).place = .starting ∨ (p.io x).place = .posting) := fun hp => by
    have := h.roster.unstarted x hmem hp
    rw [hidle] at this
    cases this
  refine ⟨h.roster.listed x hmem, ?_, (h.steady x).loop (h.roster.listed x hmem) (fun hp => hunstarted (Or.inl hp)) fun hp => ?_⟩
  · cases hp : (p.io x).place <;> rw [hp] at hdrains <;> first | rfl | cases hdrains
  · rw [hp] at hdrains
    cases hdrains

theorem Inv.own_target (h : p.Inv m) {x : Nat} (hne : (p.io t).adder ≠ .idle) (hx : (p.io t).adder.target = some x) :
    x = t ∧ (p.io t).place ≠ .absent ∧ (p.io t).place.gone = false ∧ (p.io t).eventLoop = .loop := by
  have huser := (h.steady t).own hne
  have habs : (p.io t).place ≠ .absent := fun hp => by
    rw [hp] at huser
    cases huser
  refine ⟨h.conserved.own t x hx, habs, ?_, (h.steady t).loop habs ?_ ?_⟩
  · cases hp : (p.io t).place <;> rw [hp] at huser <;> first | rfl | cases huser
  · intro hp
    rw [hp] at huser
    cases huser
  · intro hp
    rw [hp] at huser
    cases huser

theorem Inv.returned_addMoves (h : p.Inv m) {this : Option Nat} {a a' : Adder} {q : IOPool} (hs : AddMoves p this a a' q)
    (hflight : ∀ t id task, a = .adding t id task → id ∈ p.givenTo t) : ∀ id ∈ q.returned, id < q.given.length := by
  cases hs with
  | count t task =>
    intro id hid
    rw [List.length_append]
    exact Nat.lt_add_right _ (h.returned id hid)
  | add t id task =>
    intro id' hid
    rcases List.mem_append.mp hid with hid | hid
    · exact h.returned id' hid
    · rw [List.mem_singleton] at hid
      obtain ⟨task', hget⟩ := mem_givenTo.mp (hflight t id task rfl)
      exact hid ▸ (List.getElem?_eq_some_iff.mp hget).1
  | _ => exact h.returned

theorem Inv.roster_addMoves (h : p.Inv m) {this : Option Nat} {a a' : Adder} {q : IOPool} (hs : AddMoves p this a a' q)
    {r : IOPool} (hplace : ∀ t, (r.io t).place = (q.io t).place) (hrun : ∀ t, (r.io t).shouldRun = (q.io t).shouldRun)
    (hsame : r.threads = q.threads ∧ r.stoppedThreads = q.stoppedThreads ∧ r.controller = q.controller ∧ r.nextId = q.nextId ∧
      r.isJoin = q.isJoin) : r.Roster := by
  obtain ⟨-, hthreads, hleft, hcontroller, hjoin, hnext, -⟩ := hs.frame
  obtain ⟨hthreads', hleft', hcontroller', hnext', hjoin'⟩ := hsame
  have hthread := hs.thread
  refine h.roster.congr (fun t => ?_) (fun t => ?_) (hthreads'.trans hthreads) (hleft'.trans hleft)
    (hcontroller'.trans hcontroller) (hnext'.trans hnext) (hjoin'.trans hjoin)
  · rw [hplace]
    rcases hthread t with heq | ⟨-, heq, -⟩
    · rw [heq]
    · exact heq
  · rw [hrun]
    rcases hthread t with heq | ⟨-, -, heq, -⟩
    · rw [heq]
    · exact heq

theorem Inv.outside_addMoves (h : p.Inv m) {k : Nat} {a' : Adder} {q : IOPool} (hs : AddMoves p none (p.adders k) a' q) :
    ({ q with adders := Function.update q.adders k a' } : IOPool).Inv m := by
  obtain ⟨hadders, hthreads, -, hcontroller, hjoin, -, hfailed⟩ := hs.frame
  have hidle : p.controller = .idle := h.callers.busy k fun hidle => by
    rw [hidle] at hs
    cases hs
  refine ⟨h.conserved.outside_addMoves hs, fun t => ?_,
    h.roster_addMoves hs (fun _ => rfl) (fun _ => rfl) ⟨rfl, rfl, rfl, rfl, rfl⟩, ⟨fun j _ => ?_, fun j x hx => ?_, fun j task hj => ?_⟩,
    ?_, hfailed.trans h.failed⟩
  · show (q.io t).Steady q.isJoin
    rw [hjoin]
    rcases hs.thread t with heq | ⟨htarget, hplace, hrun, hloop, hadder⟩
    · rw [heq]
      exact h.steady t
    · obtain ⟨habs, hgone, -⟩ := h.outside_target htarget
      exact (h.steady t).given habs hgone hplace hrun hloop hadder
  · exact hcontroller.trans hidle
  · show x ∈ q.threads
    rw [hthreads]
    by_cases hj : j = k
    · subst hj
      rw [show ({ q with adders := Function.update q.adders j a' } : IOPool).adders j = a' from Function.update_self ..] at hx
      rcases hs.target hx with hold | hthis | ⟨-, hmem⟩
      · exact h.callers.target j x hold
      · cases hthis
      · exact hmem
    · rw [show ({ q with adders := Function.update q.adders k a' } : IOPool).adders j = q.adders j from
        Function.update_of_ne hj .., hadders] at hx
      exact h.callers.target j x hx
  · show q.threads ≠ []
    rw [hthreads]
    by_cases hjk : j = k
    · subst hjk
      rw [show ({ q with adders := Function.update q.adders j a' } : IOPool).adders j = a' from Function.update_self ..] at hj
      subst hj
      generalize hak : p.adders j = a at hs
      cases hs with
      | check task hsome => exact hsome
    · rw [show ({ q with adders := Function.update q.adders k a' } : IOPool).adders j = q.adders j from
        Function.update_of_ne hjk .., hadders] at hj
      exact h.callers.picking j task hj
  · have hreturned := h.returned_addMoves hs fun t id task ha => h.conserved.outside_flight ha
    exact hreturned

theorem setAdder_cases (p : IOPool) (t : Nat) (a : Adder) (x : Nat) :
    (p.setThread t { p.io t with adder := a }).io x = p.io x ∨
      x = t ∧ (p.setThread t { p.io t with adder := a }).io x = { p.io x with adder := a } := by
  by_cases hx : x = t
  · subst hx
    exact Or.inr ⟨rfl, Function.update_self ..⟩
  · exact Or.inl (Function.update_of_ne hx ..)

theorem Inv.own_addMoves (h : p.Inv m) {a' : Adder} {q : IOPool} (hs : AddMoves p (some t) (p.io t).adder a' q) :
    (q.setThread t { q.io t with adder := a' }).Inv m := by
  obtain ⟨hadders, hthreads, -, hcontroller, hjoin, -, hfailed⟩ := hs.frame
  have hne : (p.io t).adder ≠ .idle := fun hidle => by
    rw [hidle] at hs
    cases hs
  have hsteady : ∀ x, (q.io x).Steady p.isJoin := by
    intro x
    rcases hs.thread x with heq | ⟨htarget, hplace, hrun, hloop, hadder⟩
    · rw [heq]
      exact h.steady x
    · obtain ⟨rfl, habs, hgone, -⟩ := h.own_target hne htarget
      exact (h.steady x).given habs hgone hplace hrun hloop hadder
  have huser : (q.io t).place.inUser = true := (hsteady t).own (by rw [hs.adder]; exact hne)
  have hrecord := setAdder_cases q t a'
  refine ⟨h.conserved.own_addMoves hs, fun x => ?_, h.roster_addMoves hs (fun x => ?_) (fun x => ?_) ⟨rfl, rfl, rfl, rfl, rfl⟩,
    ⟨?_, ?_, ?_⟩, ?_, hfailed.trans h.failed⟩
  · show IOThread.Steady q.isJoin _
    rw [hjoin]
    rcases hrecord x with heq | ⟨rfl, heq⟩
    · rw [heq]
      exact hsteady x
    · rw [heq]
      exact (hsteady x).setAdder huser a'
  · rcases hrecord x with heq | ⟨-, heq⟩ <;> rw [heq]
  · rcases hrecord x with heq | ⟨-, heq⟩ <;> rw [heq]
  · show ∀ k, q.adders k ≠ .idle → q.controller = .idle
    rw [hadders, hcontroller]
    exact h.callers.busy
  · show ∀ k x, (q.adders k).target = some x → x ∈ q.threads
    rw [hadders, hthreads]
    exact h.callers.target
  · show ∀ k task, q.adders k = .picking task → q.threads ≠ []
    rw [hadders, hthreads]
    exact h.callers.picking
  · have hreturned := h.returned_addMoves hs fun x id task ha => h.conserved.own_flight ha
    exact hreturned

theorem Inv.outside_not_fails (h : p.Inv m) (k : Nat) : ¬ AddFails p none (p.adders k) := by
  intro hfail
  generalize hk : p.adders k = a at hfail
  cases hfail with
  | modulo task hthis hnone => exact h.callers.picking k task hk hnone
  | noLoop t id task hloop => exact hloop (h.outside_target (k := k) (by rw [hk]; rfl)).2.2

theorem Inv.own_not_fails (h : p.Inv m) (t : Nat) : ¬ AddFails p (some t) (p.io t).adder := by
  intro hfail
  generalize ha : (p.io t).adder = a at hfail
  cases hfail with
  | modulo task hthis hnone => cases hthis
  | noLoop x id task hloop =>
    obtain ⟨rfl, -, -, hset⟩ := h.own_target (t := t) (x := x) (by rw [ha]; exact nofun) (by rw [ha]; rfl)
    exact hloop hset

/-! ### Runs -/

/-- The calls of `add` from outside the pool do not overlap those of the controller. -/
def Apart (m : Nat) (p : IOPool) : Label → Prop
  | .add _ _ => p.controller = .idle
  | .call _ => ∀ k < m, p.adders k = .idle
  | _ => True

instance : ∀ l, Decidable (p.Apart m l)
  | .add _ _ => inferInstanceAs (Decidable (p.controller = .idle))
  | .call _ => inferInstanceAs (Decidable (∀ k < m, p.adders k = .idle))
  | .addOwn _ _ => isTrue trivial
  | .adder _ => isTrue trivial
  | .own _ => isTrue trivial
  | .controller => isTrue trivial
  | .thread _ _ => isTrue trivial

theorem Inv.add (h : p.Inv m) {k : Nat} {task : PoolTask} (hidle : p.controller = .idle) (hk : k < m) (hfree : p.adders k = .idle) :
    ({ p with adders := Function.update p.adders k (.locking task) } : IOPool).Inv m := by
  have htarget : ∀ j, (Function.update p.adders k (.locking task) j).target = (p.adders j).target := by
    intro j
    by_cases hj : j = k
    · rw [hj, Function.update_self, hfree]
      rfl
    · rw [Function.update_of_ne hj]
  refine ⟨h.conserved.congr rfl (fun t => ?_) (fun j hj => ?_) fun _ => ⟨rfl, rfl, Or.inl rfl⟩, h.steady,
    h.roster.congr (fun _ => rfl) (fun _ => rfl) rfl rfl rfl rfl rfl, ⟨fun _ _ => hidle, fun j x hx => ?_, fun j task' hj => ?_⟩,
    h.returned, h.failed⟩
  · have hupdate := tally_update (f := p.adders) (w := Adder.flight t) hk (.locking task)
    rw [hfree] at hupdate
    simpa only [Adder.flight, add_zero] using hupdate
  · show Function.update p.adders k (.locking task) j = .idle
    rw [Function.update_of_ne (by omega)]
    exact h.conserved.outside j hj
  · exact h.callers.target j x ((htarget j).symm.trans hx)
  · refine h.callers.picking j task' ?_
    by_cases hjk : j = k
    · rw [hjk] at hj
      rw [show ({ p with adders := Function.update p.adders k (.locking task) } : IOPool).adders k = .locking task from
        Function.update_self ..] at hj
      cases hj
    · exact (Function.update_of_ne hjk ..).symm.trans hj

theorem Inv.addOwn (h : p.Inv m) {task : PoolTask} (hfree : (p.io t).adder = .idle) (huser : (p.io t).place.inUser = true) :
    (p.setThread t { p.io t with adder := .locking task }).Inv m := by
  have hrecord := setAdder_cases p t (.locking task)
  refine ⟨h.conserved.congr rfl (fun _ => rfl) h.conserved.outside fun x => ?_, fun x => ?_,
    h.roster.congr (fun x => ?_) (fun x => ?_) rfl rfl rfl rfl rfl, ⟨h.callers.busy, h.callers.target, h.callers.picking⟩,
    h.returned, h.failed⟩
  · rcases hrecord x with heq | ⟨rfl, heq⟩
    · rw [heq]
      exact ⟨rfl, rfl, Or.inl rfl⟩
    · rw [heq, hfree]
      exact ⟨rfl, rfl, Or.inr ⟨rfl, rfl⟩⟩
  · rcases hrecord x with heq | ⟨rfl, heq⟩
    · rw [heq]
      exact h.steady x
    · rw [heq]
      exact (h.steady x).setAdder huser (.locking task)
  · rcases hrecord x with heq | ⟨-, heq⟩ <;> rw [heq]
  · rcases hrecord x with heq | ⟨-, heq⟩ <;> rw [heq]

theorem Inv.call (h : p.Inv m) {c : IOCall} (hc : c ≠ .stop) (hidle : p.controller = .idle) (hfree : ∀ k < m, p.adders k = .idle) :
    ({ p with controller := .locking c } : IOPool).Inv m := by
  have hnone : ∀ k, p.adders k = .idle := fun k =>
    if hk : k < m then hfree k hk else h.conserved.outside k (Nat.le_of_not_lt hk)
  have hrunning := h.roster.running
  rw [hidle] at hrunning
  have hroster : ({ p with controller := .locking c } : IOPool).Roster ∧ Touch p { p with controller := .locking c } :=
    h.roster.advance hidle rfl nofun id rfl nofun (fun _ _ _ => id) hrunning trivial hc id
  refine ⟨h.conserved.congr rfl (fun _ => rfl) h.conserved.outside fun _ => ⟨rfl, rfl, Or.inl rfl⟩, h.steady, hroster.1,
    ⟨fun k hk => absurd (hnone k) hk, h.callers.target, h.callers.picking⟩, h.returned, h.failed⟩

theorem Inv.controller (h : p.Inv m) (hs : p.controllerStep = some p') : p'.Inv m := by
  obtain ⟨hroster, htouch⟩ := h.roster.controllerStep h.steady hs
  have hbusy : p.controller ≠ .idle := fun hidle => by
    rw [IOPool.controllerStep, hidle] at hs
    cases hs
  have hnone : ∀ k, p'.adders k = .idle := fun k => by
    rw [htouch.adders]
    by_contra hk
    exact hbusy (h.callers.busy k hk)
  refine ⟨h.conserved.congr htouch.given (fun _ => by rw [htouch.adders]) (fun k _ => hnone k) fun t => ?_,
    fun t => (h.steady t).touched htouch.isJoin (htouch.io t), hroster,
    ⟨fun k hk => absurd (hnone k) hk, fun k x hx => ?_, fun k task hk => ?_⟩, ?_, htouch.failed.trans h.failed⟩
  · obtain ⟨hdone, hheld, hpending, hlist, hadder⟩ := (htouch.io t).tasks
    exact ⟨by rw [hdone, hheld], by rw [hpending, hlist], Or.inl hadder⟩
  · rw [hnone k] at hx
    cases hx
  · rw [hnone k] at hk
    cases hk
  · rw [htouch.returned, htouch.given]
    exact h.returned

theorem Inv.thread (h : p.Inv m) (hfree : (p.io t).adder = .idle) (hs : p.threadStep t now = some p') : p'.Inv m := by
  obtain ⟨th, hmove, rfl⟩ := threadStep_cases hs
  refine ⟨h.conserved.threadMoves hmove rfl rfl rfl, fun x => ?_, h.roster.threadMoves hmove,
    ⟨h.callers.busy, h.callers.target, h.callers.picking⟩, h.returned, h.failed⟩
  show ((Function.update p.io t th) x).Steady p.isJoin
  by_cases hx : x = t
  · subst hx
    rw [Function.update_self]
    exact (h.steady x).threadMoves hfree (h.conserved.nonneg x) hmove
  · rw [Function.update_of_ne hx]
    exact h.steady x

variable {l : Label} {ls : List Label} {isJoin : Bool} {numThreads : Nat}

theorem step_inv (hl : l ≠ .call .stop) (hok : p.Apart m l) (h : p.Inv m) (hs : p.step m l = some p') : p'.Inv m := by
  unfold step at hs
  rw [if_neg (by simp [h.failed])] at hs
  cases l with
  | add k task =>
    simp only at hs
    split_ifs at hs with hfree
    cases hs
    exact h.add hok hfree.1 hfree.2
  | addOwn t task =>
    simp only at hs
    split_ifs at hs with hfree
    cases hs
    exact h.addOwn hfree.1 hfree.2
  | adder k =>
    simp only [Option.map_eq_some_iff] at hs
    obtain ⟨⟨q, a'⟩, hstep, rfl⟩ := hs
    exact h.outside_addMoves ((addStep_cases hstep).resolve_right (h.outside_not_fails k))
  | own t =>
    simp only [Option.map_eq_some_iff] at hs
    obtain ⟨⟨q, a'⟩, hstep, rfl⟩ := hs
    exact h.own_addMoves ((addStep_cases hstep).resolve_right (h.own_not_fails t))
  | call c =>
    simp only at hs
    split_ifs at hs with hidle
    cases hs
    exact h.call (fun hc => hl (by rw [hc])) hidle hok
  | controller => exact h.controller hs
  | thread t now =>
    simp only at hs
    split_ifs at hs with hfree
    exact h.thread hfree hs

theorem Conserved.done_le (h : p.Conserved m) {id : Nat} {task : PoolTask} (hget : p.given[id]? = some (t, task)) (x : Nat) :
    (p.io x).doneIds.count id ≤ if x = t then 1 else 0 := by
  have hle : (p.io x).doneIds.count id ≤ (p.givenTo x).count id := by
    rw [h.tasks x, Multiset.count_add, Multiset.count_add]
    omega
  refine hle.trans ?_
  split_ifs with hx
  · exact Multiset.nodup_iff_count_le_one.mp nodup_givenTo id
  · rw [Multiset.count_eq_zero.mpr fun hmem => ?_]
    obtain ⟨task', hget'⟩ := mem_givenTo.mp hmem
    rw [hget] at hget'
    cases hget'
    exact hx rfl

theorem Inv.removed (h : p.Inv m) {id : Nat} {task : PoolTask} (hget : p.given[id]? = some (t, task))
    (hremoved : t ∉ p.threads) : (p.io t).doneIds.count id = 1 := by
  have hmem : id ∈ p.givenTo t := mem_givenTo.mpr ⟨task, hget⟩
  have hgone : (p.io t).pendingTasks = 0 := by
    rcases h.roster.unlisted t hremoved with hp | hp
    · exact ((h.steady t).fresh hp).2
    · exact (h.steady t).gone (by rw [hp]; rfl)
  rw [h.conserved.all_done hgone]
  exact Multiset.count_eq_one_of_mem nodup_givenTo hmem

/-- **No task is lost.** In every run with calls of `setNumThreads` and `join` in which no thread outside the
pool is in `add` while the controller is in a call: nothing ends the process; each task whose `add` has
returned was given to a thread, is done by no other and at most once, and has been done when the thread is
removed; a thread that is picked has not left its final loop; and `pendingTasks` is the number of the
tasks given to the thread less those it has done. -/
theorem no_task_lost (hls : ∀ l ∈ ls, l ≠ .call .stop) (hok : Lib.StepsMeet (step m) (Apart m) (start isJoin numThreads) ls)
    (hrun : Lib.run (step m) (start isJoin numThreads) ls = some p) :
    p.failed = none ∧
    (∀ id ∈ p.returned, ∃ t task, p.given[id]? = some (t, task) ∧
      (∀ x, ((p.io x).done.map Prod.fst).count id ≤ if x = t then 1 else 0) ∧
      (t ∉ p.threads → ((p.io t).done.map Prod.fst).count id = 1)) ∧
    (∀ k t task, p.adders k = .counting t task → (p.io t).place.gone = false) ∧
    (∀ x t task, (p.io x).adder = .counting t task → (p.io t).place.gone = false) ∧
    ∀ t, (p.io t).pendingTasks = (p.given.map Prod.fst).count t - (p.io t).done.length ∧ 0 ≤ (p.io t).pendingTasks := by
  have hcalls : Lib.StepsMeet (step m) (fun _ l => l ≠ .call .stop) (start isJoin numThreads) ls :=
    .of_forall fun l hl _ => hls l hl
  have h : p.Inv m := Lib.run_invariant_where (fun _ _ _ h hok hs => step_inv hok.1 hok.2 h hs) (inv_start isJoin numThreads)
    (hcalls.and hok) hrun
  refine ⟨h.failed, fun id hid => ?_, fun k t task hk => ?_, fun x t task hx => ?_, fun t => ⟨?_, h.conserved.nonneg t⟩⟩
  · obtain ⟨⟨t, task⟩, hget⟩ : ∃ g, p.given[id]? = some g := ⟨_, List.getElem?_eq_getElem (h.returned id hid)⟩
    refine ⟨t, task, hget, fun x => ?_, fun hremoved => ?_⟩
    · have hle := h.conserved.done_le hget x
      rwa [IOThread.doneIds, Multiset.coe_count] at hle
    · have hone := h.removed hget hremoved
      rwa [IOThread.doneIds, Multiset.coe_count] at hone
  · exact (h.outside_target (k := k) (by rw [hk]; rfl)).2.1
  · obtain ⟨rfl, -, hgone, -⟩ := h.own_target (t := x) (x := t) (by rw [hx]; simp) (by rw [hx]; rfl)
    exact hgone
  · have hcounter := h.conserved.counter t
    rw [card_givenTo] at hcounter
    omega

/-- The constructor of a pool of one thread. -/
def constructorLabels : List Label := List.replicate 5 .controller ++ List.replicate 2 (.thread 0 0) ++ List.replicate 3 .controller

/-- `join`, up to the wait for the thread. -/
def joinLabels : List Label := [.call .join] ++ List.replicate 8 .controller

/-- A task is added before `join` is called, and is run in the final loop. -/
def drainLabels : List Label :=
  constructorLabels ++ [.add 0 ⟨0, 0, false⟩] ++ List.replicate 6 (.adder 0) ++ joinLabels ++ List.replicate 17 (.thread 0 0) ++
    List.replicate 6 .controller

theorem no_task_lost_drain :
    ∃ p, Lib.run (step 1) (start true 1) drainLabels = some p ∧ 0 ∈ p.returned ∧ 0 ∉ p.threads ∧
      ((p.io 0).done.map Prod.fst).count 0 = 1 := by
  obtain ⟨p, hp⟩ : ∃ p, Lib.run (step 1) (start true 1) drainLabels = some p := ⟨_, rfl⟩
  have hreturned : 0 ∈ p.returned := by
    cases hp
    decide
  have hremoved : 0 ∉ p.threads := by
    cases hp
    decide
  have hgiven : p.given[0]? = some (0, ⟨0, 0, false⟩) := by
    cases hp
    rfl
  obtain ⟨-, htasks, -, -, -⟩ := no_task_lost (by decide) (by decide) hp
  obtain ⟨t, task, hget, -, hdone⟩ := htasks 0 hreturned
  rw [hgiven] at hget
  cases hget
  exact ⟨p, hp, hreturned, hremoved, hdone hremoved⟩

/-- `add` has picked the thread when `join` is called; the thread finds no pending task, and only then the
task is counted and handed to its loop. -/
def loseLabels : List Label :=
  constructorLabels ++ [.add 0 ⟨0, 0, false⟩] ++ List.replicate 4 (.adder 0) ++ joinLabels ++ List.replicate 3 (.thread 0 0) ++
    List.replicate 2 (.adder 0) ++ List.replicate 2 (.thread 0 0) ++ List.replicate 6 .controller

/-- The task is lost: its `add` has returned, its thread was removed, and it was not run. -/
theorem task_lost :
    ∃ p, Lib.run (step 1) (start true 1) loseLabels = some p ∧ 0 ∈ p.returned ∧ p.given[0]? = some (0, ⟨0, 0, false⟩) ∧
      p.controller = .idle ∧ 0 ∉ p.threads ∧ (p.io 0).place = .exited ∧ (p.io 0).done = [] ∧ (p.io 0).pendingTasks = 1 := by
  refine ⟨_, rfl, ?_, rfl, rfl, ?_, rfl, rfl, rfl⟩ <;> decide

end IOPool

end Raster
