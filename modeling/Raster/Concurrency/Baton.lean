import Raster.Lib.Machine

/-!
# `Baton`

`raster/util/Baton.h`, over the futex of `raster/util/Futex.h`: the handoff that a pool waits for after it has created a thread. One
thread waits, another one posts. The waiter spins for a while, then marks the word and sleeps in `futex` as long as the word is
marked; the poster delivers early, or stores the late delivery and wakes the waiter. A waiter with a deadline may give up.

The threads and the kernel take their steps in any order. `futexWait` compares and sleeps at once, and may return without a reason.
After both are done the baton may be reset and used again, and then a `futexWake` that is still to come belongs to nobody.
-/

namespace Raster

/-- `Baton::State`. -/
inductive BatonState
  | init
  | earlyDelivery
  | waiting
  | lateDelivery
  | timedOut
  deriving DecidableEq, Repr

/-- Where the waiting thread is. -/
inductive BatonWaiter
  | idle
  /-- In `try_wait`, called for itself. -/
  | trying
  /-- In `spinWaitForEarlyDelivery`, after some attempts. -/
  | spinning (attempts : Nat)
  /-- At the assertion behind it. -/
  | delivered
  /-- At `compare_exchange_strong`. -/
  | blocking
  /-- At `futexWait` or `futexWaitUntil`. -/
  | futexWait
  /-- In the kernel. -/
  | asleep
  /-- At the load behind `futexWait`. -/
  | woken
  /-- At the store of `TIMED_OUT`. -/
  | expired
  | returned (posted : Bool)
  deriving DecidableEq, Repr

/-- Where the posting thread is. -/
inductive BatonPoster
  | idle
  /-- At the first load. -/
  | loading
  /-- At `compare_exchange_strong`. -/
  | exchanging
  /-- At the store of `LATE_DELIVERY`. -/
  | delivering
  /-- At `futexWake`. -/
  | waking
  | returned
  deriving DecidableEq, Repr

/-- The waiting thread does not use the baton. -/
def BatonWaiter.settled : BatonWaiter → Bool
  | .idle => true
  | .returned _ => true
  | _ => false

/-- The waiting thread is in `wait` or `timed_wait`, or has been. -/
def BatonWaiter.waits : BatonWaiter → Bool
  | .idle => false
  | .trying => false
  | _ => true

/-- The posting thread does not use the baton, but for the address that it gives to the kernel. -/
def BatonPoster.settled : BatonPoster → Bool
  | .idle => true
  | .waking => true
  | .returned => true
  | _ => false

structure Baton where
  state : BatonState := .init
  /-- The call is `timed_wait`. -/
  timed : Bool := false
  waiter : BatonWaiter := .idle
  poster : BatonPoster := .idle
  /-- The calls of `futexWake` that are left from before a `reset`. -/
  strays : Nat := 0
  /-- An assertion has failed. -/
  failed : Bool := false
  deriving DecidableEq, Repr

namespace Baton

inductive Label
  | tryWait
  | wait (timed : Bool)
  | post
  | reset
  /-- The next access of the waiting thread. -/
  | waiter
  /-- The next access of the posting thread. -/
  | poster
  /-- `futexWait` returns with `INTERRUPTED`. -/
  | interrupt
  /-- `futexWaitUntil` returns with `TIMEDOUT`. -/
  | timeout
  /-- A `futexWake` from before a `reset`. -/
  | stray
  deriving DecidableEq, Repr

/-- `PreBlockAttempts`. -/
def preBlockAttempts : Nat := 300

/-- The next access of the waiting thread. -/
def waiterStep (s : Baton) : Option Baton :=
  match s.waiter with
  | .trying =>
    match s.state with
    | .init => some { s with waiter := .idle }
    | .earlyDelivery => some { s with waiter := .returned true }
    | _ => some { s with failed := true }
  | .spinning attempts =>
    match s.state with
    | .init => some { s with waiter := if attempts + 1 < preBlockAttempts then .spinning (attempts + 1) else .blocking }
    | .earlyDelivery => some { s with waiter := .delivered }
    | _ => some { s with failed := true }
  | .delivered => if s.state = .earlyDelivery then some { s with waiter := .returned true } else some { s with failed := true }
  | .blocking =>
    match s.state with
    | .init => some { s with state := .waiting, waiter := .futexWait }
    | .earlyDelivery => some { s with waiter := .returned true }
    | _ => some { s with failed := true }
  | .futexWait => some { s with waiter := if s.state = .waiting then .asleep else .woken }
  | .woken =>
    match s.state with
    | .waiting => some { s with waiter := .futexWait }
    | .lateDelivery => some { s with waiter := .returned true }
    | _ => some { s with failed := true }
  | .expired => some { s with state := .timedOut, waiter := .returned false }
  | .idle => none
  | .asleep => none
  | .returned _ => none

/-- `futexWake(1)`. -/
def futexWake (s : Baton) : Baton := if s.waiter = .asleep then { s with waiter := .woken } else s

/-- The next access of the posting thread. -/
def posterStep (s : Baton) : Option Baton :=
  match s.poster with
  | .loading =>
    match s.state with
    | .init => some { s with poster := .exchanging }
    | .waiting => some { s with poster := .delivering }
    | .timedOut => some { s with poster := .returned }
    | _ => some { s with failed := true }
  | .exchanging =>
    match s.state with
    | .init => some { s with state := .earlyDelivery, poster := .returned }
    | .waiting => some { s with poster := .delivering }
    | .timedOut => some { s with poster := .returned }
    | _ => some { s with failed := true }
  | .delivering => some { s with state := .lateDelivery, poster := .waking }
  | .waking => some { s.futexWake with poster := .returned }
  | .idle => none
  | .returned => none

/-- In one life of the baton there is one call of `post` and one of `wait` or `timed_wait`, after any number of
calls of `try_wait`; it is reset by somebody who knows that both are done, or that neither was made. -/
def step (s : Baton) (l : Label) : Option Baton :=
  if s.failed then none
  else match l with
    | .tryWait => if s.waiter = .idle then some { s with waiter := .trying } else none
    | .wait timed => if s.waiter = .idle then some { s with timed, waiter := .spinning 0 } else none
    | .post => if s.poster = .idle then some { s with poster := .loading } else none
    | .reset =>
      if s.waiter.settled ∧ s.poster.settled then
        if s.state = .waiting then some { s with failed := true }
        else some { strays := s.strays + if s.poster = .waking then 1 else 0 }
      else none
    | .waiter => s.waiterStep
    | .poster => s.posterStep
    | .interrupt => if s.waiter = .asleep then some { s with waiter := .woken } else none
    | .timeout => if s.timed ∧ s.waiter = .asleep then some { s with waiter := .expired } else none
    | .stray => if 0 < s.strays then some { s.futexWake with strays := s.strays - 1 } else none

/-! ### The word and the two threads -/

/-- What the word is, with the threads where they are. -/
def Fits (s : Baton) : Prop :=
  match s.waiter with
  | .idle | .trying | .spinning _ | .blocking =>
    s.state = .init ∧ s.poster ∈ [.idle, .loading, .exchanging] ∨ s.state = .earlyDelivery ∧ s.poster = .returned
  | .delivered => s.state = .earlyDelivery ∧ s.poster = .returned
  | .futexWait | .woken | .expired =>
    s.state = .waiting ∧ s.poster ∈ [.idle, .loading, .exchanging, .delivering] ∨
      s.state = .lateDelivery ∧ s.poster ∈ [.waking, .returned]
  | .asleep =>
    s.state = .waiting ∧ s.poster ∈ [.idle, .loading, .exchanging, .delivering] ∨ s.state = .lateDelivery ∧ s.poster = .waking
  | .returned true =>
    s.state = .earlyDelivery ∧ s.poster = .returned ∨ s.state = .lateDelivery ∧ s.poster ∈ [.waking, .returned]
  | .returned false => s.state = .timedOut ∨ s.state = .lateDelivery ∧ s.poster ∈ [.waking, .returned]

/-- No assertion has failed, and only a waiter with a deadline has given up. -/
structure Inv (s : Baton) : Prop where
  failed : s.failed = false
  fits : s.Fits
  timed : s.waiter = .expired ∨ s.waiter = .returned false → s.timed = true
  attempts : ∀ i, s.waiter = .spinning i → i < preBlockAttempts

variable {s s' t : Baton} {l : Label} {ls : List Label}

theorem inv_init : Inv {} := ⟨rfl, Or.inl ⟨rfl, List.mem_cons_self⟩, by simp, by simp⟩

theorem Inv.waiterStep (h : s.Inv) (hs : s.waiterStep = some s') : s'.Inv := by
  obtain ⟨hfailed, hfits, htimed, hattempts⟩ := h
  unfold Fits at hfits
  unfold Baton.waiterStep at hs
  cases hw : s.waiter with
  | idle => simp only [hw, reduceCtorEq] at hs
  | asleep => simp only [hw, reduceCtorEq] at hs
  | returned posted => simp only [hw, reduceCtorEq] at hs
  | trying =>
    rw [hw] at hfits
    rcases hfits with ⟨hstate, hposter⟩ | ⟨hstate, hposter⟩ <;> simp only [hw, hstate, Option.some.injEq] at hs <;> subst hs
    · exact ⟨hfailed, Or.inl ⟨rfl, hposter⟩, by simp, by simp⟩
    · exact ⟨hfailed, Or.inl ⟨rfl, hposter⟩, by simp, by simp⟩
  | spinning attempts =>
    rw [hw] at hfits
    rcases hfits with ⟨hstate, hposter⟩ | ⟨hstate, hposter⟩ <;> simp only [hw, hstate, Option.some.injEq] at hs <;> subst hs
    · split_ifs with hless
      · exact ⟨hfailed, Or.inl ⟨rfl, hposter⟩, by simp, by simpa using hless⟩
      · exact ⟨hfailed, Or.inl ⟨rfl, hposter⟩, by simp, by simp⟩
    · exact ⟨hfailed, ⟨rfl, hposter⟩, by simp, by simp⟩
  | delivered =>
    rw [hw] at hfits
    obtain ⟨hstate, hposter⟩ := hfits
    simp only [hw, hstate, if_true, Option.some.injEq] at hs
    subst hs
    exact ⟨hfailed, Or.inl ⟨rfl, hposter⟩, by simp, by simp⟩
  | blocking =>
    rw [hw] at hfits
    rcases hfits with ⟨hstate, hposter⟩ | ⟨hstate, hposter⟩ <;> simp only [hw, hstate, Option.some.injEq] at hs <;> subst hs
    · exact ⟨hfailed, Or.inl ⟨rfl, List.mem_append_left [BatonPoster.delivering] hposter⟩, by simp, by simp⟩
    · exact ⟨hfailed, Or.inl ⟨rfl, hposter⟩, by simp, by simp⟩
  | futexWait =>
    rw [hw] at hfits
    rcases hfits with ⟨hstate, hposter⟩ | ⟨hstate, hposter⟩ <;>
      simp only [hw, hstate, reduceCtorEq, if_true, if_false, Option.some.injEq] at hs <;> subst hs
    · exact ⟨hfailed, Or.inl ⟨rfl, hposter⟩, by simp, by simp⟩
    · exact ⟨hfailed, Or.inr ⟨rfl, hposter⟩, by simp, by simp⟩
  | woken =>
    rw [hw] at hfits
    rcases hfits with ⟨hstate, hposter⟩ | ⟨hstate, hposter⟩ <;> simp only [hw, hstate, Option.some.injEq] at hs <;> subst hs
    · exact ⟨hfailed, Or.inl ⟨rfl, hposter⟩, by simp, by simp⟩
    · exact ⟨hfailed, Or.inr ⟨rfl, hposter⟩, by simp, by simp⟩
  | expired =>
    simp only [hw, Option.some.injEq] at hs
    subst hs
    exact ⟨hfailed, Or.inl rfl, fun _ => htimed (Or.inl hw), by simp⟩

theorem Inv.futexWake (h : s.Inv) : s.futexWake.Inv := by
  unfold Baton.futexWake
  split_ifs with hasleep
  · have hfits := h.fits
    unfold Fits at hfits
    rw [hasleep] at hfits
    refine ⟨h.failed, ?_, by simp, by simp⟩
    rcases hfits with hwaiting | ⟨hstate, hposter⟩
    · exact Or.inl hwaiting
    · exact Or.inr ⟨hstate, hposter ▸ List.mem_cons_self⟩
  · exact h

theorem Fits.of_unposted (h : s.Fits) (hp : s.poster = .idle ∨ s.poster = .loading ∨ s.poster = .exchanging) :
    s.state = .init ∧ Fits { s with poster := .exchanging } ∧ Fits { s with state := .earlyDelivery, poster := .returned } ∨
      s.state = .waiting ∧ Fits { s with poster := .delivering } ∨ s.state = .timedOut ∧ Fits { s with poster := .returned } := by
  unfold Fits at h ⊢
  cases hw : s.waiter with
  | returned posted =>
    rw [hw] at h
    rcases hp with hp | hp | hp <;> rw [hp] at h <;> cases posted <;> simp_all
  | _ =>
    rw [hw] at h
    rcases hp with hp | hp | hp <;> rw [hp] at h <;> simp_all

theorem Fits.of_delivering (h : s.Fits) (hp : s.poster = .delivering) :
    Fits { s with state := .lateDelivery, poster := .waking } := by
  unfold Fits at h ⊢
  cases hw : s.waiter with
  | returned posted =>
    rw [hw, hp] at h
    cases posted <;> simp_all
  | _ =>
    rw [hw, hp] at h
    simp_all

theorem Fits.of_waking (h : s.Fits) (hp : s.poster = .waking) : Fits { s.futexWake with poster := .returned } := by
  unfold Fits at h ⊢
  unfold Baton.futexWake
  cases hw : s.waiter with
  | returned posted =>
    rw [hw, hp] at h
    cases posted <;> simp_all
  | _ =>
    rw [hw, hp] at h
    simp_all

theorem Fits.of_post (h : s.Fits) (hp : s.poster = .idle) : Fits { s with poster := .loading } := by
  unfold Fits at h ⊢
  cases hw : s.waiter with
  | returned posted =>
    rw [hw, hp] at h
    cases posted <;> simp_all
  | _ =>
    rw [hw, hp] at h
    simp_all

theorem Fits.not_waiting (h : s.Fits) (hw : s.waiter.settled) : s.state ≠ .waiting := by
  unfold Fits at h
  cases hplace : s.waiter with
  | idle =>
    rw [hplace] at h
    rcases h with h | h <;> simp [h.1]
  | returned posted =>
    rw [hplace] at h
    cases posted
    · rcases h with h | h <;> simp [h]
    · rcases h with h | h <;> simp [h.1]
  | _ =>
    rw [hplace] at hw
    cases hw

theorem Inv.posterStep (h : s.Inv) (hs : s.posterStep = some s') : s'.Inv := by
  have hfailed := h.failed
  have htimed := h.timed
  have hattempts := h.attempts
  unfold Baton.posterStep at hs
  cases hp : s.poster with
  | idle => simp only [hp, reduceCtorEq] at hs
  | returned => simp only [hp, reduceCtorEq] at hs
  | loading =>
    rcases h.fits.of_unposted (Or.inr (Or.inl hp)) with ⟨hstate, hfits, -⟩ | ⟨hstate, hfits⟩ | ⟨hstate, hfits⟩ <;>
      simp only [hp, hstate, Option.some.injEq] at hs hfits <;> subst hs <;> exact ⟨hfailed, hfits, htimed, hattempts⟩
  | exchanging =>
    rcases h.fits.of_unposted (Or.inr (Or.inr hp)) with ⟨hstate, -, hfits⟩ | ⟨hstate, hfits⟩ | ⟨hstate, hfits⟩ <;>
      simp only [hp, hstate, Option.some.injEq] at hs hfits <;> subst hs <;> exact ⟨hfailed, hfits, htimed, hattempts⟩
  | delivering =>
    simp only [hp, Option.some.injEq] at hs
    subst hs
    exact ⟨hfailed, h.fits.of_delivering hp, htimed, hattempts⟩
  | waking =>
    simp only [hp, Option.some.injEq] at hs
    subst hs
    have hw := h.futexWake
    exact ⟨hw.failed, h.fits.of_waking hp, hw.timed, hw.attempts⟩

/-- **No step makes an assertion fail**, in any life of the baton. -/
theorem Inv.step (h : s.Inv) (hs : s.step l = some s') : s'.Inv := by
  have hfailed := h.failed
  have hfits := h.fits
  unfold Baton.step at hs
  rw [if_neg (by rw [hfailed]; exact Bool.false_ne_true)] at hs
  cases l with
  | tryWait =>
    simp only at hs
    split_ifs at hs with hidle
    cases hs
    unfold Fits at hfits
    rw [hidle] at hfits
    exact ⟨hfailed, hfits, by simp, by simp⟩
  | wait timed =>
    simp only at hs
    split_ifs at hs with hidle
    cases hs
    unfold Fits at hfits
    rw [hidle] at hfits
    exact ⟨hfailed, hfits, by simp, by simp [preBlockAttempts]⟩
  | post =>
    simp only at hs
    split_ifs at hs with hidle
    cases hs
    exact ⟨hfailed, hfits.of_post hidle, h.timed, h.attempts⟩
  | reset =>
    simp only at hs
    split_ifs at hs with hsettled hwaiting hwaking
    · exact absurd hwaiting (hfits.not_waiting hsettled.1)
    all_goals
      cases hs
      exact ⟨rfl, Or.inl ⟨rfl, List.mem_cons_self⟩, by simp, by simp⟩
  | waiter => exact h.waiterStep hs
  | poster => exact h.posterStep hs
  | interrupt =>
    simp only at hs
    split_ifs at hs with hasleep
    cases hs
    have hw := h.futexWake
    rwa [Baton.futexWake, if_pos hasleep] at hw
  | timeout =>
    simp only at hs
    split_ifs at hs with hasleep
    cases hs
    have hw := h.futexWake
    rw [Baton.futexWake, if_pos hasleep.2] at hw
    exact ⟨hfailed, hw.fits, fun _ => hasleep.1, by simp⟩
  | stray =>
    simp only at hs
    split_ifs at hs with hstrays
    cases hs
    have hw := h.futexWake
    exact ⟨hw.failed, hw.fits, hw.timed, hw.attempts⟩

/-! ### Runs -/

theorem run_inv (hrun : Lib.run step {} ls = some s) : s.Inv :=
  Lib.run_invariant (fun _ _ _ h hs => Inv.step h hs) inv_init hrun

/-- **In every run no assertion fails**, a wait ends with the delivery, a wait without a deadline ends in no
other way, and nobody sleeps on when the post has returned. -/
theorem run_sound (hrun : Lib.run step {} ls = some s) :
    s.failed = false ∧
    (s.waiter = .returned true → s.state = .earlyDelivery ∨ s.state = .lateDelivery) ∧
    (s.waiter = .returned false → s.timed = true) ∧
    (s.state = .earlyDelivery ∨ s.state = .lateDelivery → s.poster = .waking ∨ s.poster = .returned) ∧
    (s.poster = .returned → s.waiter ≠ .asleep) := by
  obtain ⟨hfailed, hfits, htimed, -⟩ := run_inv hrun
  unfold Fits at hfits
  refine ⟨hfailed, fun hw => ?_, fun hw => htimed (Or.inr hw), fun hdelivered => ?_, fun hp hw => ?_⟩
  · rw [hw] at hfits
    exact hfits.imp And.left And.left
  · cases hw : s.waiter with
    | returned posted =>
      rw [hw] at hfits
      cases posted <;> rcases hdelivered with hstate | hstate <;> rw [hstate] at hfits <;> simp_all
    | _ =>
      rw [hw] at hfits
      rcases hdelivered with hstate | hstate <;> rw [hstate] at hfits <;> simp_all
  · rw [hw, hp] at hfits
    simp at hfits

/-! ### The wait comes to its end -/

/-- The accesses that are left to the waiting thread, if it is not disturbed. -/
def waiterWork (s : Baton) : Nat :=
  match s.waiter with
  | .spinning attempts => preBlockAttempts - attempts + 6
  | .blocking => 6
  | .delivered => 1
  | .futexWait => 3
  | .asleep => 2
  | .woken => if s.state = .waiting then 4 else 1
  | .expired => 1
  | _ => 0

def posterWork : BatonPoster → Nat
  | .loading => 4
  | .exchanging => 3
  | .delivering => 2
  | .waking => 1
  | _ => 0

def work (s : Baton) : Nat := s.waiterWork + posterWork s.poster + 3 * s.strays

/-- The threads go on, and old calls of `futexWake` arrive. -/
def Internal : Label → Prop
  | .waiter => True
  | .poster => True
  | .stray => True
  | _ => False

theorem waiterStep_work (h : s.Inv) (hwaits : s.waiter.waits) (hs : s.waiterStep = some s') :
    s'.waiter.waits ∧ s'.poster = s.poster ∧ s'.strays = s.strays ∧ s'.waiterWork < s.waiterWork := by
  have hfits := h.fits
  have hattempts := h.attempts
  unfold Fits at hfits
  unfold Baton.waiterStep at hs
  cases hw : s.waiter with
  | idle => simp only [hw, reduceCtorEq] at hs
  | asleep => simp only [hw, reduceCtorEq] at hs
  | returned posted => simp only [hw, reduceCtorEq] at hs
  | trying =>
    rw [hw] at hwaits
    cases hwaits
  | spinning attempts =>
    have hless := hattempts attempts hw
    rw [hw] at hfits
    rcases hfits with ⟨hstate, -⟩ | ⟨hstate, -⟩ <;> simp only [hw, hstate, Option.some.injEq] at hs <;> subst hs
    · refine ⟨?_, rfl, rfl, ?_⟩ <;> split_ifs <;> simp [BatonWaiter.waits, waiterWork, hw] <;> omega
    · exact ⟨rfl, rfl, rfl, by simp [waiterWork, hw]⟩
  | delivered =>
    rw [hw] at hfits
    simp only [hw, hfits.1, if_true, Option.some.injEq] at hs
    subst hs
    exact ⟨rfl, rfl, rfl, by simp [waiterWork, hw]⟩
  | blocking =>
    rw [hw] at hfits
    rcases hfits with ⟨hstate, -⟩ | ⟨hstate, -⟩ <;> simp only [hw, hstate, Option.some.injEq] at hs <;> subst hs <;>
      exact ⟨rfl, rfl, rfl, by simp [waiterWork, hw]⟩
  | futexWait =>
    simp only [hw, Option.some.injEq] at hs
    subst hs
    split_ifs with hwaiting <;> exact ⟨rfl, rfl, rfl, by simp [waiterWork, hw, hwaiting]⟩
  | woken =>
    rw [hw] at hfits
    rcases hfits with ⟨hstate, -⟩ | ⟨hstate, -⟩ <;> simp only [hw, hstate, Option.some.injEq] at hs <;> subst hs <;>
      exact ⟨rfl, rfl, rfl, by simp [waiterWork, hw, hstate]⟩
  | expired =>
    simp only [hw, Option.some.injEq] at hs
    subst hs
    exact ⟨rfl, rfl, rfl, by simp [waiterWork, hw]⟩

theorem futexWake_work (hwaits : s.waiter.waits) :
    s.futexWake.waiter.waits ∧ s.futexWake.poster = s.poster ∧ s.futexWake.strays = s.strays ∧
      s.futexWake.waiterWork ≤ s.waiterWork + 2 ∧
      ((s.waiter = .asleep → s.state = .lateDelivery) → s.futexWake.waiterWork ≤ s.waiterWork) := by
  unfold futexWake
  split_ifs with hasleep
  · refine ⟨rfl, rfl, rfl, ?_, fun hstate => ?_⟩
    · simp only [waiterWork, hasleep]
      split_ifs <;> omega
    · simp [waiterWork, hasleep, hstate hasleep]
  · exact ⟨hwaits, rfl, rfl, Nat.le_add_right .., fun _ => Nat.le_refl _⟩

theorem posterStep_work (h : s.Inv) (hwaits : s.waiter.waits) (hs : s.posterStep = some s') :
    s'.waiter.waits ∧ s'.poster ≠ .idle ∧ s'.strays = s.strays ∧
      s'.waiterWork + posterWork s'.poster < s.waiterWork + posterWork s.poster := by
  unfold Baton.posterStep at hs
  cases hp : s.poster with
  | idle => simp only [hp, reduceCtorEq] at hs
  | returned => simp only [hp, reduceCtorEq] at hs
  | loading =>
    rcases h.fits.of_unposted (Or.inr (Or.inl hp)) with ⟨hstate, -, -⟩ | ⟨hstate, -⟩ | ⟨hstate, -⟩ <;>
      simp only [hp, hstate, Option.some.injEq] at hs <;> subst hs <;>
      exact ⟨hwaits, by simp, rfl, by simp [waiterWork, posterWork, hstate]⟩
  | exchanging =>
    rcases h.fits.of_unposted (Or.inr (Or.inr hp)) with ⟨hstate, -, -⟩ | ⟨hstate, -⟩ | ⟨hstate, -⟩ <;>
      simp only [hp, hstate, Option.some.injEq] at hs <;> subst hs <;>
      exact ⟨hwaits, by simp, rfl, by simp [waiterWork, posterWork, hstate]⟩
  | delivering =>
    simp only [hp, Option.some.injEq] at hs
    subst hs
    refine ⟨hwaits, by simp, rfl, ?_⟩
    have hle : waiterWork { s with state := .lateDelivery, poster := .waking } ≤ s.waiterWork := by
      simp only [waiterWork]
      cases s.waiter <;> simp
      split_ifs <;> omega
    simp only [posterWork]
    omega
  | waking =>
    simp only [hp, Option.some.injEq] at hs
    subst hs
    obtain ⟨hwaits', -, hstrays, -, hless⟩ := futexWake_work hwaits
    have hle := hless fun hasleep => by
      have hfits := h.fits
      unfold Fits at hfits
      rw [hasleep, hp] at hfits
      simpa using hfits
    refine ⟨hwaits', by simp, hstrays, ?_⟩
    show s.futexWake.waiterWork + 0 < s.waiterWork + 1
    omega

theorem step_work (h : s.Inv) (hposted : s.poster ≠ .idle) (hwaits : s.waiter.waits) (hl : Internal l) (hs : s.step l = some s') :
    s'.poster ≠ .idle ∧ s'.waiter.waits ∧ s'.work < s.work := by
  unfold Baton.step at hs
  rw [if_neg (by rw [h.failed]; exact Bool.false_ne_true)] at hs
  unfold work
  cases l with
  | waiter =>
    obtain ⟨hwaits', hposter, hstrays, hless⟩ := waiterStep_work h hwaits hs
    rw [hposter, hstrays]
    exact ⟨hposted, hwaits', by omega⟩
  | poster =>
    obtain ⟨hwaits', hposter, hstrays, hless⟩ := posterStep_work h hwaits hs
    exact ⟨hposter, hwaits', by omega⟩
  | stray =>
    simp only at hs
    split_ifs at hs with hstrays
    cases hs
    obtain ⟨hwaits', hposter, -, hle, -⟩ := futexWake_work hwaits
    refine ⟨hposter ▸ hposted, hwaits', ?_⟩
    show s.futexWake.waiterWork + posterWork s.futexWake.poster + 3 * (s.strays - 1) < _
    rw [hposter]
    omega
  | _ => cases hl

theorem Inv.goes_on (h : s.Inv) (hposted : s.poster ≠ .idle) (hwaits : s.waiter.waits) :
    s.poster = .returned ∧ (s.waiter = .returned true ∨ s.timed = true ∧ s.waiter = .returned false) ∨
      ∃ l, Internal l ∧ (s.step l).isSome := by
  have hrunning : ¬ s.failed = true := by
    rw [h.failed]
    exact Bool.false_ne_true
  by_cases hp : s.poster = .returned
  · cases hw : s.waiter with
    | idle => rw [hw] at hwaits; cases hwaits
    | trying => rw [hw] at hwaits; cases hwaits
    | asleep =>
      have hfits := h.fits
      unfold Fits at hfits
      rw [hw, hp] at hfits
      simp at hfits
    | returned posted =>
      cases posted with
      | true => exact Or.inl ⟨hp, Or.inl rfl⟩
      | false => exact Or.inl ⟨hp, Or.inr ⟨h.timed (Or.inr hw), rfl⟩⟩
    | _ =>
      refine Or.inr ⟨.waiter, trivial, ?_⟩
      rw [Baton.step.eq_def, if_neg hrunning]
      simp only [Baton.waiterStep, hw]
      repeat' split
      all_goals rfl
  · refine Or.inr ⟨.poster, trivial, ?_⟩
    rw [Baton.step.eq_def, if_neg hrunning]
    simp only [Baton.posterStep]
    cases hplace : s.poster with
    | idle => exact absurd hplace hposted
    | returned => exact absurd hplace hp
    | _ =>
      simp only
      repeat' split
      all_goals rfl

/-- **After `post` no wake-up is missing**: whatever order the threads go on in, and whatever old calls of
`futexWake` do, they come to the end of `post` and of the wait, and a wait without a deadline ends with the
delivery. -/
theorem wait_finishes (hrun : Lib.run step {} ls = some s) (hposted : s.poster ≠ .idle) (hwaits : s.waiter.waits) :
    Lib.Finishes step Internal
      (fun s => s.poster = .returned ∧ (s.waiter = .returned true ∨ s.timed = true ∧ s.waiter = .returned false)) s := by
  refine Lib.finishes_of_work (I := fun s => s.Inv ∧ s.poster ≠ .idle ∧ s.waiter.waits = true) work ?_ ?_
    ⟨run_inv hrun, hposted, hwaits⟩
  · rintro s l s' ⟨h, hposted, hwaits⟩ hl hs
    obtain ⟨hposted', hwaits', hless⟩ := step_work h hposted hwaits hl hs
    exact ⟨⟨h.step hs, hposted', hwaits'⟩, hless⟩
  · rintro s ⟨h, hposted, hwaits⟩
    exact h.goes_on hposted hwaits

/-- The waiter spins in vain and sleeps, and is posted to. -/
def sleepLabels : List Label := .wait false :: List.replicate 302 .waiter ++ [.post]

theorem wait_finishes_asleep :
    ∃ s, Lib.run step {} sleepLabels = some s ∧ s.waiter = .asleep ∧
      Lib.Finishes step Internal
        (fun s => s.poster = .returned ∧ (s.waiter = .returned true ∨ s.timed = true ∧ s.waiter = .returned false)) s := by
  have hrun : Lib.run step {} sleepLabels = some { state := .waiting, waiter := .asleep, poster := .loading } := by decide +kernel
  exact ⟨_, hrun, rfl, wait_finishes hrun (by decide) rfl⟩

/-- The waiter gives up when the poster has seen its mark; the delivery is stored over `TIMED_OUT`. -/
def expireLabels : List Label :=
  .wait true :: List.replicate 302 .waiter ++ [.post, .poster, .timeout, .waiter, .poster, .reset, .stray]

theorem run_sound_expired : ∃ s, Lib.run step {} expireLabels = some s ∧ s.failed = false := by
  have hrun : Lib.run step {} expireLabels = some {} := by decide +kernel
  exact ⟨_, hrun, (run_sound hrun).1⟩

end Baton

end Raster
