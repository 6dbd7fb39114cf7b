import Mathlib.Logic.Basic
import Mathlib.Data.List.Basic

/-!
# Runs of guarded step functions

A transition system is given by `step : σ → ℓ → Option σ`: the label carries every choice of the
environment, and `none` says that the label is not enabled. `run` iterates it over a list of labels,
and the rules below turn a fact about one step into a fact about every state a run reaches.

`StepsMeet ok` is for results about part of the runs only: it says that each step of a run, at the
state it is taken in, satisfies `ok`.
-/

namespace Raster.Lib

variable {σ ℓ : Type*}

/-- The state after the labels `ls`, if each of them was enabled in turn. -/
def run (step : σ → ℓ → Option σ) : σ → List ℓ → Option σ
  | s, [] => some s
  | s, l :: ls => (step s l).bind fun s' => run step s' ls

variable {step : σ → ℓ → Option σ} {s s' t : σ} {l : ℓ} {ls ms : List ℓ}

@[simp] theorem run_nil : run step s [] = some s := rfl

theorem run_cons : run step s (l :: ls) = (step s l).bind fun s' => run step s' ls := rfl

theorem run_cons_eq_some : run step s (l :: ls) = some t ↔ ∃ u, step s l = some u ∧ run step u ls = some t := by
  rw [run_cons, Option.bind_eq_some_iff]

theorem run_append : run step s (ls ++ ms) = (run step s ls).bind fun s' => run step s' ms := by
  induction ls generalizing s with
  | nil => rfl
  | cons l ls ih =>
    rw [List.cons_append, run_cons, run_cons]
    cases step s l with
    | none => rfl
    | some u => exact ih

theorem run_append_eq_some :
    run step s (ls ++ ms) = some t ↔ ∃ u, run step s ls = some u ∧ run step u ms = some t := by
  rw [run_append, Option.bind_eq_some_iff]

/-- Each step of the run satisfies `ok` at the state it is taken in. -/
def StepsMeet (step : σ → ℓ → Option σ) (ok : σ → ℓ → Prop) : σ → List ℓ → Prop
  | _, [] => True
  | s, l :: ls => ok s l ∧ ∀ s', step s l = some s' → StepsMeet step ok s' ls

instance StepsMeet.decidable {ok : σ → ℓ → Prop} [∀ s l, Decidable (ok s l)] :
    ∀ s ls, Decidable (StepsMeet step ok s ls)
  | _, [] => isTrue trivial
  | s, l :: ls =>
    have : Decidable (∀ s', step s l = some s' → StepsMeet step ok s' ls) :=
      match step s l with
      | none => isTrue nofun
      | some u =>
        match StepsMeet.decidable u ls with
        | isTrue h => isTrue fun _ hs' => Option.some.inj hs' ▸ h
        | isFalse h => isFalse fun hall => h (hall u rfl)
    inferInstanceAs (Decidable (_ ∧ _))

theorem StepsMeet.of_forall {ok : σ → ℓ → Prop} (h : ∀ l ∈ ls, ∀ s, ok s l) : StepsMeet step ok s ls := by
  induction ls generalizing s with
  | nil => trivial
  | cons l ls ih => exact ⟨h l List.mem_cons_self s, fun _ _ => ih fun m hm => h m (List.mem_cons_of_mem _ hm)⟩

theorem StepsMeet.and {ok ok' : σ → ℓ → Prop} (h : StepsMeet step ok s ls) (h' : StepsMeet step ok' s ls) :
    StepsMeet step (fun s l => ok s l ∧ ok' s l) s ls := by
  induction ls generalizing s with
  | nil => trivial
  | cons l ls ih => exact ⟨⟨h.1, h'.1⟩, fun u hu => ih (h.2 u hu) (h'.2 u hu)⟩

/-- A condition that follows from another one wherever an invariant holds, which steps that meet the other keep. -/
theorem StepsMeet.imp {I : σ → Prop} {ok ok' : σ → ℓ → Prop}
    (hI : ∀ s l s', l ∈ ls → I s → ok s l → step s l = some s' → I s') (hok : ∀ s l, l ∈ ls → I s → ok s l → ok' s l)
    (hs : I s) (h : StepsMeet step ok s ls) : StepsMeet step ok' s ls := by
  induction ls generalizing s with
  | nil => trivial
  | cons l ls ih =>
    refine ⟨hok s l List.mem_cons_self hs h.1, fun u hu => ?_⟩
    exact ih (fun s l s' hl => hI s l s' (List.mem_cons_of_mem _ hl)) (fun s l hl => hok s l (List.mem_cons_of_mem _ hl))
      (hI s l u List.mem_cons_self hs h.1 hu) (h.2 u hu)

theorem StepsMeet.congr {I : σ → Prop} {ok ok' : σ → ℓ → Prop} (hI : ∀ s l s', l ∈ ls → I s → step s l = some s' → I s')
    (hok : ∀ s l, l ∈ ls → I s → (ok s l ↔ ok' s l)) (hs : I s) : StepsMeet step ok s ls ↔ StepsMeet step ok' s ls := by
  constructor
  · exact StepsMeet.imp (fun s l s' hl h _ => hI s l s' hl h) (fun s l hl h => (hok s l hl h).mp) hs
  · exact StepsMeet.imp (fun s l s' hl h _ => hI s l s' hl h) (fun s l hl h => (hok s l hl h).mpr) hs

theorem StepsMeet.at_append {ok : σ → ℓ → Prop} (hok : StepsMeet step ok s (ls ++ ms))
    (hrun : run step s ls = some t) : StepsMeet step ok t ms := by
  induction ls generalizing s with
  | nil =>
    rw [run_nil, Option.some.injEq] at hrun
    exact hrun ▸ hok
  | cons l ls ih =>
    obtain ⟨u, hu, hrest⟩ := run_cons_eq_some.mp hrun
    exact ih (hok.2 u hu) hrest

theorem StepsMeet.of_append {ok : σ → ℓ → Prop} (hok : StepsMeet step ok s (ls ++ ms)) : StepsMeet step ok s ls := by
  induction ls generalizing s with
  | nil => trivial
  | cons l ls ih => exact ⟨hok.1, fun u hu => ih (hok.2 u hu)⟩

theorem run_invariant_where {I : σ → Prop} {ok : σ → ℓ → Prop}
    (hstep : ∀ s l s', I s → ok s l → step s l = some s' → I s') (hs : I s)
    (hok : StepsMeet step ok s ls) (hrun : run step s ls = some t) : I t := by
  induction ls generalizing s with
  | nil =>
    rw [run_nil, Option.some.injEq] at hrun
    exact hrun ▸ hs
  | cons l ls ih =>
    obtain ⟨u, hu, hrest⟩ := run_cons_eq_some.mp hrun
    exact ih (hstep s l u hs hok.1 hu) (hok.2 u hu) hrest

theorem run_invariant {I : σ → Prop} (hstep : ∀ s l s', I s → step s l = some s' → I s') (hs : I s)
    (hrun : run step s ls = some t) : I t :=
  run_invariant_where (fun s l s' h _ => hstep s l s' h) hs
    (StepsMeet.of_forall fun _ _ _ => trivial) hrun

/-- If a step is only taken while `good` holds, and leads to a state where it holds if and only if the step
satisfies `ok`, then it holds at the end of a run if and only if all steps did. -/
theorem run_good_iff {good : σ → Prop} {ok : σ → ℓ → Prop} (hfrom : ∀ s l s', step s l = some s' → good s)
    (hstep : ∀ s l s', step s l = some s' → (good s' ↔ ok s l)) (hs : good s) (hrun : run step s ls = some t) :
    good t ↔ StepsMeet step ok s ls := by
  induction ls generalizing s with
  | nil =>
    rw [run_nil, Option.some.injEq] at hrun
    exact iff_of_true (hrun ▸ hs) trivial
  | cons l ls ih =>
    obtain ⟨u, hu, hrest⟩ := run_cons_eq_some.mp hrun
    by_cases hgood : good u
    · refine (ih hgood hrest).trans ⟨fun h => ⟨(hstep s l u hu).mp hgood, fun s' hs' => ?_⟩, fun h => h.2 u hu⟩
      rw [hu, Option.some.injEq] at hs'
      exact hs' ▸ h
    · cases ls with
      | nil =>
        rw [run_nil, Option.some.injEq] at hrest
        exact iff_of_false (hrest ▸ hgood) fun h => hgood ((hstep s l u hu).mpr h.1)
      | cons l' ls =>
        obtain ⟨v, hv, -⟩ := run_cons_eq_some.mp hrest
        exact absurd (hfrom u l' v hv) hgood

/-- If the steps that satisfy `ok` keep an invariant under which the state is good, and the others lead to a
state that is not good, then every state of a run is good if and only if all its steps satisfy `ok`. -/
theorem stepsMeet_iff_forall_good {I good : σ → Prop} {ok : σ → ℓ → Prop}
    (hstep : ∀ s l s', I s → ok s l → step s l = some s' → I s') (hgood : ∀ s, I s → good s)
    (hbad : ∀ s l s', I s → ¬ ok s l → step s l = some s' → ¬ good s') (hs : I s) (hrun : run step s ls = some t) :
    (∀ before after u, ls = before ++ after → run step s before = some u → good u) ↔ StepsMeet step ok s ls := by
  refine ⟨fun h => ?_, fun h before after u hls hu => ?_⟩
  · induction ls generalizing s with
    | nil => trivial
    | cons l ls ih =>
      obtain ⟨u, hu, hrest⟩ := run_cons_eq_some.mp hrun
      have hok : ok s l := by
        by_contra hok
        exact hbad s l u hs hok hu (h [l] ls u rfl (run_cons_eq_some.mpr ⟨u, hu, run_nil⟩))
      refine ⟨hok, fun s' hs' => ?_⟩
      rw [hu, Option.some.injEq] at hs'
      subst hs'
      refine ih (hstep s l u hs hok hu) hrest fun before after v hls hv => ?_
      exact h (l :: before) after v (by rw [hls, List.cons_append]) (run_cons_eq_some.mpr ⟨u, hu, hv⟩)
  · subst hls
    exact hgood u (run_invariant_where hstep hs h.of_append hu)

/-- Each step of a machine is one step of another, or none, on what `abs` shows of the state: so is each run. -/
theorem run_simulation {σ' ℓ' : Type*} {step' : σ' → ℓ' → Option σ'} {abs : σ → σ'}
    (hstep : ∀ s l s', step s l = some s' → abs s' = abs s ∨ ∃ l', step' (abs s) l' = some (abs s'))
    (hrun : run step s ls = some t) : ∃ ls', run step' (abs s) ls' = some (abs t) := by
  induction ls generalizing s with
  | nil =>
    rw [run_nil, Option.some.injEq] at hrun
    exact ⟨[], hrun ▸ rfl⟩
  | cons l ls ih =>
    obtain ⟨u, hu, hrest⟩ := run_cons_eq_some.mp hrun
    obtain ⟨ls', hls'⟩ := ih hrest
    rcases hstep s l u hu with heq | ⟨l', hl'⟩
    · exact ⟨ls', heq ▸ hls'⟩
    · exact ⟨l' :: ls', run_cons_eq_some.mpr ⟨abs u, hl', hls'⟩⟩

/-- What the steps of a run do, as steps of another machine: `out` says what the step `l` in the state `s` does. -/
def trace {ℓ' : Type*} (step : σ → ℓ → Option σ) (out : σ → ℓ → List ℓ') : σ → List ℓ → List ℓ'
  | _, [] => []
  | s, l :: ls => out s l ++ ((step s l).map fun s' => trace step out s' ls).getD []

theorem trace_cons {ℓ' : Type*} {out : σ → ℓ → List ℓ'} {u : σ} (hu : step s l = some u) :
    trace step out s (l :: ls) = out s l ++ trace step out u ls := by
  rw [trace, hu]
  rfl

/-- If each step that satisfies `ok` does what `out` says, on what `abs` shows of the state, then each run of
such steps does what its trace says. -/
theorem run_trace_where {σ' ℓ' : Type*} {step' : σ' → ℓ' → Option σ'} {abs : σ → σ'} {out : σ → ℓ → List ℓ'} {I : σ → Prop}
    {ok : σ → ℓ → Prop}
    (hstep : ∀ s l s', I s → ok s l → step s l = some s' → I s' ∧ run step' (abs s) (out s l) = some (abs s')) (hs : I s)
    (hok : StepsMeet step ok s ls) (hrun : run step s ls = some t) :
    run step' (abs s) (trace step out s ls) = some (abs t) := by
  induction ls generalizing s with
  | nil =>
    rw [run_nil, Option.some.injEq] at hrun
    subst hrun
    rfl
  | cons l ls ih =>
    obtain ⟨u, hu, hrest⟩ := run_cons_eq_some.mp hrun
    obtain ⟨hI, hout⟩ := hstep s l u hs hok.1 hu
    rw [trace_cons hu]
    exact run_append_eq_some.mpr ⟨abs u, hout, ih hI (hok.2 u hu) hrest⟩

theorem run_trace {σ' ℓ' : Type*} {step' : σ' → ℓ' → Option σ'} {abs : σ → σ'} {out : σ → ℓ → List ℓ'} {I : σ → Prop}
    (hstep : ∀ s l s', I s → step s l = some s' → I s' ∧ run step' (abs s) (out s l) = some (abs s')) (hs : I s)
    (hrun : run step s ls = some t) : run step' (abs s) (trace step out s ls) = some (abs t) :=
  run_trace_where (fun s l s' h _ => hstep s l s' h) hs (StepsMeet.of_forall fun _ _ _ => trivial) hrun

/-- Each step of a specification can be taken by what implements it, from related states to related states: so
can each run. -/
theorem run_implements {σ' : Type*} {step' : σ' → ℓ → Option σ'} {R : σ → σ' → Prop} {s₁ : σ'}
    (hstep : ∀ s s₁ l s', R s s₁ → step s l = some s' → ∃ s₁', step' s₁ l = some s₁' ∧ R s' s₁') (hR : R s s₁)
    (hrun : run step s ls = some t) : ∃ t₁, run step' s₁ ls = some t₁ ∧ R t t₁ := by
  induction ls generalizing s s₁ with
  | nil =>
    rw [run_nil, Option.some.injEq] at hrun
    exact ⟨s₁, run_nil, hrun ▸ hR⟩
  | cons l ls ih =>
    obtain ⟨u, hu, hrest⟩ := run_cons_eq_some.mp hrun
    obtain ⟨u₁, hu₁, hRu⟩ := hstep s s₁ l u hR hu
    obtain ⟨t₁, ht₁, hRt⟩ := ih hRu hrest
    exact ⟨t₁, run_cons_eq_some.mpr ⟨u₁, hu₁, ht₁⟩, hRt⟩

/-! ### Termination -/

/-- Every run of internal steps is finite, and one that has not come to its end can go on: so the end is
reached, in whatever order the steps are taken. -/
def Finishes (step : σ → ℓ → Option σ) (internal : ℓ → Prop) (ended : σ → Prop) (s : σ) : Prop :=
  ∃ bound, ∀ ls t, (∀ l ∈ ls, internal l) → run step s ls = some t →
    ls.length ≤ bound ∧ (ended t ∨ ∃ l, internal l ∧ (step t l).isSome)

theorem finishes_of_work {internal : ℓ → Prop} {ended I : σ → Prop} (work : σ → Nat)
    (hstep : ∀ s l s', I s → internal l → step s l = some s' → I s' ∧ work s' < work s)
    (hgo : ∀ s, I s → ended s ∨ ∃ l, internal l ∧ (step s l).isSome) (hs : I s) : Finishes step internal ended s := by
  refine ⟨work s, fun ls t hls hrun => ?_⟩
  suffices h : I t ∧ ls.length + work t ≤ work s from ⟨by omega, hgo t h.1⟩
  induction ls generalizing s with
  | nil =>
    rw [run_nil, Option.some.injEq] at hrun
    exact hrun ▸ ⟨hs, by simp⟩
  | cons l ls ih =>
    obtain ⟨u, hu, hrest⟩ := run_cons_eq_some.mp hrun
    obtain ⟨hI, hless⟩ := hstep s l u hs (hls l List.mem_cons_self) hu
    obtain ⟨ht, hle⟩ := ih hI (fun m hm => hls m (List.mem_cons_of_mem _ hm)) hrest
    refine ⟨ht, ?_⟩
    rw [List.length_cons]
    omega

end Raster.Lib
