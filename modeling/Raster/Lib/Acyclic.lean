import Mathlib.Data.Fintype.EquivFin
import Mathlib.Logic.Relation
import Mathlib.Order.WellFounded
import Mathlib.Data.Fintype.Order

/-!
# Acyclic relations on a finite range

A relation between numbers below a bound without a directed cycle is well-founded, and so is its
converse: one can induct along the edges or against them.
-/

namespace Raster.Lib

/-- No directed cycle. -/
def Acyclic {α : Type*} (r : α → α → Prop) : Prop := ∀ a, ¬ Relation.TransGen r a a

variable {r : ℕ → ℕ → Prop} {n : ℕ}

theorem Acyclic.swap (h : Acyclic r) : Acyclic (Function.swap r) :=
  fun a ha => h a (Relation.transGen_swap.mp ha)

theorem Acyclic.wellFounded (h : Acyclic r) (hr : ∀ a b, r a b → a < n ∧ b < n) : WellFounded r := by
  let q : Fin n → Fin n → Prop := fun a b => Relation.TransGen r a.1 b.1
  have hq : WellFounded q := by
    have : IsTrans (Fin n) q := ⟨fun _ _ _ => Relation.TransGen.trans⟩
    have : Std.Irrefl q := ⟨fun a => h a.1⟩
    exact Finite.wellFounded_of_trans_of_irrefl q
  have hacc : ∀ a : Fin n, Acc r a.1 := by
    intro a
    induction a using hq.induction with
    | _ a ih =>
      refine Acc.intro _ fun b hb => ?_
      exact ih ⟨b, (hr b a.1 hb).1⟩ (Relation.TransGen.single hb)
  refine ⟨fun a => Acc.intro a fun b hb => hacc ⟨b, (hr b a hb).1⟩⟩

theorem not_transGen_of_acc {α : Type*} {r : α → α → Prop} {a : α} (h : Acc r a) : ¬ Relation.TransGen r a a := by
  induction h.transGen with
  | intro a _ ih => exact fun hcycle => ih a hcycle (h.inv_of_transGen hcycle) hcycle

theorem acyclic_of_rank {α : Type*} {r : α → α → Prop} (rank : α → ℕ) (h : ∀ a b, r a b → rank a < rank b) :
    Acyclic r := by
  have hlt : ∀ a b, Relation.TransGen r a b → rank a < rank b := by
    intro a b hab
    induction hab with
    | single hab => exact h _ _ hab
    | tail _ hbc ih => exact ih.trans (h _ _ hbc)
  exact fun a ha => lt_irrefl _ (hlt a a ha)

end Raster.Lib
