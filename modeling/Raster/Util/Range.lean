import Mathlib.Data.List.Infix

/-!
# Searching a range

`qfind` of `raster/util/Range.h`: the last elements are compared first, and after a mismatch in front of
equal last elements the search goes on at the next place where the last element of the needle stands in the
needle.
-/

namespace Raster

variable {α : Type*} [DecidableEq α]

/-- The loop that computes `skip`. -/
def skipLoop (needle : List α) (lastNeedle : α) (skip : Nat) : Nat :=
  if skip < needle.length ∧ needle[needle.length - 1 - skip]? ≠ some lastNeedle then
    skipLoop needle lastNeedle (skip + 1)
  else skip
termination_by needle.length - skip

theorem le_skipLoop (needle : List α) (lastNeedle : α) (skip : Nat) : skip ≤ skipLoop needle lastNeedle skip := by
  fun_induction skipLoop needle lastNeedle skip with
  | case1 skip h ih => omega
  | case2 skip h => exact Nat.le_refl skip

/-- The search from `i` on; `none` stands for `npos`. -/
def qfindLoop (haystack needle : List α) (lastNeedle : α) (i : Nat) : Option Nat :=
  if i < haystack.length - (needle.length - 1) then
    if haystack[i + (needle.length - 1)]? = some lastNeedle then
      if needle <+: haystack.drop i then some i
      else qfindLoop haystack needle lastNeedle (i + skipLoop needle lastNeedle 1)
    else qfindLoop haystack needle lastNeedle (i + 1)
  else none
termination_by haystack.length - i
decreasing_by
  · have := le_skipLoop needle lastNeedle 1
    omega
  · omega

def qfind (haystack needle : List α) : Option Nat :=
  if haystack.length < needle.length then none
  else
    match needle.getLast? with
    | none => some 0
    | some lastNeedle => qfindLoop haystack needle lastNeedle 0

/-! ### Occurrences -/

section

variable {β : Type*} {haystack needle : List β} {j : Nat}

theorem getElem?_of_occurs (hoccurs : needle <+: haystack.drop j) {k : Nat} (hk : k < needle.length) :
    haystack[j + k]? = needle[k]? := by
  obtain ⟨rest, hrest⟩ := hoccurs
  rw [← List.getElem?_drop, ← hrest, List.getElem?_append_left hk]

theorem add_length_le_of_occurs (hne : needle ≠ []) (hoccurs : needle <+: haystack.drop j) :
    j + needle.length ≤ haystack.length := by
  have hlength := hoccurs.length_le
  have := List.length_pos_iff.mpr hne
  rw [List.length_drop] at hlength
  omega

theorem isInfix_iff_occurs : needle <:+: haystack ↔ ∃ j, needle <+: haystack.drop j := by
  constructor
  · rintro ⟨before, after, rfl⟩
    refine ⟨before.length, after, ?_⟩
    rw [List.append_assoc, List.drop_left]
  · rintro ⟨j, hoccurs⟩
    exact hoccurs.isInfix.trans (List.drop_suffix j haystack).isInfix

theorem not_occurs_of_last (hne : needle ≠ []) {lastNeedle : β} (hlast : needle.getLast? = some lastNeedle)
    (hother : haystack[j + (needle.length - 1)]? ≠ some lastNeedle) : ¬ needle <+: haystack.drop j := by
  intro hoccurs
  have hpos := List.length_pos_iff.mpr hne
  rw [getElem?_of_occurs hoccurs (by omega), ← List.getLast?_eq_getElem?] at hother
  exact hother hlast

end

/-! ### The search is exact -/

section

variable {haystack needle : List α} {lastNeedle : α} {i j : Nat}

theorem skipLoop_le {skip : Nat} (hskip : skip ≤ needle.length) : skipLoop needle lastNeedle skip ≤ needle.length := by
  fun_induction skipLoop needle lastNeedle skip with
  | case1 skip h ih => exact ih (by omega)
  | case2 skip h => exact hskip

theorem ne_of_lt_skipLoop {skip t : Nat} (hle : skip ≤ t) (hlt : t < skipLoop needle lastNeedle skip) :
    needle[needle.length - 1 - t]? ≠ some lastNeedle := by
  fun_induction skipLoop needle lastNeedle skip with
  | case1 skip h ih =>
    rcases Nat.eq_or_lt_of_le hle with rfl | hlt'
    · exact h.2
    · exact ih hlt' hlt
  | case2 skip h => omega

theorem not_occurs_of_skip (hne : needle ≠ []) (hlast : haystack[i + (needle.length - 1)]? = some lastNeedle)
    (hlt : i < j) (hskip : j < i + skipLoop needle lastNeedle 1) : ¬ needle <+: haystack.drop j := by
  intro hoccurs
  have hpos := List.length_pos_iff.mpr hne
  have hle : skipLoop needle lastNeedle 1 ≤ needle.length := skipLoop_le hpos
  have hdiff : needle[needle.length - 1 - (j - i)]? ≠ some lastNeedle :=
    ne_of_lt_skipLoop (show 1 ≤ j - i by omega) (by omega)
  apply hdiff
  rw [← getElem?_of_occurs hoccurs (by omega), ← hlast]
  congr 1
  omega

theorem qfindLoop_spec (haystack : List α) (i : Nat) (hne : needle ≠ []) (hlast : needle.getLast? = some lastNeedle) :
    (∀ k, qfindLoop haystack needle lastNeedle i = some k → needle <+: haystack.drop k) ∧
    (qfindLoop haystack needle lastNeedle i = none → ∀ j, i ≤ j → ¬ needle <+: haystack.drop j) := by
  fun_induction qfindLoop haystack needle lastNeedle i with
  | case1 i hi hequal hoccurs =>
    refine ⟨fun k hk => ?_, nofun⟩
    rwa [← Option.some.inj hk]
  | case2 i hi hequal hnot ih =>
    refine ⟨ih.1, fun hnone j hj => ?_⟩
    rcases Nat.eq_or_lt_of_le hj with rfl | hlt
    · exact hnot
    · by_cases hskip : j < i + skipLoop needle lastNeedle 1
      · exact not_occurs_of_skip hne hequal hlt hskip
      · exact ih.2 hnone j (by omega)
  | case3 i hi hother ih =>
    refine ⟨ih.1, fun hnone j hj => ?_⟩
    rcases Nat.eq_or_lt_of_le hj with rfl | hlt
    · exact not_occurs_of_last hne hlast hother
    · exact ih.2 hnone j hlt
  | case4 i hi =>
    refine ⟨nofun, fun _ j hj hoccurs => ?_⟩
    have := add_length_le_of_occurs hne hoccurs
    have := List.length_pos_iff.mpr hne
    omega

/-- **Something is found if and only if the needle occurs.** -/
theorem isSome_qfind_iff (hne : needle ≠ []) : (qfind haystack needle).isSome ↔ needle <:+: haystack := by
  obtain ⟨lastNeedle, hlast⟩ : ∃ l, needle.getLast? = some l := ⟨_, List.getLast?_eq_some_getLast hne⟩
  obtain ⟨hfound, hnone⟩ := qfindLoop_spec haystack 0 hne hlast
  unfold qfind
  split_ifs with hshort
  · simp only [Option.isSome_none, Bool.false_eq_true, false_iff]
    intro hoccurs
    have := hoccurs.length_le
    omega
  · simp only [hlast]
    rw [isInfix_iff_occurs]
    cases hq : qfindLoop haystack needle lastNeedle 0 with
    | none => simpa using fun j => hnone hq j (Nat.zero_le j)
    | some k => simpa using ⟨k, hfound k hq⟩

end

end Raster
