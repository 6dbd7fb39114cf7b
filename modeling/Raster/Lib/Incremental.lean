import Mathlib.Data.List.Basic
import Mathlib.Tactic.SplitIfs

/-!
# Decoders with limited room

A decoder takes one symbol after the other, and each may give any number of outputs. `feed` hands it symbols as long as it takes
them, with room for all output; `run` stops as soon as there is no room for what is to be written, and keeps it. What is written and
what is kept after a run is what `feed` gives (`feed_run`), so that the place where a run stops does not show in the end.
-/

namespace Raster.Lib

variable {τ ι ο ε : Type*}

/-- What a decoder is after a symbol. -/
inductive Phase (τ ε : Type*)
  | running (t : τ)
  | ended
  | failed (e : ε)
  deriving DecidableEq, Repr

/-- The output of a symbol, and what the decoder is behind it. -/
abbrev Decoder (τ ι ο ε : Type*) := τ → ι → List ο × Phase τ ε

/-- A decoder with the output that is to be written before it takes the next symbol. -/
structure Held (τ ο ε : Type*) where
  pending : List ο := []
  phase : Phase τ ε
  deriving DecidableEq, Repr

namespace Decoder

variable (d : Decoder τ ι ο ε)

/-- The decoder behind the symbols, with all their output, and the symbols that it does not take. -/
def feed : Held τ ο ε → List ι → Held τ ο ε × List ι
  | s, [] => (s, [])
  | s, x :: xs =>
    match s.phase with
    | .running t => feed { pending := s.pending ++ (d t x).1, phase := (d t x).2 } xs
    | _ => (s, x :: xs)

/-- What a run leaves, how many symbols it has taken and what it has written. -/
structure Run (τ ο ε : Type*) where
  held : Held τ ο ε
  consumed : Nat
  produced : List ο
  deriving DecidableEq, Repr

/-- What a run has written, and what it keeps. -/
def Run.total (r : Run τ ο ε) : Held τ ο ε := { r.held with pending := r.produced ++ r.held.pending }

/-- Writes what there is room for, and takes no symbol. -/
def stop (s : Held τ ο ε) (room : Nat) : Run τ ο ε :=
  { held := { s with pending := s.pending.drop room }, consumed := 0, produced := s.pending.take room }

/-- A run that writes at most `room` outputs. -/
def run : Held τ ο ε → List ι → (room : Nat) → Run τ ο ε
  | s, [], room => stop s room
  | s, x :: xs, room =>
    match s.phase with
    | .running t =>
      if s.pending.length ≤ room then
        let r := run { pending := (d t x).1, phase := (d t x).2 } xs (room - s.pending.length)
        { r with consumed := r.consumed + 1, produced := s.pending ++ r.produced }
      else stop s room
    | _ => stop s room

/-! ### Feeding -/

theorem feed_pending (out : List ο) (s : Held τ ο ε) (xs : List ι) :
    d.feed { s with pending := out ++ s.pending } xs =
      ({ (d.feed s xs).1 with pending := out ++ (d.feed s xs).1.pending }, (d.feed s xs).2) := by
  induction xs generalizing s with
  | nil => rfl
  | cons x xs ih =>
    obtain ⟨pending, phase⟩ := s
    cases phase with
    | running t =>
      have hrec := ih { pending := pending ++ (d t x).1, phase := (d t x).2 }
      rw [← List.append_assoc] at hrec
      exact hrec
    | ended => rfl
    | failed e => rfl

theorem feed_running (pending : List ο) (t : τ) (x : ι) (xs : List ι) :
    d.feed { pending, phase := .running t } (x :: xs) =
      ({ (d.feed { pending := (d t x).1, phase := (d t x).2 } xs).1 with
          pending := pending ++ (d.feed { pending := (d t x).1, phase := (d t x).2 } xs).1.pending },
        (d.feed { pending := (d t x).1, phase := (d t x).2 } xs).2) :=
  d.feed_pending pending { pending := (d t x).1, phase := (d t x).2 } xs

theorem feed_of_not_running {s : Held τ ο ε} (hs : ∀ t, s.phase ≠ .running t) (xs : List ι) : d.feed s xs = (s, xs) := by
  obtain ⟨pending, phase⟩ := s
  cases xs with
  | nil => rfl
  | cons x xs =>
    cases phase with
    | running t => exact absurd rfl (hs t)
    | ended => rfl
    | failed e => rfl

theorem le_length_feed (s : Held τ ο ε) (xs : List ι) : s.pending.length ≤ (d.feed s xs).1.pending.length := by
  have hfeed := d.feed_pending s.pending { s with pending := [] } xs
  rw [List.append_nil] at hfeed
  rw [hfeed, List.length_append]
  exact Nat.le_add_right ..

theorem feed_append {s : Held τ ο ε} {xs : List ι} (htaken : (d.feed s xs).2 = []) (ys : List ι) :
    d.feed s (xs ++ ys) = d.feed (d.feed s xs).1 ys := by
  induction xs generalizing s with
  | nil => rfl
  | cons x xs ih =>
    obtain ⟨pending, phase⟩ := s
    cases phase with
    | running t => exact ih htaken
    | ended => cases htaken
    | failed e => cases htaken

/-! ### Runs -/

theorem total_stop (s : Held τ ο ε) (room : Nat) : (stop s room).total = s := by
  simp only [Run.total, stop, List.take_append_drop]

theorem run_fits {pending : List ο} {room : Nat} (hroom : pending.length ≤ room) (t : τ) (x : ι) (xs : List ι) :
    d.run { pending, phase := .running t } (x :: xs) room =
      { d.run { pending := (d t x).1, phase := (d t x).2 } xs (room - pending.length) with
        consumed := (d.run { pending := (d t x).1, phase := (d t x).2 } xs (room - pending.length)).consumed + 1
        produced := pending ++ (d.run { pending := (d t x).1, phase := (d t x).2 } xs (room - pending.length)).produced } :=
  if_pos hroom

theorem run_stops {s : Held τ ο ε} {room : Nat} (hs : ∀ t, s.phase = .running t → room < s.pending.length) (xs : List ι) :
    d.run s xs room = stop s room := by
  obtain ⟨pending, phase⟩ := s
  cases xs with
  | nil => rfl
  | cons x xs =>
    cases phase with
    | running t => exact if_neg (Nat.not_le_of_lt (hs t rfl))
    | ended => rfl
    | failed e => rfl

theorem run_cases {motive : Held τ ο ε → List ι → Nat → Prop} (stops : ∀ s xs room, d.run s xs room = stop s room →
      (xs ≠ [] → ∀ t, s.phase = .running t → room < s.pending.length) → motive s xs room)
    (takes : ∀ pending t x xs room, pending.length ≤ room →
      motive { pending := (d t x).1, phase := (d t x).2 } xs (room - pending.length) →
      motive { pending, phase := .running t } (x :: xs) room)
    (s : Held τ ο ε) (xs : List ι) (room : Nat) : motive s xs room := by
  induction xs generalizing s room with
  | nil => exact stops s [] room rfl fun h => absurd rfl h
  | cons x xs ih =>
    obtain ⟨pending, phase⟩ := s
    cases phase with
    | running t =>
      by_cases hroom : pending.length ≤ room
      · exact takes pending t x xs room hroom (ih ..)
      · have hfull (t' : τ) : Phase.running t = Phase.running (ε := ε) t' → room < pending.length := fun _ => Nat.lt_of_not_le hroom
        exact stops _ _ _ (d.run_stops hfull _) fun _ => hfull
    | ended => exact stops _ _ _ rfl fun _ _ h => nomatch h
    | failed e => exact stops _ _ _ rfl fun _ _ h => nomatch h

/-- **A run is a part of feeding.** What comes behind it is fed to what it has written and what it keeps. -/
theorem feed_run (s : Held τ ο ε) (xs ys : List ι) (room : Nat) :
    d.feed s (xs ++ ys) = d.feed (d.run s xs room).total (xs.drop (d.run s xs room).consumed ++ ys) := by
  induction s, xs, room using d.run_cases with
  | stops s xs room hrun _ =>
    rw [hrun, total_stop]
    rfl
  | takes pending t x xs room hroom ih =>
    rw [List.cons_append, feed_running, ih, run_fits d hroom, List.drop_succ_cons]
    simp only [Run.total, List.append_assoc]
    exact (d.feed_pending pending _ _).symm

theorem length_produced_le (s : Held τ ο ε) (xs : List ι) (room : Nat) : (d.run s xs room).produced.length ≤ room := by
  induction s, xs, room using d.run_cases with
  | stops s xs room hrun _ =>
    rw [hrun]
    exact List.length_take_le ..
  | takes pending t x xs room hroom ih =>
    rw [run_fits d hroom, List.length_append]
    omega

theorem length_produced {s : Held τ ο ε} {xs : List ι} {room : Nat} (hkept : (d.run s xs room).held.pending ≠ []) :
    (d.run s xs room).produced.length = room := by
  induction s, xs, room using d.run_cases with
  | stops s xs room hrun _ =>
    rw [hrun] at hkept ⊢
    have hlt : room < s.pending.length := Nat.lt_of_not_le fun h => hkept (List.drop_eq_nil_of_le h)
    exact List.length_take_of_le (Nat.le_of_lt hlt)
  | takes pending t x xs room hroom ih =>
    rw [run_fits d hroom] at hkept ⊢
    have hrec := ih hkept
    rw [List.length_append]
    omega

theorem consumed_le (s : Held τ ο ε) (xs : List ι) (room : Nat) : (d.run s xs room).consumed ≤ xs.length := by
  induction s, xs, room using d.run_cases with
  | stops s xs room hrun _ =>
    rw [hrun]
    exact Nat.zero_le _
  | takes pending t x xs room hroom ih =>
    rw [run_fits d hroom]
    exact Nat.succ_le_succ ih

theorem pending_of_consumed_lt {s : Held τ ο ε} {xs : List ι} {room : Nat} (hleft : (d.run s xs room).consumed < xs.length) {t : τ}
    (hrunning : (d.run s xs room).held.phase = .running t) : (d.run s xs room).held.pending ≠ [] := by
  induction s, xs, room using d.run_cases with
  | stops s xs room hrun hfull =>
    rw [hrun] at hleft hrunning ⊢
    have hlt := hfull (List.ne_nil_of_length_pos (Nat.lt_of_le_of_lt (Nat.zero_le _) hleft)) t hrunning
    exact fun hnil => Nat.not_le_of_lt hlt (List.drop_eq_nil_iff.1 hnil)
  | takes pending t' x xs room hroom ih =>
    rw [run_fits d hroom] at hleft hrunning ⊢
    exact ih (Nat.lt_of_succ_lt_succ hleft) hrunning

theorem run_of_consumed_eq_zero {s : Held τ ο ε} {xs : List ι} {room : Nat} (hzero : (d.run s xs room).consumed = 0) :
    d.run s xs room = stop s room := by
  induction s, xs, room using d.run_cases with
  | stops s xs room hrun _ => exact hrun
  | takes pending t x xs room hroom ih =>
    rw [run_fits d hroom] at hzero
    cases hzero

theorem consumed_eq_length_iff {s : Held τ ο ε} {xs : List ι} {room : Nat} (htaken : (d.feed s xs).2 = []) :
    (d.run s xs room).consumed = xs.length ↔ xs = [] ∨ (d.feed s xs.dropLast).1.pending.length ≤ room := by
  induction s, xs, room using d.run_cases with
  | stops s xs room hrun hfull =>
    rw [hrun]
    show 0 = xs.length ↔ _
    cases xs with
    | nil => simp
    | cons x xs =>
      obtain ⟨pending, phase⟩ := s
      cases phase with
      | running t =>
        have hlt := hfull (List.cons_ne_nil x xs) t rfl
        have hle := d.le_length_feed ⟨pending, .running t⟩ (x :: xs).dropLast
        refine ⟨(fun h => nomatch h), fun h => ?_⟩
        obtain h | h := h
        · cases h
        · exact absurd (Nat.le_trans hle h) (Nat.not_le_of_lt hlt)
      | ended => cases htaken
      | failed e => cases htaken
  | takes pending t x xs room hroom ih =>
    rw [feed_running] at htaken
    rw [run_fits d hroom]
    cases xs with
    | nil => exact ⟨fun _ => .inr hroom, fun _ => congrArg (· + 1) ((ih htaken).2 (.inl rfl))⟩
    | cons y ys =>
      have hrec := ih htaken
      rw [List.dropLast_cons_cons, feed_running, List.length_append]
      simp only [List.cons_ne_nil, false_or, List.length_cons, Nat.add_right_cancel_iff] at hrec ⊢
      rw [hrec]
      omega

end Decoder

end Raster.Lib
