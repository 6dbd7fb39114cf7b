import Mathlib.Data.List.Basic

/-!
# Readers

A reader takes symbols off the front of its input, or throws. `Reads p written a rest` says what a round
trip needs of a reader: on `written`, with `rest` behind it, it returns `a` and leaves `rest`. Readers in
sequence read what was written in sequence.
-/

namespace Raster.Lib

universe u

abbrev Reader (ε β α : Type u) := StateT (List β) (Except ε) α

variable {ε β α γ : Type u}

/-- The first `n` symbols of the input. -/
def Reader.take (n : Nat) (error : ε) : Reader ε β (List β) := fun input =>
  if n ≤ input.length then .ok (input.take n, input.drop n) else .error error

/-- The first symbol, and `eof` at the end of the input. -/
def Reader.get (eof : β) : Reader ε β β := fun input =>
  match input with
  | [] => .ok (eof, [])
  | b :: rest => .ok (b, rest)

theorem Reader.bind_eq_ok {p : Reader ε β α} {f : α → Reader ε β γ} {c : γ} {input rest : List β} :
    (p >>= f) input = .ok (c, rest) ↔ ∃ a mid, p input = .ok (a, mid) ∧ f a mid = .ok (c, rest) := by
  show (p input).bind (fun r => f r.1 r.2) = _ ↔ _
  cases p input with
  | error e => simp [Except.bind]
  | ok r =>
    obtain ⟨a, mid⟩ := r
    simp [Except.bind]

theorem Reader.pure_eq_ok {a c : α} {input rest : List β} :
    (Pure.pure a : Reader ε β α) input = .ok (c, rest) ↔ a = c ∧ input = rest := by
  show Except.ok (a, input) = Except.ok (c, rest) ↔ _
  rw [Except.ok.injEq, Prod.mk.injEq]

def Reads (p : Reader ε β α) (written : List β) (a : α) (rest : List β) : Prop := p (written ++ rest) = .ok (a, rest)

namespace Reads

variable {p : Reader ε β α} {f : α → Reader ε β γ} {a : α} {c : γ} {written written' rest : List β}

theorem pure (a : α) (rest : List β) : Reads (Pure.pure a : Reader ε β α) [] a rest := rfl

theorem bind (hp : Reads p written a (written' ++ rest)) (hf : Reads (f a) written' c rest) :
    Reads (p >>= f) (written ++ written') c rest := by
  unfold Reads at *
  rw [List.append_assoc]
  show (p (written ++ (written' ++ rest))).bind (fun r => f r.1 r.2) = _
  rw [hp]
  exact hf

theorem map (hp : Reads p written a rest) (g : α → γ) : Reads (p >>= fun a => Pure.pure (g a)) written (g a) rest := by
  have h : Reads (p >>= fun a => Pure.pure (g a)) (written ++ []) (g a) rest :=
    bind (by simpa using hp) (pure (g a) rest)
  rwa [List.append_nil] at h

theorem take {n : Nat} (error : ε) (hn : written.length = n) (rest : List β) :
    Reads (Reader.take n error) written written rest := by
  subst hn
  rw [Reads, Reader.take, if_pos (by simp), List.take_left, List.drop_left]

theorem get (eof b : β) (rest : List β) : Reads (Reader.get eof : Reader ε β β) [b] b rest := rfl

theorem at_end (h : Reads p written a []) : p written = .ok (a, []) := by
  rwa [Reads, List.append_nil] at h

end Reads

end Raster.Lib
