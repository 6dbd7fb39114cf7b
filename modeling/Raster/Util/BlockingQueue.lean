import Raster.Lib.Machine
import Raster.Lib.Tally

/-!
# `GenericBlockingQueue`

`raster/util/BlockingQueue.h`: a queue behind a lock and a semaphore that counts what was added. `take` removes an item
without taking a token and waits for a token without holding the lock, so a thread that was woken may find the queue
empty, and the semaphore may have tokens for items that are gone.

`BlockingQueue` has the sections under the lock as its steps, `QueueThreads` the single operations of each thread, and
`QueueThreads.abs` shows the second machine as the first: the token of an item that was pushed is counted from the push
on. What is never lost is that there is for each item in the queue a token or a thread that was woken and has not
looked yet.
-/

namespace Raster

variable {α : Type}

/-! ### Sections under the lock -/

/-- Where a thread is, between the sections. -/
inductive QueuePlace
  /-- Not in `take`. -/
  | idle
  /-- In `take`, before the section that looks into the queue, for the first time or after `sem_wait`. -/
  | looking (woken : Bool)
  /-- In `sem_wait`. -/
  | waiting
  deriving DecidableEq, Repr

structure BlockingQueue (α : Type) where
  queue : List α := []
  sem : Nat := 0
  threads : Nat → QueuePlace := fun _ => .idle
  /-- The items of all calls of `add`, and those that `take` has removed, in order. -/
  added : List α := []
  taken : List α := []

namespace BlockingQueue

inductive Label (α : Type)
  /-- `add`. -/
  | add (t : Nat) (item : α)
  /-- A call of `take`. -/
  | take (t : Nat)
  /-- The section of `take`. -/
  | look (t : Nat)
  /-- The return of `sem_wait`. -/
  | wake (t : Nat)

def move (s : BlockingQueue α) (t : Nat) (place : QueuePlace) : BlockingQueue α :=
  { s with threads := Function.update s.threads t place }

/-- The steps of `n` threads. -/
def step (n : Nat) (s : BlockingQueue α) : Label α → Option (BlockingQueue α)
  | .add t item =>
    if t < n ∧ s.threads t = .idle then
      some { s with queue := s.queue ++ [item], sem := s.sem + 1, added := s.added ++ [item] }
    else none
  | .take t => if t < n ∧ s.threads t = .idle then some (s.move t (.looking false)) else none
  | .look t =>
    if t < n then
      match s.threads t, s.queue with
      | .looking _, item :: queue => some { s.move t .idle with queue, taken := s.taken ++ [item] }
      | .looking _, [] => some (s.move t .waiting)
      | _, _ => none
    else none
  | .wake t =>
    if t < n ∧ s.threads t = .waiting ∧ 0 < s.sem then some { s.move t (.looking true) with sem := s.sem - 1 } else none

/-- A thread that was woken and has not looked. -/
def woken : QueuePlace → Nat
  | .looking true => 1
  | _ => 0

/-- What was added is what was taken and then what is in the queue; each item in it has a token or a thread. -/
structure Inv (n : Nat) (s : BlockingQueue α) : Prop where
  order : s.taken ++ s.queue = s.added
  tokens : s.queue.length ≤ s.sem + Lib.tally n s.threads woken

theorem inv_init (n : Nat) : Inv n ({} : BlockingQueue α) := ⟨rfl, Nat.zero_le _⟩

theorem tally_move (s : BlockingQueue α) {n t : Nat} (ht : t < n) (place : QueuePlace) :
    Lib.tally n (s.move t place).threads woken + woken (s.threads t) = Lib.tally n s.threads woken + woken place :=
  Lib.tally_update ht place

theorem step_inv {n : Nat} {s s' : BlockingQueue α} {l : Label α} (h : s.Inv n) (hstep : s.step n l = some s') :
    s'.Inv n := by
  have horder := h.order
  have htokens := h.tokens
  cases l with
  | add t item =>
    simp only [step] at hstep
    split_ifs at hstep with hen
    cases hstep
    refine ⟨?_, ?_⟩
    · rw [← List.append_assoc, horder]
    · show (s.queue ++ [item]).length ≤ s.sem + 1 + Lib.tally n s.threads woken
      rw [List.length_append, List.length_singleton]
      omega
  | take t =>
    simp only [step] at hstep
    split_ifs at hstep with hen
    cases hstep
    have hmove := s.tally_move hen.1 (.looking false)
    rw [hen.2] at hmove
    exact ⟨horder, htokens.trans (Nat.le_of_eq (congrArg (s.sem + ·) hmove.symm))⟩
  | look t =>
    simp only [step] at hstep
    split_ifs at hstep with hen
    split at hstep
    · rename_i first item queue hplace hqueue
      cases hstep
      have hmove := s.tally_move hen .idle
      have hle : woken (s.threads t) ≤ 1 := by
        rw [hplace]
        cases first <;> decide
      have hidle : woken .idle = 0 := rfl
      rw [hqueue] at horder htokens
      refine ⟨?_, ?_⟩
      · rw [List.append_assoc, List.singleton_append]
        exact horder
      · show queue.length ≤ s.sem + Lib.tally n (s.move t .idle).threads woken
        rw [List.length_cons] at htokens
        omega
    · rename_i first hplace hqueue
      cases hstep
      refine ⟨horder, ?_⟩
      show s.queue.length ≤ _
      rw [hqueue]
      exact Nat.zero_le _
    · cases hstep
  | wake t =>
    simp only [step] at hstep
    split_ifs at hstep with hen
    cases hstep
    obtain ⟨ht, hplace, hsem⟩ := hen
    have hmove := s.tally_move ht (.looking true)
    rw [hplace] at hmove
    have hone : woken (.looking true) = 1 := rfl
    have hzero : woken .waiting = 0 := rfl
    refine ⟨horder, ?_⟩
    show s.queue.length ≤ s.sem - 1 + Lib.tally n (s.move t (.looking true)).threads woken
    omega

theorem run_inv {n : Nat} {ls : List (Label α)} {s : BlockingQueue α} (hrun : Lib.run (step n) {} ls = some s) :
    s.Inv n :=
  Lib.run_invariant (fun _ _ _ hinv hstep => step_inv hinv hstep) (inv_init n) hrun

/-- There is an item and no token, and each thread in `take` is in `sem_wait`. -/
def Stranded (n : Nat) (s : BlockingQueue α) : Prop :=
  s.queue ≠ [] ∧ s.sem = 0 ∧ ∀ t < n, s.threads t ≠ .idle → s.threads t = .waiting

theorem Inv.not_stranded {n : Nat} {s : BlockingQueue α} (h : s.Inv n) : ¬ s.Stranded n := by
  rintro ⟨hqueue, hsem, hwaiting⟩
  have htokens := h.tokens
  have hpos : 0 < s.queue.length := List.length_pos_iff.mpr hqueue
  obtain ⟨t, ht, hwoken⟩ := Lib.exists_of_tally_pos (show 0 < Lib.tally n s.threads woken by omega)
  have hplace : s.threads t ≠ .idle := fun hidle => by
    rw [hidle] at hwoken
    exact absurd hwoken (by decide)
  rw [hwaiting t ht hplace] at hwoken
  exact absurd hwoken (by decide)

end BlockingQueue

/-! ### The single operations -/

/-- The next operation of a thread. -/
inductive QueueOp (α : Type)
  | idle
  /-- `add`: the lock, `queue_.push`, `sem_.post` and the end of the section. -/
  | lockAdd (item : α)
  | push (item : α)
  | post
  | unlockAdd
  /-- `take`: the lock, `queue_.size() > 0`, `queue_.pop` and the end of the section with an item or without. -/
  | lockTake (woken : Bool)
  | test (woken : Bool)
  | pop (woken : Bool)
  | unlockItem
  | unlockEmpty
  /-- `sem_.wait`. -/
  | wait
  deriving DecidableEq, Repr

structure QueueThreads (α : Type) where
  queue : List α := []
  sem : Nat := 0
  /-- The thread that has the lock. -/
  lock : Option Nat := none
  ops : Nat → QueueOp α := fun _ => .idle
  added : List α := []
  taken : List α := []

namespace QueueThreads

inductive Label (α : Type)
  /-- A call of `add` or `take`. -/
  | add (t : Nat) (item : α)
  | take (t : Nat)
  /-- The next operation of the thread. -/
  | go (t : Nat)

def move (s : QueueThreads α) (t : Nat) (op : QueueOp α) : QueueThreads α :=
  { s with ops := Function.update s.ops t op }

theorem move_self {s : QueueThreads α} {t : Nat} {op : QueueOp α} : (s.move t op).ops t = op := Function.update_self ..

theorem move_of_ne {s : QueueThreads α} {t u : Nat} {op : QueueOp α} (h : u ≠ t) : (s.move t op).ops u = s.ops u :=
  Function.update_of_ne h ..

/-- `lock_guard`, when the lock is free. -/
def acquire (s : QueueThreads α) (t : Nat) (op : QueueOp α) : Option (QueueThreads α) :=
  if s.lock = none then some { s.move t op with lock := some t } else none

def release (s : QueueThreads α) (t : Nat) (op : QueueOp α) : QueueThreads α := { s.move t op with lock := none }

/-- One operation; `none` for one that blocks, and for `pop` on an empty queue. -/
def go (s : QueueThreads α) (t : Nat) : Option (QueueThreads α) :=
  match s.ops t with
  | .idle => none
  | .lockAdd item => s.acquire t (.push item)
  | .push item => some { s.move t .post with queue := s.queue ++ [item], added := s.added ++ [item] }
  | .post => some { s.move t .unlockAdd with sem := s.sem + 1 }
  | .unlockAdd => some (s.release t .idle)
  | .lockTake woken => s.acquire t (.test woken)
  | .test woken => if 0 < s.queue.length then some (s.move t (.pop woken)) else some (s.move t .unlockEmpty)
  | .pop _ =>
    match s.queue with
    | [] => none
    | item :: queue => some { s.move t .unlockItem with queue, taken := s.taken ++ [item] }
  | .unlockItem => some (s.release t .idle)
  | .unlockEmpty => some (s.release t .wait)
  | .wait => if 0 < s.sem then some { s.move t (.lockTake true) with sem := s.sem - 1 } else none

/-- The steps of `n` threads. -/
def step (n : Nat) (s : QueueThreads α) : Label α → Option (QueueThreads α)
  | .add t item => if t < n ∧ (s.ops t matches .idle) then some (s.move t (.lockAdd item)) else none
  | .take t => if t < n ∧ (s.ops t matches .idle) then some (s.move t (.lockTake false)) else none
  | .go t => if t < n then s.go t else none

/-! #### As sections -/

/-- The place of a thread between sections: a section has happened once its push, its pop or its test of an empty queue
has. -/
def place : QueueOp α → QueuePlace
  | .lockTake woken | .test woken | .pop woken => .looking woken
  | .unlockEmpty | .wait => .waiting
  | _ => .idle

/-- A token that is still to be posted. -/
def unposted : QueueOp α → Nat
  | .post => 1
  | _ => 0

/-- The state as one between sections. -/
def abs (n : Nat) (s : QueueThreads α) : BlockingQueue α where
  queue := s.queue
  sem := s.sem + Lib.tally n s.ops unposted
  threads t := place (s.ops t)
  added := s.added
  taken := s.taken

theorem tally_move (s : QueueThreads α) {n t : Nat} (ht : t < n) (op : QueueOp α) :
    Lib.tally n (s.move t op).ops unposted + unposted (s.ops t) = Lib.tally n s.ops unposted + unposted op :=
  Lib.tally_update ht op

theorem place_move (s : QueueThreads α) (t : Nat) (op : QueueOp α) :
    (fun u => place ((s.move t op).ops u)) = Function.update (fun u => place (s.ops u)) t (place op) := by
  funext u
  by_cases hu : u = t
  · subst hu
    simp only [move_self, Function.update_self]
  · simp only [move_of_ne hu, Function.update_of_ne hu]

theorem abs_move {n t : Nat} (ht : t < n) {s s' : QueueThreads α} {o : QueueOp α} (hops : s'.ops = (s.move t o).ops) :
    s'.abs n = { s.abs n with
      queue := s'.queue
      sem := s'.sem + (Lib.tally n s.ops unposted + unposted o - unposted (s.ops t))
      threads := Function.update (fun u => place (s.ops u)) t (place o)
      added := s'.added
      taken := s'.taken } := by
  have htally := s.tally_move ht o
  have hsem : Lib.tally n s'.ops unposted = Lib.tally n s.ops unposted + unposted o - unposted (s.ops t) := by
    rw [hops]
    omega
  have hplace := s.place_move t o
  rw [← hops] at hplace
  simp only [abs, hsem, hplace]

theorem abs_silent {n t : Nat} (ht : t < n) {s s' : QueueThreads α} {o : QueueOp α} (hops : s'.ops = (s.move t o).ops)
    (hqueue : s'.queue = s.queue) (hadded : s'.added = s.added) (htaken : s'.taken = s.taken)
    (hplace : place o = place (s.ops t)) (hsem : s'.sem + unposted o = s.sem + unposted (s.ops t)) :
    s'.abs n = s.abs n := by
  have hle : unposted (s.ops t) ≤ Lib.tally n s.ops unposted := Lib.le_tally ht
  have hsame : Function.update (fun u => place (s.ops u)) t (place o) = fun u => place (s.ops u) := by
    rw [hplace]
    exact Function.update_eq_self t _
  have htokens : s'.sem + (Lib.tally n s.ops unposted + unposted o - unposted (s.ops t)) =
      s.sem + Lib.tally n s.ops unposted := by omega
  rw [abs_move ht hops, hqueue, hadded, htaken, hsame, htokens]
  rfl

theorem go_abs {n t : Nat} (ht : t < n) {s s' : QueueThreads α} (hgo : s.go t = some s') :
    s'.abs n = s.abs n ∨ ∃ l, (s.abs n).step n l = some (s'.abs n) := by
  cases hop : s.ops t with
  | idle =>
    simp only [go, hop] at hgo
    cases hgo
  | lockAdd item =>
    simp only [go, hop, acquire] at hgo
    split_ifs at hgo
    cases hgo
    exact Or.inl (abs_silent ht (o := .push item) rfl rfl rfl rfl (by rw [hop]; rfl) (by rw [hop]; rfl))
  | push item =>
    simp only [go, hop, Option.some.injEq] at hgo
    have hops : s'.ops = (s.move t .post).ops := by rw [← hgo]
    refine Or.inr ⟨.add t item, ?_⟩
    have hidle : (s.abs n).threads t = .idle := congrArg place hop
    have hsame : Function.update (fun u => place (s.ops u)) t .idle = fun u => place (s.ops u) := by
      rw [← hidle]
      exact Function.update_eq_self t _
    have hpost : place (.post : QueueOp α) = .idle := rfl
    rw [BlockingQueue.step, if_pos ⟨ht, hidle⟩, abs_move ht hops, hop, hpost, hsame, ← hgo]
    rfl
  | post =>
    simp only [go, hop] at hgo
    cases hgo
    exact Or.inl (abs_silent ht (o := .unlockAdd) rfl rfl rfl rfl (by rw [hop]; rfl) (by rw [hop]; rfl))
  | unlockAdd =>
    simp only [go, hop] at hgo
    cases hgo
    exact Or.inl (abs_silent ht (o := .idle) rfl rfl rfl rfl (by rw [hop]; rfl) (by rw [hop]; rfl))
  | lockTake woken =>
    simp only [go, hop, acquire] at hgo
    split_ifs at hgo
    cases hgo
    exact Or.inl (abs_silent ht (o := .test woken) rfl rfl rfl rfl (by rw [hop]; rfl) (by rw [hop]; rfl))
  | test woken =>
    simp only [go, hop] at hgo
    split_ifs at hgo with hlength
    · cases hgo
      exact Or.inl (abs_silent ht (o := .pop woken) rfl rfl rfl rfl (by rw [hop]; rfl) (by rw [hop]; rfl))
    · cases hgo
      refine Or.inr ⟨.look t, ?_⟩
      have hlooking : (s.abs n).threads t = .looking woken := congrArg place hop
      have hempty : (s.abs n).queue = [] := List.length_eq_zero_iff.mp (Nat.eq_zero_of_not_pos hlength)
      simp only [BlockingQueue.step, if_pos ht, hlooking, hempty, abs_move ht (o := .unlockEmpty) (s := s) rfl, hop]
      rfl
  | pop woken =>
    simp only [go, hop] at hgo
    split at hgo
    · cases hgo
    · rename_i item queue hqueue
      rw [Option.some.injEq] at hgo
      have hops : s'.ops = (s.move t .unlockItem).ops := by rw [← hgo]
      refine Or.inr ⟨.look t, ?_⟩
      have hlooking : (s.abs n).threads t = .looking woken := congrArg place hop
      have hitems : (s.abs n).queue = item :: queue := hqueue
      simp only [BlockingQueue.step, if_pos ht, hlooking, hitems]
      rw [abs_move ht hops, hop, ← hgo]
      rfl
  | unlockItem =>
    simp only [go, hop] at hgo
    cases hgo
    exact Or.inl (abs_silent ht (o := .idle) rfl rfl rfl rfl (by rw [hop]; rfl) (by rw [hop]; rfl))
  | unlockEmpty =>
    simp only [go, hop] at hgo
    cases hgo
    exact Or.inl (abs_silent ht (o := .wait) rfl rfl rfl rfl (by rw [hop]; rfl) (by rw [hop]; rfl))
  | wait =>
    simp only [go, hop] at hgo
    split_ifs at hgo with hsem
    rw [Option.some.injEq] at hgo
    have hops : s'.ops = (s.move t (.lockTake true)).ops := by rw [← hgo]
    refine Or.inr ⟨.wake t, ?_⟩
    have hwaiting : (s.abs n).threads t = .waiting := congrArg place hop
    have hpos : 0 < (s.abs n).sem := Nat.add_pos_left hsem _
    have htokens : s.sem + Lib.tally n s.ops unposted - 1 = s.sem - 1 + Lib.tally n s.ops unposted := by omega
    rw [BlockingQueue.step, if_pos ⟨ht, hwaiting, hpos⟩, abs_move ht hops, hop]
    simp only [abs, BlockingQueue.move, htokens, place, unposted, Nat.add_zero, Nat.sub_zero, ← hgo]
    rfl

theorem step_abs {n : Nat} {s s' : QueueThreads α} {l : Label α} (hstep : s.step n l = some s') :
    s'.abs n = s.abs n ∨ ∃ l, (s.abs n).step n l = some (s'.abs n) := by
  cases l with
  | add t item =>
    simp only [step] at hstep
    split_ifs at hstep with hen
    cases hstep
    have hop : s.ops t = .idle := by
      cases h : s.ops t <;> simp_all
    exact Or.inl (abs_silent hen.1 (o := .lockAdd item) rfl rfl rfl rfl (by rw [hop]; rfl) (by rw [hop]; rfl))
  | take t =>
    simp only [step] at hstep
    split_ifs at hstep with hen
    cases hstep
    have hop : s.ops t = .idle := by
      cases h : s.ops t <;> simp_all
    refine Or.inr ⟨.take t, ?_⟩
    have hidle : (s.abs n).threads t = .idle := congrArg place hop
    rw [BlockingQueue.step, if_pos ⟨hen.1, hidle⟩, abs_move hen.1 (o := .lockTake false) rfl, hop]
    rfl
  | go t =>
    simp only [step] at hstep
    split_ifs at hstep with ht
    exact go_abs ht hstep

theorem abs_init (n : Nat) : ({} : QueueThreads α).abs n = {} := by
  have hzero : Lib.tally n (fun _ => (.idle : QueueOp α)) unposted = 0 := Lib.tally_eq_zero fun _ _ => rfl
  simp only [abs, hzero]
  rfl

theorem run_abs {n : Nat} {ls : List (Label α)} {s : QueueThreads α} (hrun : Lib.run (step n) {} ls = some s) :
    ∃ ls', Lib.run (BlockingQueue.step n) {} ls' = some (s.abs n) := by
  rw [← abs_init n]
  exact Lib.run_simulation (fun _ _ _ hstep => step_abs hstep) hrun

/-! #### The lock -/

/-- The operations under the lock. -/
def critical : QueueOp α → Bool
  | .idle | .lockAdd _ | .lockTake _ | .wait => false
  | _ => true

/-- Only the thread that has the lock is in a section, and what it has seen in the queue is there. -/
structure Locked (s : QueueThreads α) : Prop where
  lock : ∀ t, critical (s.ops t) = true → s.lock = some t
  item : ∀ t woken, s.ops t = .pop woken → s.queue ≠ []

theorem locked_init : ({} : QueueThreads α).Locked := ⟨nofun, nofun⟩

section Locked

variable {s s' : QueueThreads α} {t : Nat} {o : QueueOp α}

theorem Locked.outside (h : s.Locked) (hops : s'.ops = (s.move t o).ops) (hop : critical o = false)
    (hlock : s'.lock = s.lock) (hqueue : s'.queue = s.queue) : s'.Locked := by
  refine ⟨fun u hu => ?_, fun u woken hu => ?_⟩
  · rw [hops] at hu
    by_cases htu : u = t
    · subst htu
      rw [move_self, hop] at hu
      cases hu
    · rw [move_of_ne htu] at hu
      rw [hlock, h.lock u hu]
  · rw [hops] at hu
    by_cases htu : u = t
    · subst htu
      rw [move_self] at hu
      rw [hu] at hop
      cases hop
    · rw [move_of_ne htu] at hu
      rw [hqueue]
      exact h.item u woken hu

theorem Locked.inside (h : s.Locked) (hmine : ∀ u, s.lock = some u → u = t) (hops : s'.ops = (s.move t o).ops)
    (hlock : critical o = true → s'.lock = some t) (hitem : ∀ woken, o = .pop woken → s'.queue ≠ []) : s'.Locked := by
  have hother : ∀ u, u ≠ t → critical (s.ops u) = false := by
    intro u hu
    by_contra hcritical
    exact hu (hmine u (h.lock u (Bool.not_eq_false _ ▸ hcritical)))
  refine ⟨fun u hu => ?_, fun u woken hu => ?_⟩
  · rw [hops] at hu
    by_cases htu : u = t
    · subst htu
      rw [move_self] at hu
      exact hlock hu
    · rw [move_of_ne htu, hother u htu] at hu
      cases hu
  · rw [hops] at hu
    by_cases htu : u = t
    · subst htu
      rw [move_self] at hu
      exact hitem woken hu
    · rw [move_of_ne htu] at hu
      have hnot := hother u htu
      rw [hu] at hnot
      cases hnot

theorem Locked.acquire (h : s.Locked) (hop : ∀ woken, o ≠ .pop woken) (hstep : s.acquire t o = some s') : s'.Locked := by
  unfold QueueThreads.acquire at hstep
  split_ifs at hstep with hfree
  cases hstep
  refine h.inside (fun u hu => ?_) rfl (fun _ => rfl) fun woken hpop => absurd hpop (hop woken)
  rw [hfree] at hu
  cases hu

theorem Locked.go (h : s.Locked) (hgo : s.go t = some s') : s'.Locked := by
  have hmine : critical (s.ops t) = true → ∀ u, s.lock = some u → u = t := by
    intro hcritical u hu
    rw [h.lock t hcritical] at hu
    exact (Option.some.inj hu).symm
  have hhas := h.lock t
  cases hop : s.ops t with
  | idle =>
    simp only [QueueThreads.go, hop] at hgo
    cases hgo
  | lockAdd item =>
    simp only [QueueThreads.go, hop] at hgo
    exact h.acquire (o := .push item) nofun hgo
  | push item =>
    simp only [QueueThreads.go, hop] at hgo
    cases hgo
    rw [hop] at hmine hhas
    exact h.inside (hmine rfl) rfl (fun _ => hhas rfl) nofun
  | post =>
    simp only [QueueThreads.go, hop] at hgo
    cases hgo
    rw [hop] at hmine hhas
    exact h.inside (hmine rfl) rfl (fun _ => hhas rfl) nofun
  | unlockAdd =>
    simp only [QueueThreads.go, hop] at hgo
    cases hgo
    rw [hop] at hmine
    exact h.inside (hmine rfl) rfl nofun nofun
  | lockTake woken =>
    simp only [QueueThreads.go, hop] at hgo
    exact h.acquire (o := .test woken) nofun hgo
  | test woken =>
    simp only [QueueThreads.go, hop] at hgo
    rw [hop] at hmine hhas
    split_ifs at hgo with hlength
    · cases hgo
      exact h.inside (hmine rfl) rfl (fun _ => hhas rfl) fun _ _ => List.length_pos_iff.mp hlength
    · cases hgo
      exact h.inside (hmine rfl) rfl (fun _ => hhas rfl) nofun
  | pop woken =>
    simp only [QueueThreads.go, hop] at hgo
    rw [hop] at hmine hhas
    split at hgo
    · cases hgo
    · cases hgo
      exact h.inside (hmine rfl) rfl (fun _ => hhas rfl) nofun
  | unlockItem =>
    simp only [QueueThreads.go, hop] at hgo
    cases hgo
    rw [hop] at hmine
    exact h.inside (hmine rfl) rfl nofun nofun
  | unlockEmpty =>
    simp only [QueueThreads.go, hop] at hgo
    cases hgo
    rw [hop] at hmine
    exact h.inside (hmine rfl) rfl nofun nofun
  | wait =>
    simp only [QueueThreads.go, hop] at hgo
    split_ifs at hgo
    cases hgo
    exact h.outside rfl rfl rfl rfl

theorem Locked.step {n : Nat} {l : Label α} (h : s.Locked) (hstep : s.step n l = some s') : s'.Locked := by
  cases l with
  | add t item =>
    simp only [QueueThreads.step] at hstep
    split_ifs at hstep
    cases hstep
    exact h.outside rfl rfl rfl rfl
  | take t =>
    simp only [QueueThreads.step] at hstep
    split_ifs at hstep
    cases hstep
    exact h.outside rfl rfl rfl rfl
  | go t =>
    simp only [QueueThreads.step] at hstep
    split_ifs at hstep
    exact h.go hstep

end Locked

theorem run_locked {n : Nat} {ls : List (Label α)} {s : QueueThreads α} (hrun : Lib.run (step n) {} ls = some s) :
    s.Locked :=
  Lib.run_invariant (fun _ _ _ h hstep => h.step hstep) locked_init hrun

/-- A thread is in a call of `take`. -/
def inTake : QueueOp α → Bool
  | .lockTake _ | .test _ | .pop _ | .unlockItem | .unlockEmpty | .wait => true
  | _ => false

/-- There is an item and no token, and each thread in `take` is in `sem_wait`. -/
def Stranded (n : Nat) (s : QueueThreads α) : Prop :=
  s.queue ≠ [] ∧ s.sem = 0 ∧ ∀ t < n, inTake (s.ops t) = true → s.ops t = .wait

theorem Stranded.abs {n : Nat} {s : QueueThreads α} (h : s.Stranded n) (hpost : ∀ t < n, s.ops t ≠ .post) :
    (s.abs n).Stranded n := by
  obtain ⟨hqueue, hsem, hwait⟩ := h
  refine ⟨hqueue, ?_, fun t ht hplace => ?_⟩
  · have hzero : Lib.tally n s.ops unposted = 0 := Lib.tally_eq_zero fun t ht => by
      have hne := hpost t ht
      cases hop : s.ops t <;> first | rfl | exact absurd hop hne
    show s.sem + Lib.tally n s.ops unposted = 0
    omega
  · have hin : inTake (s.ops t) = true := by
      have hne : place (s.ops t) ≠ .idle := hplace
      cases hop : s.ops t <;> first | rfl | (rw [hop] at hne; exact absurd rfl hne)
    show place (s.ops t) = .waiting
    rw [hwait t ht hin]
    rfl

end QueueThreads

/-- **The queue loses neither items nor wakeups**, for any number of threads in any interleaving. With the
sections under the lock as steps: what was added is what was taken, in order, and then what is in the queue, and
there is never an item without a token when all threads in `take` wait. With the single operations as steps it
is the same, but for the moment between the push and the post of a section; and a thread that has seen an item
in the queue finds one. -/
theorem BlockingQueue.loses_nothing (n : Nat) :
    (∀ (ls : List (Label α)) (s : BlockingQueue α), Lib.run (step n) {} ls = some s →
      s.taken ++ s.queue = s.added ∧ ¬ s.Stranded n) ∧
    ∀ (ls : List (QueueThreads.Label α)) (s : QueueThreads α), Lib.run (QueueThreads.step n) {} ls = some s →
      s.taken ++ s.queue = s.added ∧ ((∀ t < n, s.ops t ≠ .post) → ¬ s.Stranded n) ∧
      ∀ t woken, s.ops t = .pop woken → s.queue ≠ [] := by
  refine ⟨fun ls s hrun => ⟨(run_inv hrun).order, (run_inv hrun).not_stranded⟩, fun ls s hrun => ?_⟩
  obtain ⟨ls', hrun'⟩ := QueueThreads.run_abs hrun
  have hinv := run_inv hrun'
  exact ⟨hinv.order, fun hpost hstranded => hinv.not_stranded (hstranded.abs hpost), (QueueThreads.run_locked hrun).item⟩

/-- A thread that waits, an item, and another thread that takes it before the first one is woken. -/
theorem BlockingQueue.loses_nothing_stolen :
    ∃ s : BlockingQueue Nat, Lib.run (step 2) {} [.take 0, .look 0, .add 1 7, .take 1, .look 1, .wake 0] = some s ∧
      s.taken = [7] ∧ s.taken ++ s.queue = s.added ∧ ¬ s.Stranded 2 := by
  obtain ⟨s, hrun⟩ : ∃ s : BlockingQueue Nat,
      Lib.run (step 2) {} [.take 0, .look 0, .add 1 7, .take 1, .look 1, .wake 0] = some s ∧ s.taken = [7] := ⟨_, rfl, rfl⟩
  exact ⟨s, hrun.1, hrun.2, (loses_nothing 2).1 _ s hrun.1⟩

end Raster
