import Mathlib.Algebra.Group.Nat.Defs
import Mathlib.Algebra.GroupWithZero.Nat
import Mathlib.Data.List.Flatten
import Mathlib.Data.List.Perm.Subperm
import Mathlib.Data.Option.Basic
import Raster.Lib.Machine
import Raster.Lib.Ring

/-!
# The links of `IOBuf`s

`raster/io/IOBuf.h` and `IOBuf.cpp`: the `IOBuf`s of a chain form a ring through `next_` and `prev_`, and a `unique_ptr` owns it by one
of them, its head. `exec` writes the pointers as the source does; the loops of the destructor and of the functions that go around
a ring have `fuel`. `OwnedChains` says what the operations are for: lists of `IOBuf`s, from the head on, and who may call them.

After every run of the lists the pointers form exactly these rings, and the loops come to their ends.
-/

namespace Raster

open Lib

/-- What is called on the `IOBuf`s, which are named by numbers. -/
inductive LinkOp
  | create
  | prependChain (this other : Nat)
  | appendChain (this other : Nat)
  | unlink (this : Nat)
  | pop (this : Nat)
  | separateChain (this head tail : Nat)
  /-- `operator=(IOBuf&& other)`. -/
  | moveAssign (this other : Nat)
  /-- `delete`. -/
  | destroy (this : Nat)
  deriving DecidableEq, Repr

/-! ### The pointers -/

namespace IOBufLinks

def prependChain (l : Links Nat) (this other : Nat) : Links Nat :=
  let otherTail := l.prev other
  let l := l.setNext (l.prev this) other
  let l := l.setPrev other (l.prev this)
  let l := l.setNext otherTail this
  l.setPrev this otherTail

def unlink (l : Links Nat) (this : Nat) : Links Nat :=
  let l := l.setPrev (l.next this) (l.prev this)
  let l := l.setNext (l.prev this) (l.next this)
  let l := l.setPrev this this
  l.setNext this this

def separateChain (l : Links Nat) (head tail : Nat) : Links Nat :=
  let l := l.setNext (l.prev head) (l.next tail)
  let l := l.setPrev (l.next tail) (l.prev head)
  let l := l.setPrev head tail
  l.setNext tail head

/-- `while (next_ != this) { (void)next_->unlink(); }`. -/
def unlinkOthers (this : Nat) : (fuel : Nat) → Links Nat → Option (Links Nat)
  | 0, _ => none
  | fuel + 1, l => if l.next this = this then some l else unlinkOthers this fuel (unlink l (l.next this))

/-- The rest of the move assignment, when `this` is alone. -/
def takeChain (l : Links Nat) (this other : Nat) : Links Nat :=
  if l.next other = other then l
  else
    let l := l.setNext this (l.next other)
    let l := l.setPrev (l.next this) this
    let l := l.setNext other other
    let l := l.setPrev this (l.prev other)
    let l := l.setNext (l.prev this) this
    l.setPrev other other

/-- The `IOBuf`s that were created are those below `fresh`, which bounds the turns of the loops. -/
structure IOBufHeap where
  links : Links Nat
  fresh : Nat

def exec (h : IOBufHeap) : LinkOp → Option IOBufHeap
  | .create => some { links := (h.links.setNext h.fresh h.fresh).setPrev h.fresh h.fresh, fresh := h.fresh + 1 }
  | .prependChain this other => some { h with links := prependChain h.links this other }
  | .appendChain this other => some { h with links := prependChain h.links (h.links.next this) other }
  | .unlink this => some { h with links := unlink h.links this }
  | .pop this => some { h with links := unlink h.links this }
  | .separateChain _ head tail => some { h with links := separateChain h.links head tail }
  | .moveAssign this other =>
    if this = other then some h
    else (unlinkOthers this h.fresh h.links).map fun links => { h with links := takeChain links this other }
  | .destroy this => (unlinkOthers this h.fresh h.links).map fun links => { h with links }

def countChainElements (fuel : Nat) (l : Links Nat) (this : Nat) : Option Nat :=
  (l.walk this fuel (l.next this)).map fun others => others.foldl (fun n _ => n + 1) 1

def computeChainDataLength (length : Nat → UInt64) (fuel : Nat) (l : Links Nat) (this : Nat) : Option UInt64 :=
  (l.walk this fuel (l.next this)).map fun others => others.foldl (fun fullLength current => fullLength + length current) (length this)

/-- The loop of `empty`, at `current`. -/
def emptyFrom (length : Nat → UInt64) (l : Links Nat) (this : Nat) : (fuel : Nat) → (current : Nat) → Option Bool
  | 0, _ => none
  | fuel + 1, current =>
    if length current ≠ 0 then some false
    else if l.next current = this then some true
    else emptyFrom length l this fuel (l.next current)

def empty (length : Nat → UInt64) (fuel : Nat) (l : Links Nat) (this : Nat) : Option Bool := emptyFrom length l this fuel this

end IOBufLinks

/-! ### The chains -/

/-- What the `unique_ptr`s own. -/
structure OwnedChains where
  chains : List (List Nat) := []
  fresh : Nat := 0
  deriving DecidableEq, Repr

namespace OwnedChains

def chainOf (s : OwnedChains) (x : Nat) : Option (List Nat) := s.chains.find? (x ∈ ·)

/-- The chain whose head is owned. -/
def ownedBy (s : OwnedChains) (x : Nat) : Option (List Nat) := s.chains.find? (·.head? = some x)

/-- What is owned instead of the chain, or of the two. -/
def replace (s : OwnedChains) (old new : List (List Nat)) : OwnedChains := { s with chains := new ++ s.chains.diff old }

/-- The nodes before `x`, and those from it on. -/
def before (x : Nat) (c : List Nat) : List Nat := c.takeWhile (· ≠ x)

def since (x : Nat) (c : List Nat) : List Nat := c.dropWhile (· ≠ x)

def step (s : OwnedChains) : LinkOp → Option OwnedChains
  | .create => some { chains := [s.fresh] :: s.chains, fresh := s.fresh + 1 }
  | .prependChain this other => do
    let c ← s.chainOf this
    let d ← s.ownedBy other
    guard (c ≠ d)
    -- before the head is at the end of the ring
    some (s.replace [c, d] [if before this c = [] then c ++ d else before this c ++ d ++ since this c])
  | .appendChain this other => do
    let c ← s.chainOf this
    let d ← s.ownedBy other
    guard (c ≠ d)
    some (s.replace [c, d] [before this c ++ this :: d ++ (since this c).tail])
  | .unlink this => do
    let c ← s.chainOf this
    guard (before this c ≠ [])
    some (s.replace [c] [before this c ++ (since this c).tail, [this]])
  | .pop this => do
    let c ← s.ownedBy this
    some (s.replace [c] (if c.tail = [] then [c] else [[this], c.tail]))
  | .separateChain this head tail => do
    let c ← s.chainOf this
    let us := before head c
    let ms := before tail (since head c) ++ [tail]
    let vs := c.drop (us ++ ms).length
    guard (us ≠ [] ∧ c = us ++ ms ++ vs ∧ ms.head? = some head ∧ this ∉ ms)
    some (s.replace [c] [us ++ vs, ms])
  | .moveAssign this other => do
    let c ← s.ownedBy this
    let d ← s.ownedBy other
    if this = other then some s
    else
      guard (c ≠ d)
      some (s.replace [c, d] [this :: d.tail, [other]])
  | .destroy this => do
    let c ← s.ownedBy this
    some (s.replace [c] [])

end OwnedChains

/-! ### The pointers form the chains -/

namespace IOBufLinks

variable {l : Links Nat} {this other head tail : Nat} {c d us ms vs : List Nat}

theorem prependChain_eq (l : Links Nat) (this other : Nat) :
    prependChain l this other = (l.join (l.prev this) other).join (l.prev other) this := rfl

theorem unlink_eq (l : Links Nat) (this : Nat) :
    unlink l this = (l.join (l.prev this) (l.next this)).join this this := by
  have hprev : (l.setPrev (l.next this) (l.prev this)).prev this = l.prev this := by
    show Function.update l.prev (l.next this) (l.prev this) this = l.prev this
    by_cases heq : this = l.next this
    · rw [← heq, Function.update_self]
    · rw [Function.update_of_ne heq]
  simp only [unlink, hprev]
  rfl

theorem separateChain_eq (l : Links Nat) (head tail : Nat) :
    separateChain l head tail = (l.join (l.prev head) (l.next tail)).join tail head := by
  have hnext : (l.setNext (l.prev head) (l.next tail)).next tail = l.next tail := by
    show Function.update l.next (l.prev head) (l.next tail) tail = l.next tail
    by_cases heq : tail = l.prev head
    · rw [← heq, Function.update_self]
    · rw [Function.update_of_ne heq]
  simp only [separateChain, hnext]
  rfl

theorem ring_prependChain (hc : l.Ring (this :: vs)) (hd : l.Ring d) (hother : other ∈ d.head?) (hdisjoint : (this :: vs).Disjoint d) :
    (prependChain l this other).Ring (this :: vs ++ d) ∧
      ∀ e, l.Ring e → e.Disjoint (this :: vs) → e.Disjoint d → (prependChain l this other).Ring e := by
  have hlast := hc.prev_head (x := this) rfl
  have htail := hd.prev_head hother
  rw [prependChain_eq]
  refine ⟨hc.splice hd hdisjoint hlast rfl htail hother, fun e he hec hed => ?_⟩
  refine (he.join (fun hmem => ?_) fun hmem => ?_).join (fun hmem => ?_) fun hmem => ?_
  · exact hec hmem (List.mem_of_getLast? hlast)
  · exact hed hmem (List.mem_of_mem_head? hother)
  · exact hed hmem (List.mem_of_getLast? htail)
  · exact hec hmem List.mem_cons_self

theorem ring_cut (hc : l.Ring (us ++ ms)) (hus : us ≠ []) (hhead : head ∈ ms.head?) (htail : tail ∈ ms.getLast?) :
    (((l.join (l.prev head) (l.next tail)).join tail head).Ring us ∧ ((l.join (l.prev head) (l.next tail)).join tail head).Ring ms) ∧
      ∀ e, l.Ring e → e.Disjoint (us ++ ms) → ((l.join (l.prev head) (l.next tail)).join tail head).Ring e := by
  have hms : ms ≠ [] := List.ne_nil_of_mem (List.mem_of_mem_head? hhead)
  have hprev : l.prev head ∈ us.getLast? := by
    have hlast := hc.rotate.prev_head (x := head) (by rw [List.head?_append_of_ne_nil _ hms]; exact hhead)
    rwa [List.getLast?_append_of_ne_nil _ hus] at hlast
  have hnext : l.next tail ∈ us.head? := by
    have hfirst := hc.next_last (x := tail) (by rw [List.getLast?_append_of_ne_nil _ hms]; exact htail)
    rwa [List.head?_append_of_ne_nil _ hus] at hfirst
  refine ⟨hc.cut hprev hnext htail hhead, fun e he hdisjoint => ?_⟩
  refine (he.join (fun hmem => ?_) fun hmem => ?_).join (fun hmem => ?_) fun hmem => ?_
  · exact hdisjoint hmem (List.mem_append_left _ (List.mem_of_getLast? hprev))
  · exact hdisjoint hmem (List.mem_append_left _ (List.mem_of_mem_head? hnext))
  · exact hdisjoint hmem (List.mem_append_right _ (List.mem_of_getLast? htail))
  · exact hdisjoint hmem (List.mem_append_right _ (List.mem_of_mem_head? hhead))

theorem ring_unlink (hc : l.Ring (us ++ [this])) (hus : us ≠ []) :
    ((unlink l this).Ring us ∧ (unlink l this).Ring [this]) ∧
      ∀ e, l.Ring e → e.Disjoint (us ++ [this]) → (unlink l this).Ring e := by
  rw [unlink_eq]
  exact ring_cut hc hus rfl rfl

theorem ring_unlinkOthers {fuel : Nat} (hc : l.Ring (this :: vs)) (hfuel : vs.length < fuel) :
    ∃ l', unlinkOthers this fuel l = some l' ∧ l'.Ring [this] ∧
      ∀ e, l.Ring e → e.Disjoint (this :: vs) → l'.Ring e := by
  induction vs generalizing l fuel with
  | nil =>
    obtain ⟨fuel, rfl⟩ := Nat.exists_eq_succ_of_ne_zero (Nat.ne_of_gt hfuel)
    rw [unlinkOthers, if_pos (Links.Ring.singleton_iff.mp hc).1]
    exact ⟨l, rfl, hc, fun e he _ => he⟩
  | cons x vs ih =>
    obtain ⟨fuel, rfl⟩ := Nat.exists_eq_succ_of_ne_zero (Nat.ne_of_gt (Nat.zero_lt_of_lt hfuel))
    have hnodup := hc.nodup
    have hnext : l.next this = x := by
      obtain ⟨-, -, hchain, -⟩ := hc
      exact (List.isChain_cons_cons.mp hchain).1.1
    have hne : x ≠ this := fun heq => (List.nodup_cons.mp hnodup).1 (heq ▸ List.mem_cons_self)
    have hrotated : l.Ring (vs ++ [this] ++ [x]) := by
      rw [List.append_assoc]
      exact (show l.Ring ([this, x] ++ vs) from hc).rotate
    obtain ⟨⟨hrest, -⟩, hframe⟩ := ring_unlink hrotated (by simp)
    rw [unlinkOthers, hnext, if_neg hne]
    obtain ⟨l', hl', hthis, hframe'⟩ := ih hrest.rotate (Nat.lt_of_succ_lt_succ hfuel)
    refine ⟨l', hl', hthis, fun e he hdisjoint => hframe' e (hframe e he ?_) ?_⟩
    · intro y hy hmem
      exact hdisjoint hy (by simp only [List.mem_append, List.mem_cons, List.not_mem_nil, or_false] at hmem ⊢; tauto)
    · intro y hy hmem
      exact hdisjoint hy (by simp only [List.mem_cons] at hmem ⊢; tauto)

theorem takeChain_eq {p y : Nat} (hnext : l.next other = y) (hprev : l.prev other = p) (hy : y ≠ other) (hp : p ≠ other) :
    takeChain l this other = ((l.join this y).join p this).join other other := by
  have hother : Function.update l.prev y this other = p := (Function.update_of_ne (Ne.symm hy) ..).trans hprev
  rw [takeChain, if_neg (hnext ▸ hy), hnext]
  simp only [Links.setNext, Links.setPrev, Links.join, Function.update_self, hother]
  rw [Function.update_comm hp]

theorem ring_takeChain (hthis : l.Ring [this]) (hd : l.Ring (other :: vs)) (hdisjoint : [this].Disjoint (other :: vs)) :
    (takeChain l this other).Ring (this :: vs) ∧ (takeChain l this other).Ring [other] ∧
      ∀ e, l.Ring e → e.Disjoint [this] → e.Disjoint (other :: vs) → (takeChain l this other).Ring e := by
  cases vs with
  | nil =>
    rw [takeChain, if_pos (Links.Ring.singleton_iff.mp hd).1]
    exact ⟨hthis, hd, fun e he _ _ => he⟩
  | cons y ws =>
    have hnodup := hd.nodup
    have hlast := hd.prev_head (x := other) rfl
    rw [List.getLast?_cons_cons] at hlast
    obtain ⟨-, -, hchain, -⟩ := hd
    obtain ⟨⟨hnext, -⟩, htail⟩ := List.isChain_cons_cons.mp hchain
    obtain ⟨hother, hnodup'⟩ := List.nodup_cons.mp hnodup
    have hthis' : ∀ x ∈ other :: y :: ws, x ≠ this := fun x hx heq => hdisjoint (List.mem_singleton_self _) (heq ▸ hx)
    have hpmem : l.prev other ∈ y :: ws := List.mem_of_getLast? hlast
    have hp : l.prev other ≠ other := fun heq => hother (heq ▸ hpmem)
    have hpthis : l.prev other ≠ this := hthis' _ (List.mem_cons_of_mem _ hpmem)
    have hy : y ≠ other := fun heq => hother (heq ▸ List.mem_cons_self)
    have hythis : y ≠ this := hthis' y (List.mem_cons_of_mem _ List.mem_cons_self)
    have hotherthis : other ≠ this := hthis' other List.mem_cons_self
    have hthisws : this ∉ y :: ws := fun hmem => hthis' this (List.mem_cons_of_mem _ hmem) rfl
    rw [takeChain_eq hnext rfl hy hp]
    refine ⟨⟨List.cons_ne_nil _ _, List.nodup_cons.mpr ⟨hthisws, hnodup'⟩, List.isChain_cons_cons.mpr ⟨?_, ?_⟩, fun x hx z hz => ?_⟩,
      Links.Ring.singleton_iff.mpr (Links.joined_join ..), fun e he he1 he2 => ?_⟩
    · exact Links.joined_join_of_ne _ (Ne.symm hotherthis) hy
        (Links.joined_join_of_ne _ (Ne.symm hpthis) hythis (Links.joined_join ..))
    · refine Links.isChain_join (Links.isChain_join (Links.isChain_join htail ?_ ?_) ?_ ?_) ?_ ?_
      · exact fun hmem => hthisws (List.dropLast_subset _ hmem)
      · exact (List.nodup_cons.mp hnodup').1
      · exact Links.notMem_dropLast hnodup' hlast
      · exact fun hmem => hthisws (List.mem_of_mem_tail hmem)
      · exact fun hmem => hother (List.dropLast_subset _ hmem)
      · exact fun hmem => hother (List.mem_of_mem_tail hmem)
    · rw [List.getLast?_cons_cons] at hx
      obtain rfl := Option.mem_unique hlast hx
      obtain rfl : this = z := by simpa using hz
      exact Links.joined_join_of_ne _ hp (Ne.symm hotherthis) (Links.joined_join ..)
    · have hthise : this ∉ e := fun hmem => he1 hmem (List.mem_singleton_self _)
      have hde : ∀ x ∈ other :: y :: ws, x ∉ e := fun x hx hmem => he2 hmem hx
      refine ((he.join hthise (hde y ?_)).join (hde _ (List.mem_cons_of_mem _ hpmem)) hthise).join (hde _ List.mem_cons_self)
        (hde _ List.mem_cons_self)
      exact List.mem_cons_of_mem _ List.mem_cons_self

end IOBufLinks

/-! ### Runs -/

namespace OwnedChains

open IOBufLinks

variable {s s' : OwnedChains} {h : IOBufHeap} {op : LinkOp} {c d : List Nat} {x : Nat}

/-- The pointers form the chains, which have no `IOBuf` in common. -/
structure Inv (s : OwnedChains) (h : IOBufHeap) : Prop where
  fresh : h.fresh = s.fresh
  ring : ∀ c ∈ s.chains, h.links.Ring c
  nodup : s.chains.flatten.Nodup
  created : ∀ x ∈ s.chains.flatten, x < s.fresh

theorem chainOf_spec (hc : s.chainOf x = some c) : c ∈ s.chains ∧ x ∈ c :=
  ⟨List.mem_of_find?_eq_some hc, by simpa using List.find?_some hc⟩

theorem ownedBy_spec (hc : s.ownedBy x = some c) : c ∈ s.chains ∧ ∃ vs, c = x :: vs := by
  refine ⟨List.mem_of_find?_eq_some hc, ?_⟩
  have hhead : c.head? = some x := by simpa using List.find?_some hc
  exact List.head?_eq_some_iff.mp hhead

theorem split_at (hx : x ∈ c) : ∃ vs, c = before x c ++ x :: vs ∧ since x c = x :: vs := by
  induction c with
  | nil => cases hx
  | cons y ys ih =>
    by_cases hy : y = x
    · subst hy
      exact ⟨ys, by simp [before], by simp [since]⟩
    · have hbefore : before x (y :: ys) = y :: before x ys := by simp [before, hy]
      have hsince : since x (y :: ys) = since x ys := by simp [since, hy]
      obtain ⟨vs, hvs, hdrop⟩ := ih ((List.mem_cons.mp hx).resolve_left (Ne.symm hy))
      exact ⟨vs, by rw [hbefore, List.cons_append, ← hvs], hsince.trans hdrop⟩

theorem two_subperm (hc : c ∈ s.chains) (hd : d ∈ s.chains) (hne : c ≠ d) : [c, d].Subperm s.chains := by
  refine List.subperm_of_subset (by simp [hne]) fun e he => ?_
  rcases List.mem_cons.mp he with rfl | he
  · exact hc
  · exact List.mem_singleton.mp he ▸ hd

theorem nodup_of_subperm {xs ys : List Nat} (hsub : xs.Subperm ys) (hys : ys.Nodup) : xs.Nodup := by
  obtain ⟨zs, hperm, hsublist⟩ := hsub
  exact hperm.nodup_iff.mp (hys.sublist hsublist)

theorem flatten_subperm {old chains : List (List Nat)} (hold : old.Subperm chains) : old.flatten.Subperm chains.flatten := by
  obtain ⟨zs, hperm, hsublist⟩ := hold
  exact ⟨zs.flatten, hperm.flatten, hsublist.flatten⟩

theorem Inv.disjoint (h' : s.Inv h) (hc : c ∈ s.chains) (hd : d ∈ s.chains) (hne : c ≠ d) : c.Disjoint d := by
  have hnodup := nodup_of_subperm (flatten_subperm (two_subperm hc hd hne)) h'.nodup
  rw [List.flatten_cons, List.flatten_cons, List.flatten_nil, List.append_nil] at hnodup
  exact List.disjoint_of_nodup_append hnodup

theorem Inv.length_le (h' : s.Inv h) (hc : c ∈ s.chains) : c.length ≤ h.fresh := by
  have hsub : c.Subperm (List.range h.fresh) := by
    refine List.subperm_of_subset (h'.ring c hc).nodup fun x hx => List.mem_range.mpr ?_
    rw [h'.fresh]
    exact h'.created x (List.mem_flatten.mpr ⟨c, hc, hx⟩)
  exact hsub.length_le.trans (Nat.le_of_eq List.length_range)

theorem Inv.replace {old new : List (List Nat)} {links : Links Nat} (h' : s.Inv h) (hold : old.Subperm s.chains)
    (hsub : new.flatten.Subperm old.flatten) (hnew : ∀ e ∈ new, links.Ring e)
    (hrest : ∀ e, h.links.Ring e → (∀ f ∈ old, e.Disjoint f) → links.Ring e) :
    (s.replace old new).Inv { h with links } := by
  have hperm : (old ++ s.chains.diff old).Perm s.chains :=
    List.subperm_append_diff_self_of_count_le fun e _ => hold.count_le e
  have hnodup : (old.flatten ++ (s.chains.diff old).flatten).Nodup := by
    rw [← List.flatten_append]
    exact hperm.flatten.nodup_iff.mpr h'.nodup
  have hsub' : (new ++ s.chains.diff old).flatten.Subperm s.chains.flatten := by
    rw [List.flatten_append]
    refine ((List.subperm_append_right _).mpr hsub).trans ?_
    rw [← List.flatten_append]
    exact hperm.flatten.subperm
  refine ⟨h'.fresh, fun e he => ?_, nodup_of_subperm hsub' h'.nodup, fun x hx => h'.created x (hsub'.subset hx)⟩
  rcases List.mem_append.mp he with he | he
  · exact hnew e he
  · refine hrest e (h'.ring e (hperm.mem_iff.mp (List.mem_append_right _ he))) fun f hf x hxe hxf => ?_
    exact List.disjoint_of_nodup_append hnodup (List.mem_flatten.mpr ⟨f, hf, hxf⟩) (List.mem_flatten.mpr ⟨e, he, hxe⟩)

theorem Inv.replace_one {new : List (List Nat)} {links : Links Nat} (h' : s.Inv h) (hc : c ∈ s.chains)
    (hsub : new.flatten.Subperm c) (hnew : ∀ e ∈ new, links.Ring e)
    (hrest : ∀ e, h.links.Ring e → e.Disjoint c → links.Ring e) : (s.replace [c] new).Inv { h with links } :=
  h'.replace (List.singleton_subperm_iff.mpr hc) (by simpa using hsub) hnew
    fun e he hdisjoint => hrest e he (hdisjoint c (List.mem_singleton_self c))

theorem Inv.replace_two {new : List (List Nat)} {links : Links Nat} (h' : s.Inv h) (hc : c ∈ s.chains) (hd : d ∈ s.chains)
    (hne : c ≠ d) (hsub : new.flatten.Subperm (c ++ d)) (hnew : ∀ e ∈ new, links.Ring e)
    (hrest : ∀ e, h.links.Ring e → e.Disjoint c → e.Disjoint d → links.Ring e) : (s.replace [c, d] new).Inv { h with links } :=
  h'.replace (two_subperm hc hd hne) (by simpa using hsub) hnew
    fun e he hdisjoint => hrest e he (hdisjoint c List.mem_cons_self) (hdisjoint d (List.mem_cons_of_mem _ List.mem_cons_self))

theorem Inv.create (h' : s.Inv h) : ∃ t, exec h .create = some t ∧
    Inv { chains := [s.fresh] :: s.chains, fresh := s.fresh + 1 } t := by
  refine ⟨_, rfl, ⟨congrArg (· + 1) h'.fresh, ?_, ?_, ?_⟩⟩
  · intro c hc
    rcases List.mem_cons.mp hc with rfl | hc
    · rw [h'.fresh]
      exact Links.Ring.singleton_iff.mpr (Links.joined_join ..)
    · have hnew : h.fresh ∉ c := fun hmem => by
        have := h'.created _ (List.mem_flatten.mpr ⟨c, hc, hmem⟩)
        have := h'.fresh
        omega
      exact (h'.ring c hc).join hnew hnew
  · rw [List.flatten_cons, List.singleton_append, List.nodup_cons]
    exact ⟨fun hmem => Nat.lt_irrefl _ (h'.created _ hmem), h'.nodup⟩
  · intro x hx
    rw [List.flatten_cons, List.singleton_append, List.mem_cons] at hx
    rcases hx with rfl | hx
    · exact Nat.lt_succ_self _
    · exact Nat.lt_succ_of_lt (h'.created x hx)

section Operations

variable {this other head tail : Nat} {us ms vs : List Nat}

theorem Inv.prependChain (h' : s.Inv h) (hc : us ++ this :: vs ∈ s.chains) (hd : d ∈ s.chains) (hother : other ∈ d.head?)
    (hne : us ++ this :: vs ≠ d) :
    (s.replace [us ++ this :: vs, d] [if us = [] then us ++ this :: vs ++ d else us ++ d ++ this :: vs]).Inv
      { h with links := IOBufLinks.prependChain h.links this other } := by
  have hdisjoint := h'.disjoint hc hd hne
  have hmem : ∀ {x}, x ∈ this :: (vs ++ us) → x ∈ us ++ this :: vs := fun hx => by
    simp only [List.mem_append, List.mem_cons] at hx ⊢
    tauto
  have hring : h.links.Ring (this :: (vs ++ us)) := (h'.ring _ hc).rotate
  obtain ⟨hnew, hframe⟩ := ring_prependChain hring (h'.ring d hd) hother fun x hx => hdisjoint (hmem hx)
  refine h'.replace_two hc hd hne ?_ (fun e he => ?_) fun e he hec hed => hframe e he (fun x hx hx' => hec hx (hmem hx')) hed
  · rw [List.flatten_singleton]
    split_ifs
    · exact List.Subperm.refl _
    · rw [List.append_assoc, List.append_assoc]
      exact (List.perm_append_comm.append_left us).subperm
  · obtain rfl := List.mem_singleton.mp he
    split_ifs with hus
    · subst hus
      rwa [List.append_nil] at hnew
    · exact (show Links.Ring _ (this :: vs ++ (us ++ d)) by simpa using hnew).rotate

theorem Inv.appendChain (h' : s.Inv h) (hc : us ++ this :: vs ∈ s.chains) (hd : d ∈ s.chains) (hother : other ∈ d.head?)
    (hne : us ++ this :: vs ≠ d) :
    (s.replace [us ++ this :: vs, d] [us ++ this :: d ++ vs]).Inv
      { h with links := IOBufLinks.prependChain h.links (h.links.next this) other } := by
  have hdisjoint := h'.disjoint hc hd hne
  have hring : h.links.Ring (vs ++ us ++ [this]) := by
    have hrot : h.links.Ring (us ++ [this] ++ vs) := by simpa using h'.ring _ hc
    simpa using hrot.rotate
  have hnext := hring.next_last (x := this) (List.getLast?_concat ..)
  obtain ⟨ws, hws⟩ := List.head?_eq_some_iff.mp hnext
  have hmem : ∀ {x}, x ∈ h.links.next this :: ws → x ∈ us ++ this :: vs := fun hx => by
    rw [← hws] at hx
    simp only [List.mem_append, List.mem_cons, List.not_mem_nil, or_false] at hx ⊢
    tauto
  rw [hws] at hring
  obtain ⟨hnew, hframe⟩ := ring_prependChain hring (h'.ring d hd) hother fun x hx => hdisjoint (hmem hx)
  refine h'.replace_two hc hd hne ?_ (fun e he => ?_) fun e he hec hed => hframe e he (fun x hx hx' => hec hx (hmem hx')) hed
  · rw [List.flatten_singleton, List.append_assoc, List.append_assoc, List.cons_append, List.cons_append]
    exact ((List.perm_append_comm.cons this).append_left us).subperm
  · obtain rfl := List.mem_singleton.mp he
    rw [← hws, List.append_assoc, List.append_assoc] at hnew
    simpa using hnew.rotate

theorem Inv.unlink (h' : s.Inv h) (hc : us ++ this :: vs ∈ s.chains) (hne : us ++ vs ≠ []) {new : List (List Nat)}
    (hnew : new.Perm [us ++ vs, [this]]) :
    (s.replace [us ++ this :: vs] new).Inv { h with links := IOBufLinks.unlink h.links this } := by
  have hring : h.links.Ring (vs ++ us ++ [this]) := by
    have hrot : h.links.Ring (us ++ [this] ++ vs) := by simpa using h'.ring _ hc
    simpa using hrot.rotate
  obtain ⟨⟨hrest, hthis⟩, hframe⟩ := ring_unlink hring (by simpa [and_comm] using hne)
  refine h'.replace_one hc ?_ (fun e he => ?_) fun e he hec => hframe e he fun x hx hx' => hec hx ?_
  · refine (hnew.flatten.trans ?_).subperm
    rw [List.flatten_cons, List.flatten_singleton, List.append_assoc]
    exact List.perm_append_comm.append_left us
  · rcases List.mem_cons.mp (hnew.mem_iff.mp he) with rfl | he
    · exact hrest.rotate
    · exact List.mem_singleton.mp he ▸ hthis
  · simp only [List.mem_append, List.mem_cons, List.not_mem_nil, or_false] at hx' ⊢
    tauto

theorem Inv.unlink_alone (h' : s.Inv h) (hc : [this] ∈ s.chains) :
    (s.replace [[this]] [[this]]).Inv { h with links := IOBufLinks.unlink h.links this } := by
  obtain ⟨hnext, hprev⟩ := Links.Ring.singleton_iff.mp (h'.ring _ hc)
  rw [unlink_eq, hnext, hprev]
  refine h'.replace_one hc (List.Subperm.refl _) (fun e he => ?_) fun e he hec => ?_
  · exact List.mem_singleton.mp he ▸ Links.Ring.singleton_iff.mpr (Links.joined_join ..)
  · have hthis : this ∉ e := fun hmem => hec hmem (List.mem_singleton_self _)
    exact (he.join hthis hthis).join hthis hthis

theorem Inv.separateChain (h' : s.Inv h) (hc : us ++ ms ++ vs ∈ s.chains) (hus : us ≠ []) (hhead : head ∈ ms.head?)
    (htail : tail ∈ ms.getLast?) :
    (s.replace [us ++ ms ++ vs] [us ++ vs, ms]).Inv { h with links := IOBufLinks.separateChain h.links head tail } := by
  have hring : h.links.Ring (vs ++ us ++ ms) := by
    have hrot : h.links.Ring (us ++ ms ++ vs) := h'.ring _ hc
    simpa using hrot.rotate
  obtain ⟨⟨hrest, hms⟩, hframe⟩ := ring_cut hring (by simp [hus]) hhead htail
  rw [← separateChain_eq] at hrest hms hframe
  refine h'.replace_one hc ?_ (fun e he => ?_) fun e he hec => hframe e he fun x hx hx' => hec hx ?_
  · rw [List.flatten_cons, List.flatten_singleton, List.append_assoc, List.append_assoc]
    exact (List.perm_append_comm.append_left us).subperm
  · rcases List.mem_cons.mp he with rfl | he
    · exact hrest.rotate
    · exact List.mem_singleton.mp he ▸ hms
  · simp only [List.mem_append] at hx' ⊢
    tauto

theorem Inv.destroy (h' : s.Inv h) (hc : this :: vs ∈ s.chains) :
    ∃ links, unlinkOthers this h.fresh h.links = some links ∧ links.Ring [this] ∧
      (∀ e, h.links.Ring e → e.Disjoint (this :: vs) → links.Ring e) ∧ (s.replace [this :: vs] []).Inv { h with links } := by
  have hlength := h'.length_le hc
  obtain ⟨links, hlinks, hthis, hframe⟩ := ring_unlinkOthers (h'.ring _ hc) (show vs.length < h.fresh from hlength)
  refine ⟨links, hlinks, hthis, hframe, h'.replace_one hc ?_ (fun e he => absurd he List.not_mem_nil) hframe⟩
  exact List.nil_subperm

theorem Inv.moveAssign (h' : s.Inv h) (hc : this :: us ∈ s.chains) (hd : other :: vs ∈ s.chains) (hne : this :: us ≠ other :: vs) :
    ∃ links, unlinkOthers this h.fresh h.links = some links ∧
      (s.replace [this :: us, other :: vs] [this :: vs, [other]]).Inv { h with links := takeChain links this other } := by
  have hdisjoint := h'.disjoint hc hd hne
  obtain ⟨links, hlinks, hthis, hframe, -⟩ := h'.destroy hc
  have hother := hframe _ (h'.ring _ hd) fun x hx hx' => hdisjoint hx' hx
  have hthisvs : [this].Disjoint (other :: vs) := fun x hx => hdisjoint (List.mem_singleton.mp hx ▸ List.mem_cons_self)
  obtain ⟨hnew, hother', hframe'⟩ := ring_takeChain hthis hother hthisvs
  refine ⟨links, hlinks, h'.replace_two hc hd hne ?_ (fun e he => ?_) fun e he hec hed => ?_⟩
  · rw [List.flatten_cons, List.flatten_singleton]
    refine (List.Perm.subperm (List.perm_append_comm)).trans ?_
    rw [List.singleton_append]
    refine (List.Perm.swap this other vs).subperm.trans ?_
    exact ((List.sublist_append_right us (other :: vs)).cons_cons this).subperm
  · rcases List.mem_cons.mp he with rfl | he
    · exact hnew
    · exact List.mem_singleton.mp he ▸ hother'
  · exact hframe' e (hframe e he hec) (fun x hx hx' => hec hx (List.mem_singleton.mp hx' ▸ List.mem_cons_self)) hed

end Operations

/-- **Each operation on the pointers** does what it is for, and its loop ends. -/
theorem Inv.exec (h' : s.Inv h) (hs : s.step op = some s') : ∃ t, exec h op = some t ∧ s'.Inv t := by
  cases op with
  | create =>
    cases hs
    exact h'.create
  | prependChain this other =>
    simp only [step, Option.bind_eq_bind, Option.bind_eq_some_iff, Option.guard_eq_some'] at hs
    obtain ⟨c, hc, d, hd, _, hne, hs⟩ := hs
    cases hs
    obtain ⟨hcmem, hthis⟩ := chainOf_spec hc
    obtain ⟨hdmem, ws, rfl⟩ := ownedBy_spec hd
    obtain ⟨vs, hsplit, hsince⟩ := split_at hthis
    rw [hsplit] at hcmem hne
    have hnew := h'.prependChain hcmem hdmem rfl hne
    rw [← hsplit, ← hsince] at hnew
    exact ⟨_, rfl, hnew⟩
  | appendChain this other =>
    simp only [step, Option.bind_eq_bind, Option.bind_eq_some_iff, Option.guard_eq_some'] at hs
    obtain ⟨c, hc, d, hd, _, hne, hs⟩ := hs
    cases hs
    obtain ⟨hcmem, hthis⟩ := chainOf_spec hc
    obtain ⟨hdmem, ws, rfl⟩ := ownedBy_spec hd
    obtain ⟨vs, hsplit, hsince⟩ := split_at hthis
    rw [hsplit] at hcmem hne
    have hnew := h'.appendChain hcmem hdmem rfl hne
    rw [← hsplit] at hnew
    rw [hsince]
    exact ⟨_, rfl, hnew⟩
  | unlink this =>
    simp only [step, Option.bind_eq_bind, Option.bind_eq_some_iff, Option.guard_eq_some'] at hs
    obtain ⟨c, hc, _, hne, hs⟩ := hs
    cases hs
    obtain ⟨hcmem, hthis⟩ := chainOf_spec hc
    obtain ⟨vs, hsplit, hsince⟩ := split_at hthis
    rw [hsplit] at hcmem
    have hnew := h'.unlink hcmem (by simp [hne]) (List.Perm.refl _)
    rw [← hsplit] at hnew
    rw [hsince]
    exact ⟨_, rfl, hnew⟩
  | pop this =>
    simp only [step, Option.bind_eq_bind, Option.bind_eq_some_iff] at hs
    obtain ⟨c, hc, hs⟩ := hs
    cases hs
    obtain ⟨hcmem, vs, rfl⟩ := ownedBy_spec hc
    refine ⟨_, rfl, ?_⟩
    split_ifs with hvs
    · rw [List.tail_cons] at hvs
      subst hvs
      exact h'.unlink_alone hcmem
    · rw [← List.nil_append (this :: vs)] at hcmem ⊢
      exact h'.unlink hcmem (by simpa using hvs) (List.Perm.swap ..)
  | separateChain this head tail =>
    simp only [step, Option.bind_eq_bind, Option.bind_eq_some_iff, Option.guard_eq_some'] at hs
    obtain ⟨c, hc, _, ⟨hus, hsplit, hhead, hthis⟩, hs⟩ := hs
    cases hs
    obtain ⟨hcmem, -⟩ := chainOf_spec hc
    rw [hsplit] at hcmem
    have hnew := h'.separateChain hcmem hus hhead (List.getLast?_concat ..)
    rw [← hsplit] at hnew
    exact ⟨_, rfl, hnew⟩
  | moveAssign this other =>
    simp only [step, Option.bind_eq_bind, Option.bind_eq_some_iff] at hs
    obtain ⟨c, hc, d, hd, hs⟩ := hs
    by_cases hself : this = other
    · rw [if_pos hself] at hs
      cases hs
      exact ⟨h, if_pos hself, h'⟩
    · rw [if_neg hself] at hs
      simp only [Option.bind_eq_some_iff, Option.guard_eq_some'] at hs
      obtain ⟨_, hne, hs⟩ := hs
      cases hs
      obtain ⟨hcmem, us, rfl⟩ := ownedBy_spec hc
      obtain ⟨hdmem, vs, rfl⟩ := ownedBy_spec hd
      obtain ⟨links, hlinks, hnew⟩ := h'.moveAssign hcmem hdmem hne
      exact ⟨_, by rw [IOBufLinks.exec, if_neg hself, hlinks]; rfl, hnew⟩
  | destroy this =>
    simp only [step, Option.bind_eq_bind, Option.bind_eq_some_iff] at hs
    obtain ⟨c, hc, hs⟩ := hs
    cases hs
    obtain ⟨hcmem, vs, rfl⟩ := ownedBy_spec hc
    obtain ⟨links, hlinks, -, -, hnew⟩ := h'.destroy hcmem
    exact ⟨_, by rw [IOBufLinks.exec, hlinks]; rfl, hnew⟩

end OwnedChains

/-! ### Around a ring -/

namespace IOBufLinks

variable {l : Links Nat} {this x fuel : Nat} {xs : List Nat}

theorem countChainElements_ring (h : l.Ring (this :: xs)) (hfuel : xs.length < fuel) :
    countChainElements fuel l this = some (this :: xs).length := by
  rw [countChainElements, Links.walk_ring h hfuel, Option.map_some, List.foldl_add_const, List.length_cons, Nat.one_mul, Nat.add_comm]

theorem toNat_foldl_add (length : Nat → UInt64) (xs : List Nat) (n : UInt64) :
    (xs.foldl (fun fullLength current => fullLength + length current) n).toNat =
      (n.toNat + (xs.map fun x => (length x).toNat).sum) % 2 ^ 64 := by
  induction xs generalizing n with
  | nil => exact (Nat.mod_eq_of_lt n.toNat_lt).symm
  | cons x xs ih =>
    rw [List.foldl_cons, ih, UInt64.toNat_add, List.map_cons, List.sum_cons]
    omega

theorem computeChainDataLength_ring (length : Nat → UInt64) (h : l.Ring (this :: xs)) (hfuel : xs.length < fuel) :
    (computeChainDataLength length fuel l this).map UInt64.toNat =
      some (((this :: xs).map fun x => (length x).toNat).sum % 2 ^ 64) := by
  rw [computeChainDataLength, Links.walk_ring h hfuel, Option.map_some, Option.map_some, toNat_foldl_add]
  rfl

theorem emptyFrom_path {length : Nat → UInt64} (h : (x :: xs).IsChain l.Joined) (hend : ∀ p ∈ (x :: xs).getLast?, l.next p = this)
    (hthis : this ∉ xs) (hfuel : xs.length < fuel) :
    emptyFrom length l this fuel x = some (decide (∀ y ∈ x :: xs, length y = 0)) := by
  induction xs generalizing x fuel with
  | nil =>
    obtain ⟨fuel, rfl⟩ := Nat.exists_eq_succ_of_ne_zero (Nat.ne_of_gt hfuel)
    rw [emptyFrom, if_pos (hend x rfl)]
    split_ifs with hlength <;> simp_all
  | cons y xs ih =>
    obtain ⟨fuel, rfl⟩ := Nat.exists_eq_succ_of_ne_zero (Nat.ne_of_gt (Nat.zero_lt_of_lt hfuel))
    obtain ⟨hxy, htail⟩ := List.isChain_cons_cons.mp h
    rw [List.mem_cons, not_or] at hthis
    have hrest := ih htail (fun p hp => hend p (by rwa [List.getLast?_cons_cons])) hthis.2 (Nat.lt_of_succ_lt_succ hfuel)
    rw [emptyFrom, hxy.1, if_neg (Ne.symm hthis.1), hrest]
    split_ifs with hlength <;> simp_all

theorem empty_ring (length : Nat → UInt64) (h : l.Ring (this :: xs)) (hfuel : xs.length < fuel) :
    empty length fuel l this = some (decide (∀ y ∈ this :: xs, length y = 0)) := by
  obtain ⟨-, hnodup, hchain, hlast⟩ := h
  exact emptyFrom_path hchain (fun p hp => (hlast p hp this rfl).1) (List.nodup_cons.mp hnodup).1 hfuel

end IOBufLinks

/-! ### Runs -/

namespace OwnedChains

open IOBufLinks

variable {s : OwnedChains} {ops : List LinkOp}

theorem run_exec (links : Links Nat) (hrun : Lib.run step {} ops = some s) :
    ∃ h, Lib.run exec { links, fresh := 0 } ops = some h ∧ s.Inv h := by
  have hinit : Inv {} { links, fresh := 0 } := by
    refine ⟨rfl, fun c hc => ?_, List.nodup_nil, fun x hx => ?_⟩
    · exact absurd hc List.not_mem_nil
    · exact absurd hx List.not_mem_nil
  exact Lib.run_implements (fun _ _ _ _ => Inv.exec) hinit hrun

/-- **Whatever is done with the chains, the pointers are theirs**: no `IOBuf` is in two chains, each chain is a
ring, the loops of the destructors ended, and those around a ring, from any of its `IOBuf`s, end and see each of
them once. -/
theorem run_rings (links : Links Nat) (hrun : Lib.run step {} ops = some s) :
    ∃ h, Lib.run exec { links, fresh := 0 } ops = some h ∧ s.chains.flatten.Nodup ∧
      ∀ c ∈ s.chains, h.links.Ring c ∧ ∀ this ∈ c, ∀ length : Nat → UInt64,
        countChainElements h.fresh h.links this = some c.length ∧
        (computeChainDataLength length h.fresh h.links this).map UInt64.toNat =
          some ((c.map fun x => (length x).toNat).sum % 2 ^ 64) ∧
        empty length h.fresh h.links this = some (decide (∀ x ∈ c, length x = 0)) := by
  obtain ⟨h, hexec, hinv⟩ := run_exec links hrun
  refine ⟨h, hexec, hinv.nodup, fun c hc => ⟨hinv.ring c hc, fun this hthis length => ?_⟩⟩
  obtain ⟨vs, hsplit, -⟩ := split_at hthis
  have hlength := hinv.length_le hc
  have hring := hinv.ring c hc
  generalize before this c = us at hsplit
  subst hsplit
  have hperm : (this :: (vs ++ us)).Perm (us ++ this :: vs) := @List.perm_append_comm _ (this :: vs) us
  have hrot : h.links.Ring (this :: (vs ++ us)) := hring.rotate
  have hfuel : (vs ++ us).length < h.fresh := by
    simp only [List.length_append, List.length_cons] at hlength ⊢
    omega
  refine ⟨?_, ?_, ?_⟩
  · rw [countChainElements_ring hrot hfuel, hperm.length_eq]
  · rw [computeChainDataLength_ring length hrot hfuel, (hperm.map _).sum_nat]
  · rw [empty_ring length hrot hfuel]
    simp only [Option.some.injEq, decide_eq_decide]
    exact ⟨fun hall x hx => hall x (hperm.mem_iff.mpr hx), fun hall x hx => hall x (hperm.mem_iff.mp hx)⟩

/-- A chain of three with a part that is separated and put back in front of the middle. -/
def spliceOps : List LinkOp :=
  [.create, .create, .create, .prependChain 0 1, .appendChain 1 2, .separateChain 0 1 1, .prependChain 2 1, .create, .moveAssign 3 0]

theorem run_rings_splice : ∃ h, Lib.run exec { links := ⟨fun _ => 0, fun _ => 0⟩, fresh := 0 } spliceOps = some h ∧
    h.links.Ring [3, 1, 2] ∧ countChainElements h.fresh h.links 1 = some 3 := by
  have hrun : Lib.run step {} spliceOps = some { chains := [[3, 1, 2], [0]], fresh := 4 } := by decide
  obtain ⟨h, hexec, -, hall⟩ := run_rings ⟨fun _ => 0, fun _ => 0⟩ hrun
  obtain ⟨hring, hloops⟩ := hall [3, 1, 2] List.mem_cons_self
  exact ⟨h, hexec, hring, (hloops 1 (by decide) fun _ => 0).1⟩

end OwnedChains

end Raster
