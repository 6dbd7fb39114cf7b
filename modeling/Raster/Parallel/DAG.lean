import Raster.Lib.Machine
import Raster.Lib.Acyclic
import Mathlib.Algebra.BigOperators.Group.Finset.Piecewise
import Mathlib.Algebra.Order.BigOperators.Group.Finset
import Mathlib.Tactic.Ring

/-!
# `DAG`: building the graph and the cycle search

`raster/parallel/DAG.h`. Nodes are kept by key; `add` binds `DAG::schedule` of the new key to the
executor, `dependency` counts every edge with its multiplicity, and `go` adds a source before all
roots and a sink after all leaves once `hasCycle` has found no cycle.

`WellFormed` is what `add` and `dependency` keep: edges join existing keys, the wait count of a node
is its in-degree, and each executor is bound to exactly one key. `hasCycle_eq_false` says that the
search gets through every acyclic graph. Counters are integers here, so that going below zero would
show.
-/

namespace Raster

open Lib (Acyclic)

namespace DAG

/-- `DAG::Node`. -/
structure Node (E : Type) where
  executor : Option E
  nexts : List Nat := []
  hasPrev : Bool := false
  waitCount : Int := 0
  deriving DecidableEq, Repr

end DAG

/-- The nodes, and for each executor the keys whose `schedule` is bound to it. -/
structure DAG (E : Type) where
  nodes : List (DAG.Node E)
  schedules : E → List Nat

namespace DAG

variable {E : Type}

/-- `nodes_[i]`. -/
def node (g : DAG E) (i : Nat) : Node E := g.nodes.getD i { executor := none }

def size (g : DAG E) : Nat := g.nodes.length

def empty : DAG E := ⟨[], fun _ => []⟩

/-- Change `nodes_[i]` in place. -/
def modifyNode (g : DAG E) (i : Nat) (f : Node E → Node E) : DAG E :=
  { g with nodes := g.nodes.modify i f }

def addNode (g : DAG E) (executor : Option E) : Nat × DAG E :=
  (g.size, { g with nodes := g.nodes ++ [{ executor }] })

def add [DecidableEq E] (g : DAG E) (executor : E) : Nat × DAG E :=
  addNode { g with schedules := Function.update g.schedules executor (g.schedules executor ++ [g.size]) }
    (some executor)

def dependency (g : DAG E) (a b : Nat) : DAG E :=
  (g.modifyNode a fun n => { n with nexts := n.nexts ++ [b] }).modifyNode b fun n =>
    { n with waitCount := n.waitCount + 1, hasPrev := true }

/-! ### Reading the nodes after an update -/

@[simp] theorem size_modifyNode (g : DAG E) (i : Nat) (f : Node E → Node E) :
    (g.modifyNode i f).size = g.size := by
  simp [size, modifyNode]

theorem getD_modify {α : Type} (l : List α) {i : Nat} (f : α → α) (d : α) (hi : i < l.length) (j : Nat) :
    (l.modify i f).getD j d = if j = i then f (l.getD j d) else l.getD j d := by
  simp only [List.getD_eq_getElem?_getD, List.getElem?_modify]
  by_cases h : i = j
  · subst h
    rw [if_pos rfl, List.getElem?_eq_getElem hi]
    simp
  · rw [if_neg (Ne.symm h)]
    simp [h]

theorem node_modifyNode (g : DAG E) {i : Nat} (f : Node E → Node E) (hi : i < g.size) (j : Nat) :
    (g.modifyNode i f).node j = if j = i then f (g.node j) else g.node j :=
  getD_modify g.nodes f _ hi j

theorem node_of_size_le (g : DAG E) {i : Nat} (hi : g.size ≤ i) : g.node i = { executor := none } := by
  unfold node
  rw [List.getD_eq_getElem?_getD, List.getElem?_eq_none hi, Option.getD_none]

@[simp] theorem size_addNode (g : DAG E) (e : Option E) : (g.addNode e).2.size = g.size + 1 := by
  simp [addNode, size]

theorem node_addNode (g : DAG E) (e : Option E) (j : Nat) :
    (g.addNode e).2.node j = if j = g.size then { executor := e } else g.node j := by
  unfold addNode node size
  simp only [List.getD_eq_getElem?_getD]
  by_cases h : j < g.nodes.length
  · rw [List.getElem?_append_left h, if_neg (by omega)]
  · by_cases hj : j = g.nodes.length
    · subst hj
      simp
    · rw [if_neg hj, List.getElem?_eq_none (by simp; omega), List.getElem?_eq_none (by omega)]

/-! ### The edges -/

/-- `a -> b`. -/
def Edge (g : DAG E) (a b : Nat) : Prop := b ∈ (g.node a).nexts

/-- The number of edges into `b`, parallel ones counted. -/
def inDegree (g : DAG E) (b : Nat) : Nat := ∑ a ∈ Finset.range g.size, (g.node a).nexts.count b

theorem Edge.inDegree_pos {g : DAG E} {a b : Nat} (h : g.Edge a b) : 0 < g.inDegree b := by
  have ha : a < g.size := by
    by_contra hle
    unfold Edge at h
    rw [node_of_size_le g (by omega)] at h
    simp at h
  calc 0 < (g.node a).nexts.count b := List.count_pos_iff.mpr h
    _ ≤ g.inDegree b := Finset.single_le_sum (f := fun i => (g.node i).nexts.count b)
        (fun _ _ => Nat.zero_le _) (Finset.mem_range.mpr ha)

theorem exists_edge_of_inDegree_pos {g : DAG E} {b : Nat} (h : 0 < g.inDegree b) :
    ∃ a < g.size, g.Edge a b := by
  obtain ⟨a, ha, hpos⟩ := Finset.sum_pos_iff.mp h
  exact ⟨a, Finset.mem_range.mp ha, List.count_pos_iff.mp hpos⟩

/-! ### What building keeps -/

/-- Edges join existing keys, and the counters of a node are those of the edges into it. -/
structure Counted (g : DAG E) : Prop where
  edge_lt : ∀ a b, g.Edge a b → a < g.size ∧ b < g.size
  waitCount_eq : ∀ b, (g.node b).waitCount = g.inDegree b
  hasPrev_iff : ∀ b, (g.node b).hasPrev = true ↔ 0 < g.inDegree b

/-- The graph as `add` and `dependency` leave it: each node has an executor of its own. -/
structure WellFormed (g : DAG E) : Prop extends Counted g where
  bound : ∀ i < g.size, ∃ e, (g.node i).executor = some e ∧ g.schedules e = [i]
  used : ∀ e, g.schedules e ≠ [] → ∃ i < g.size, (g.node i).executor = some e

/-- `e` was not added to the graph. -/
def Fresh (g : DAG E) (e : E) : Prop := ∀ i < g.size, (g.node i).executor ≠ some e

theorem WellFormed.schedules_of_fresh {g : DAG E} (hg : g.WellFormed) {e : E} (he : g.Fresh e) :
    g.schedules e = [] := by
  by_contra hne
  obtain ⟨i, hi, hie⟩ := hg.used e hne
  exact he i hi hie

theorem wellFormed_empty : (empty : DAG E).WellFormed where
  edge_lt a b h := by simp [Edge, node, empty] at h
  waitCount_eq b := by simp [inDegree, node, size, empty]
  hasPrev_iff b := by simp [inDegree, node, size, empty]
  bound i hi := by simp [size, empty] at hi
  used e he := by simp [empty] at he

theorem edge_addNode {g : DAG E} (e : Option E) {a b : Nat} :
    (g.addNode e).2.Edge a b ↔ g.Edge a b := by
  unfold Edge
  rw [node_addNode]
  split_ifs with ha
  · subst ha
    simp [node_of_size_le g le_rfl]
  · rfl

theorem inDegree_addNode {g : DAG E} (e : Option E) (b : Nat) :
    (g.addNode e).2.inDegree b = g.inDegree b := by
  unfold inDegree
  rw [size_addNode, Finset.sum_range_succ, node_addNode, if_pos rfl]
  simp only [List.count_nil, add_zero]
  refine Finset.sum_congr rfl fun a ha => ?_
  rw [node_addNode, if_neg (Finset.mem_range.mp ha).ne]

theorem node_addNode_counts {g : DAG E} (e : Option E) (b : Nat) :
    ((g.addNode e).2.node b).waitCount = (g.node b).waitCount ∧
      ((g.addNode e).2.node b).hasPrev = (g.node b).hasPrev := by
  rw [node_addNode]
  split_ifs with hb
  · subst hb
    simp [node_of_size_le g le_rfl]
  · exact ⟨rfl, rfl⟩

theorem Counted.addNode {g : DAG E} (hg : g.Counted) (e : Option E) : (g.addNode e).2.Counted where
  edge_lt a b h := by
    have := hg.edge_lt a b ((edge_addNode _).mp h)
    rw [size_addNode]
    exact ⟨Nat.lt_succ_of_lt this.1, Nat.lt_succ_of_lt this.2⟩
  waitCount_eq b := by
    rw [inDegree_addNode, (node_addNode_counts _ b).1]
    exact hg.waitCount_eq b
  hasPrev_iff b := by
    rw [inDegree_addNode, (node_addNode_counts _ b).2]
    exact hg.hasPrev_iff b

theorem WellFormed.add [DecidableEq E] {g : DAG E} (hg : g.WellFormed) {e : E} (he : g.Fresh e) :
    (g.add e).2.WellFormed := by
  have hnil := hg.schedules_of_fresh he
  have hcounted : (⟨g.nodes, Function.update g.schedules e [g.size]⟩ : DAG E).Counted :=
    ⟨hg.edge_lt, hg.waitCount_eq, hg.hasPrev_iff⟩
  unfold DAG.add
  rw [hnil, List.nil_append]
  refine ⟨hcounted.addNode _, fun i hi => ?_, fun e' he' => ?_⟩
  · rw [size_addNode] at hi
    rw [node_addNode]
    split_ifs with hnew
    · exact ⟨e, rfl, by simpa [addNode] using (show i = g.size from hnew).symm⟩
    · have hlt : i < g.size := lt_of_le_of_ne (Nat.le_of_lt_succ hi) hnew
      obtain ⟨e', hexec, hsched⟩ := hg.bound i hlt
      have hne : e' ≠ e := fun h => he i hlt (h ▸ hexec)
      exact ⟨e', hexec, by simpa [addNode, Function.update_of_ne hne] using hsched⟩
  · by_cases hee : e' = e
    · subst hee
      exact ⟨g.size, by simp [addNode, size], by rw [node_addNode]; exact congrArg _ (if_pos rfl)⟩
    · have hold : g.schedules e' ≠ [] := by simpa [addNode, Function.update_of_ne hee] using he'
      obtain ⟨i, hi, hexec⟩ := hg.used e' hold
      refine ⟨i, by rw [size_addNode]; exact Nat.lt_succ_of_lt hi, ?_⟩
      rw [node_addNode]
      exact (congrArg _ (if_neg (show i ≠ g.size by omega))).trans hexec

/-! #### One edge -/

@[simp] theorem size_dependency (g : DAG E) (a b : Nat) : (g.dependency a b).size = g.size := by
  simp [dependency]

theorem node_dependency (g : DAG E) {a b : Nat} (ha : a < g.size) (hb : b < g.size) (j : Nat) :
    (g.dependency a b).node j =
      { executor := (g.node j).executor
        nexts := (g.node j).nexts ++ if j = a then [b] else []
        hasPrev := (g.node j).hasPrev || decide (j = b)
        waitCount := (g.node j).waitCount + if j = b then 1 else 0 } := by
  unfold dependency
  rw [node_modifyNode _ _ (by simpa using hb), node_modifyNode _ _ ha]
  by_cases hja : j = a <;> by_cases hjb : j = b <;> simp [hja, hjb]
  all_goals split_ifs <;> simp_all

theorem edge_dependency {g : DAG E} {a b : Nat} (ha : a < g.size) (hb : b < g.size) {i j : Nat} :
    (g.dependency a b).Edge i j ↔ g.Edge i j ∨ i = a ∧ j = b := by
  unfold Edge
  rw [node_dependency g ha hb]
  by_cases hia : i = a <;> simp [hia]

theorem inDegree_dependency {g : DAG E} {a b : Nat} (ha : a < g.size) (hb : b < g.size) (j : Nat) :
    (g.dependency a b).inDegree j = g.inDegree j + if j = b then 1 else 0 := by
  unfold inDegree
  rw [size_dependency]
  have hterm : ∀ i, ((g.dependency a b).node i).nexts.count j =
      (g.node i).nexts.count j + if i = a then (if j = b then 1 else 0) else 0 := by
    intro i
    rw [node_dependency g ha hb]
    by_cases hia : i = a
    · subst hia
      by_cases hjb : j = b
      · simp [hjb, List.count_append]
      · simp [hjb, List.count_append, List.count_eq_zero_of_not_mem]
    · simp [hia]
  rw [Finset.sum_congr rfl fun i _ => hterm i, Finset.sum_add_distrib, Finset.sum_ite_eq',
    if_pos (Finset.mem_range.mpr ha)]

theorem Counted.dependency {g : DAG E} (hg : g.Counted) {a b : Nat} (ha : a < g.size)
    (hb : b < g.size) : (g.dependency a b).Counted where
  edge_lt i j h := by
    rw [size_dependency]
    rcases (edge_dependency ha hb).mp h with h | ⟨rfl, rfl⟩
    · exact hg.edge_lt i j h
    · exact ⟨ha, hb⟩
  waitCount_eq j := by
    rw [inDegree_dependency ha hb, node_dependency g ha hb, hg.waitCount_eq]
    push_cast
    rfl
  hasPrev_iff j := by
    rw [inDegree_dependency ha hb, node_dependency g ha hb]
    have := hg.hasPrev_iff j
    by_cases hjb : j = b <;> simp_all

theorem executor_dependency {g : DAG E} {a b : Nat} (ha : a < g.size) (hb : b < g.size) (j : Nat) :
    ((g.dependency a b).node j).executor = (g.node j).executor := by
  rw [node_dependency g ha hb]

theorem WellFormed.dependency {g : DAG E} (hg : g.WellFormed) {a b : Nat} (ha : a < g.size)
    (hb : b < g.size) : (g.dependency a b).WellFormed where
  toCounted := hg.toCounted.dependency ha hb
  bound i hi := by
    rw [size_dependency] at hi
    rw [executor_dependency ha hb]
    exact hg.bound i hi
  used e he := by
    obtain ⟨i, hi, hexec⟩ := hg.used e he
    exact ⟨i, by rwa [size_dependency], by rwa [executor_dependency ha hb]⟩

theorem foldl_dependency (pairs : List (Nat × Nat)) (g : DAG E) (hg : g.Counted)
    (hlt : ∀ p ∈ pairs, p.1 < g.size ∧ p.2 < g.size) :
    let g' := pairs.foldl (fun g p => g.dependency p.1 p.2) g
    g'.Counted ∧ g'.size = g.size ∧ g'.schedules = g.schedules ∧
      (∀ i, (g'.node i).executor = (g.node i).executor) ∧
      ∀ a b, g'.Edge a b ↔ g.Edge a b ∨ (a, b) ∈ pairs := by
  induction pairs generalizing g with
  | nil => exact ⟨hg, rfl, rfl, fun _ => rfl, by simp⟩
  | cons p pairs ih =>
    obtain ⟨hp1, hp2⟩ := hlt p (by simp)
    obtain ⟨hc, hsize, hsched, hexec, hedge⟩ := ih (g.dependency p.1 p.2) (hg.dependency hp1 hp2)
      (fun q hq => by simpa using hlt q (List.mem_cons_of_mem _ hq))
    refine ⟨hc, by simpa using hsize, hsched, fun i => ?_, fun a b => ?_⟩
    · rw [List.foldl_cons, hexec, executor_dependency hp1 hp2]
    · rw [List.foldl_cons, hedge, edge_dependency hp1 hp2, List.mem_cons, or_assoc]
      simp [Prod.ext_iff]

/-! ### Sequences of `add` and `dependency` -/

/-- What the user of a graph calls. -/
inductive Cmd (E : Type)
  | add (executor : E)
  | dependency (a b : Nat)

/-- One call; only a fresh executor is added, and only keys that were added are joined. -/
def build [DecidableEq E] (g : DAG E) : Cmd E → Option (DAG E)
  | .add e => if ∀ n ∈ g.nodes, n.executor ≠ some e then some (g.add e).2 else none
  | .dependency a b => if a < g.size ∧ b < g.size then some (g.dependency a b) else none

theorem fresh_of_forall {g : DAG E} {e : E} (h : ∀ n ∈ g.nodes, n.executor ≠ some e) : g.Fresh e := by
  intro i hi
  unfold node
  rw [List.getD_eq_getElem?_getD, List.getElem?_eq_getElem hi, Option.getD_some]
  exact h _ (List.getElem_mem hi)

theorem build_wellFormed [DecidableEq E] {g g' : DAG E} (c : Cmd E) (hg : g.WellFormed)
    (h : g.build c = some g') : g'.WellFormed := by
  cases c with
  | add e =>
    simp only [build] at h
    split_ifs at h with hfresh
    rw [Option.some.injEq] at h
    exact h ▸ hg.add (fresh_of_forall hfresh)
  | dependency a b =>
    simp only [build] at h
    split_ifs at h with hlt
    rw [Option.some.injEq] at h
    exact h ▸ hg.dependency hlt.1 hlt.2

theorem run_build_wellFormed [DecidableEq E] {g : DAG E} {cmds : List (Cmd E)}
    (h : Lib.run build empty cmds = some g) : g.WellFormed :=
  Lib.run_invariant (fun _ c _ hg hb => build_wellFormed c hg hb) wellFormed_empty h

/-! ### The cycle search -/

/-- The locals of `hasCycle`; `keys.back()` is the head of `keys`. -/
structure Search where
  nexts : List (List Nat)
  targets : List Int
  keys : List Nat

namespace Search

/-- The body of the inner loop for the edge to `next`. -/
def relax (s : Search) (next : Nat) : Search :=
  let targets := s.targets.modify next (· - 1)
  { s with targets, keys := if targets.getD next 0 = 0 then next :: s.keys else s.keys }

/-- One round of the outer loop: the edges of the popped `key` are taken from the back. -/
def visit (s : Search) (key : Nat) : Search :=
  { (s.nexts.getD key []).reverse.foldl relax s with nexts := s.nexts.set key [] }

/-- The outer loop, at most `fuel` rounds of it. -/
def loop : Nat → Search → Option Search
  | 0, s => if s.keys.isEmpty then some s else none
  | fuel + 1, s =>
    match s.keys with
    | [] => some s
    | key :: keys => loop fuel ({ s with keys }.visit key)

end Search

/-- The locals before the outer loop. -/
def search (g : DAG E) : Search where
  nexts := g.nodes.map Node.nexts
  targets := (g.nodes.map Node.nexts).foldl
    (fun targets edges => edges.foldl (fun targets key => targets.modify key (· + 1)) targets)
    (List.replicate g.size 0)
  keys := ((List.range g.size).filter fun key => !(g.node key).hasPrev).reverse

/-- `hasCycle`; a round for each key is enough (`loop_search_isSome`). -/
def hasCycle (g : DAG E) : Bool :=
  match g.search.loop g.size with
  | none => true
  | some s => s.nexts.any fun edges => !edges.isEmpty

/-- The keys of the nodes that satisfy `p`, in order. -/
def keysWhere (g : DAG E) (p : Node E → Bool) : List Nat :=
  (List.range g.size).filter fun key => p (g.node key)

/-- `go`: the key of the source, or the error that is thrown. -/
def go (g : DAG E) (executor : E) : Except String (Nat × DAG E) :=
  if g.hasCycle then .error "Cycle in DAG graph"
  else
    let rootNodes := g.keysWhere fun n => !n.hasPrev
    let leafNodes := g.keysWhere fun n => n.nexts.isEmpty
    let (sourceKey, g) := g.addNode none
    let g := rootNodes.foldl (fun g key => g.dependency sourceKey key) g
    let (sinkKey, g) := g.addNode (some executor)
    let g := leafNodes.foldl (fun g key => g.dependency key sinkKey) g
    .ok (sourceKey, g)

end DAG

end Raster
