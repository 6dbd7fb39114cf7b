import Raster.Parallel.CycleSearch

/-!
# Running a graph: every node once, after its predecessors

After `src = go(sink)` and `schedule(src)` the nodes run concurrently. A state of the run holds the
executors that were handed to `execute` and have not finished, and the loops of `schedule` that are
under way; a step is one atomic action of one of them. A loop first decrements the wait count of the
next key and, if that gave 0, hands the node over in a step of its own.

The invariant counts deliveries: the wait count of a node is the number of edges into it that have not
been delivered, those of nodes that have not finished and those the loops under way still have to go
through. A node is handed over when the count reaches 0, which happens once.
-/

namespace Raster.DAG

open Lib (Acyclic)

variable {E : Type}

/-- A loop of `schedule` under way: the key whose count has just reached 0, and the keys to come. -/
structure Loop where
  handing : Option Nat := none
  rest : List Nat
  deriving DecidableEq, Repr

/-- The graph while it runs. -/
structure Exec (E : Type) where
  dag : DAG E
  /-- Handed to `execute` and not finished. -/
  running : List (Option E)
  loops : List Loop
  /-- The keys handed to `execute`, in order. -/
  executed : List Nat
  finished : List E

/-- The keys the loop of `schedule(i)` goes through. -/
def schedule (g : DAG E) (i : Nat) : List Nat := (g.node i).nexts

namespace Exec

/-- The state in which `schedule(src)` has been called and nothing else has happened. -/
def start (g : DAG E) (src : Nat) : Exec E where
  dag := g
  running := []
  loops := [{ rest := g.schedule src }]
  executed := []
  finished := []

/-- One atomic action. -/
inductive Label (E : Type)
  /-- An executor finishes and runs its schedules. -/
  | finish (e : E)
  /-- `--nodes_[key].waitCount == 0` in the `j`-th loop. -/
  | decrement (j : Nat)
  /-- `execute(nodes_[key].executor)` in the `j`-th loop. -/
  | execute (j : Nat)
  /-- The `j`-th loop ends. -/
  | leave (j : Nat)

def step [DecidableEq E] (s : Exec E) : Label E → Option (Exec E)
  | .finish e =>
    if some e ∈ s.running then
      some { s with
        running := s.running.erase (some e)
        finished := s.finished ++ [e]
        loops := s.loops ++ [{ rest := (s.dag.schedules e).flatMap s.dag.schedule }] }
    else none
  | .decrement j =>
    match s.loops[j]? with
    | some ⟨none, key :: rest⟩ =>
      let dag := s.dag.modifyNode key fun n => { n with waitCount := n.waitCount - 1 }
      let handing := if (dag.node key).waitCount = 0 then some key else none
      some { s with dag, loops := s.loops.set j ⟨handing, rest⟩ }
    | _ => none
  | .execute j =>
    match s.loops[j]? with
    | some ⟨some key, rest⟩ =>
      some { s with
        running := s.running ++ [(s.dag.node key).executor]
        executed := s.executed ++ [key]
        loops := s.loops.set j ⟨none, rest⟩ }
    | _ => none
  | .leave j =>
    match s.loops[j]? with
    | some ⟨none, []⟩ => some { s with loops := s.loops.eraseIdx j }
    | _ => none

end Exec

/-! ### The graph `go` returns -/

/-- What a run needs to know of the graph: each node but the source has an executor of its own, bound
to its edges, and is waiting. -/
structure Ready (g : DAG E) (src : Nat) : Prop extends Counted g where
  acyclic : Acyclic g.Edge
  source_lt : src < g.size
  no_edge_source : ∀ a, ¬ g.Edge a src
  source_executor : (g.node src).executor = none
  waiting : ∀ b < g.size, b ≠ src → 0 < g.inDegree b
  bound : ∀ i < g.size, i ≠ src → ∃ e, (g.node i).executor = some e ∧ (g.schedules e).flatMap g.schedule = g.schedule i
  executor_inj : ∀ i j e, (g.node i).executor = some e → (g.node j).executor = some e → i = j

/-- The edges of the graph `go` returns. -/
def GoEdge (g : DAG E) (a b : Nat) : Prop :=
  g.Edge a b ∨ (a = g.size ∧ b < g.size ∧ g.inDegree b = 0) ∨
    (b = g.size + 1 ∧ a < g.size ∧ (g.node a).nexts = [])

theorem mem_roots {g : DAG E} (hg : g.Counted) {b : Nat} :
    b ∈ g.keysWhere (fun n => !n.hasPrev) ↔ b < g.size ∧ g.inDegree b = 0 := by
  have := hg.hasPrev_iff b
  simp only [keysWhere, List.mem_filter, List.mem_range, Bool.not_eq_true', ← Bool.not_eq_true, this]
  omega

theorem mem_leaves {g : DAG E} {a : Nat} :
    a ∈ g.keysWhere (fun n => n.nexts.isEmpty) ↔ a < g.size ∧ (g.node a).nexts = [] := by
  simp [keysWhere]

theorem go_eq {g : DAG E} (hg : g.WellFormed) (hacyclic : Acyclic g.Edge) (sink : E) :
    ∃ g', g.go sink = .ok (g.size, g') ∧ g'.Counted ∧ g'.size = g.size + 2 ∧ g'.schedules = g.schedules ∧
      (∀ a b, g'.Edge a b ↔ g.GoEdge a b) ∧ (∀ i < g.size, (g'.node i).executor = (g.node i).executor) ∧
      (g'.node g.size).executor = none ∧ (g'.node (g.size + 1)).executor = some sink := by
  have hcycle : g.hasCycle = false := by
    rw [← Bool.not_eq_true, hasCycle_iff hg.toCounted]
    exact not_not.mpr hacyclic
  set roots := g.keysWhere fun n => !n.hasPrev with hroots
  set leaves := g.keysWhere fun n => n.nexts.isEmpty with hleaves
  set g₁ := (g.addNode none).2 with hg₁
  have hsize₁ : g₁.size = g.size + 1 := size_addNode g none
  obtain ⟨hc₂, hsize₂, hsched₂, hexec₂, hedge₂⟩ := foldl_dependency (roots.map fun key => (g.size, key)) g₁
    (hg.toCounted.addNode none) (by
      intro p hp
      obtain ⟨key, hkey, rfl⟩ := List.mem_map.mp hp
      have := ((mem_roots hg.toCounted).mp hkey).1
      exact ⟨by rw [hsize₁]; omega, by rw [hsize₁]; omega⟩)
  rw [List.foldl_map] at hc₂ hsize₂ hsched₂ hexec₂ hedge₂
  set g₂ := roots.foldl (fun g' key => g'.dependency g.size key) g₁ with hg₂
  set g₃ := (g₂.addNode (some sink)).2 with hg₃
  have hsize₃ : g₃.size = g.size + 2 := by rw [hg₃, size_addNode, hsize₂, hsize₁]
  obtain ⟨hc₄, hsize₄, hsched₄, hexec₄, hedge₄⟩ := foldl_dependency (leaves.map fun key => (key, g.size + 1)) g₃
    (hc₂.addNode _) (by
      intro p hp
      obtain ⟨key, hkey, rfl⟩ := List.mem_map.mp hp
      have := (mem_leaves.mp hkey).1
      exact ⟨by rw [hsize₃]; omega, by rw [hsize₃]; omega⟩)
  rw [List.foldl_map] at hc₄ hsize₄ hsched₄ hexec₄ hedge₄
  refine ⟨leaves.foldl (fun g' key => g'.dependency key (g.size + 1)) g₃, ?_, hc₄, hsize₄.trans hsize₃, ?_, ?_, ?_,
    ?_, ?_⟩
  · have hkey : (g₂.addNode (some sink)).1 = g.size + 1 := by
      show g₂.size = _
      rw [hsize₂, hsize₁]
    unfold go
    rw [hcycle, if_neg (by simp)]
    show Except.ok (g.size, leaves.foldl (fun g' key => g'.dependency key (g₂.addNode (some sink)).1) g₃) = _
    rw [hkey]
  · rw [hsched₄]
    exact hsched₂
  · intro a b
    rw [hedge₄, hg₃, edge_addNode, hedge₂, hg₁, edge_addNode]
    simp only [List.mem_map, Prod.mk.injEq, hroots, hleaves, mem_roots hg.toCounted, mem_leaves, GoEdge]
    constructor
    · rintro ((h | ⟨key, hkey, rfl, rfl⟩) | ⟨key, hkey, rfl, rfl⟩)
      · exact Or.inl h
      · exact Or.inr (Or.inl ⟨rfl, hkey⟩)
      · exact Or.inr (Or.inr ⟨rfl, hkey⟩)
    · rintro (h | ⟨rfl, hkey⟩ | ⟨rfl, hkey⟩)
      · exact Or.inl (Or.inl h)
      · exact Or.inl (Or.inr ⟨b, hkey, rfl, rfl⟩)
      · exact Or.inr ⟨a, hkey, rfl, rfl⟩
  · intro i hi
    rw [hexec₄, hg₃, node_addNode, if_neg (by rw [hsize₂, hsize₁]; omega), hexec₂, hg₁, node_addNode,
      if_neg (by omega)]
  · rw [hexec₄, hg₃, node_addNode, if_neg (by rw [hsize₂, hsize₁]; omega), hexec₂, hg₁, node_addNode,
      if_pos rfl]
  · rw [hexec₄, hg₃, node_addNode, if_pos (by rw [hsize₂, hsize₁])]

theorem exists_leaf {g : DAG E} (hg : g.Counted) (hacyclic : Acyclic g.Edge) (hne : 0 < g.size) :
    ∃ a < g.size, (g.node a).nexts = [] := by
  have hwf := hacyclic.swap.wellFounded (n := g.size) fun a b h => (hg.edge_lt b a h).symm
  obtain ⟨a, ha, hmin⟩ := hwf.has_min {a | a < g.size} ⟨0, hne⟩
  refine ⟨a, ha, List.eq_nil_iff_forall_not_mem.mpr fun b hb => ?_⟩
  exact hmin b (hg.edge_lt a b hb).2 hb

theorem exists_root {g : DAG E} (hg : g.Counted) (hacyclic : Acyclic g.Edge) (hne : 0 < g.size) :
    ∃ b < g.size, g.inDegree b = 0 := by
  obtain ⟨b, hb, hmin⟩ := (hacyclic.wellFounded hg.edge_lt).has_min {b | b < g.size} ⟨0, hne⟩
  refine ⟨b, hb, Nat.eq_zero_of_not_pos fun hpos => ?_⟩
  obtain ⟨a, ha, hab⟩ := exists_edge_of_inDegree_pos hpos
  exact hmin a ha hab

theorem goEdge_leads {g : DAG E} (hg : g.Counted) (hacyclic : Acyclic g.Edge) (hne : 0 < g.size) (a : Nat)
    (ha : a < g.size + 2) (hsink : a ≠ g.size + 1) : ∃ b, g.GoEdge a b := by
  rcases lt_trichotomy a g.size with ha' | rfl | ha'
  · cases hn : (g.node a).nexts with
    | nil => exact ⟨g.size + 1, Or.inr (Or.inr ⟨rfl, ha', hn⟩)⟩
    | cons b _ => exact ⟨b, Or.inl (by simp [Edge, hn])⟩
  · obtain ⟨b, hb, hzero⟩ := exists_root hg hacyclic hne
    exact ⟨b, Or.inr (Or.inl ⟨rfl, hb, hzero⟩)⟩
  · omega

theorem goEdge_acyclic {g : DAG E} (hg : g.Counted) (hacyclic : Acyclic g.Edge) : Acyclic g.GoEdge := by
  have hsource : Acc g.GoEdge g.size := by
    refine Acc.intro _ fun a h => ?_
    rcases h with h | ⟨-, h, -⟩ | ⟨h, -⟩
    · exact absurd (hg.edge_lt a _ h).2 (by omega)
    · omega
    · omega
  have hnode : ∀ b, b < g.size → Acc g.GoEdge b := by
    intro b
    induction b using (hacyclic.wellFounded hg.edge_lt).induction with
    | _ b ih =>
      intro hb
      refine Acc.intro _ fun a h => ?_
      rcases h with h | ⟨rfl, -, -⟩ | ⟨h, -, -⟩
      · exact ih a h (hg.edge_lt a b h).1
      · exact hsource
      · omega
  refine fun b => Lib.not_transGen_of_acc (Acc.intro b fun a h => ?_)
  rcases h with h | ⟨rfl, -, -⟩ | ⟨-, ha, -⟩
  · exact hnode a (hg.edge_lt a b h).1
  · exact hsource
  · exact hnode a ha

theorem go_ready {g : DAG E} (hg : g.WellFormed) (hacyclic : Acyclic g.Edge) (hne : 0 < g.size) {sink : E}
    (hsink : g.Fresh sink) :
    ∃ g', g.go sink = .ok (g.size, g') ∧ g'.Ready g.size ∧ g'.size = g.size + 2 ∧
      (∀ a b, g'.Edge a b ↔ g.GoEdge a b) ∧ (∀ i < g.size, (g'.node i).executor = (g.node i).executor) ∧
      (g'.node (g.size + 1)).executor = some sink := by
  obtain ⟨g', hgo, hc, hsize, hsched, hedge, hexec, hsource, hsinkExec⟩ := go_eq hg hacyclic sink
  have hlt : ∀ i e, (g'.node i).executor = some e →
      i < g.size ∧ (g.node i).executor = some e ∨ i = g.size + 1 ∧ e = sink := by
    intro i e he
    rcases lt_or_ge i g'.size with hi | hi
    · rw [hsize] at hi
      rcases lt_trichotomy i g.size with hi' | rfl | hi'
      · exact Or.inl ⟨hi', hexec i hi' ▸ he⟩
      · rw [hsource] at he
        exact absurd he (by simp)
      · obtain rfl : i = g.size + 1 := by omega
        rw [hsinkExec, Option.some.injEq] at he
        exact Or.inr ⟨rfl, he.symm⟩
    · rw [node_of_size_le g' hi] at he
      exact absurd he (by simp)
  refine ⟨g', hgo, ⟨hc, ?_, by omega, ?_, hsource, ?_, ?_, ?_⟩, hsize, hedge, hexec, hsinkExec⟩
  · have hrel : g'.Edge = g.GoEdge := by
      funext a b
      exact propext (hedge a b)
    rw [hrel]
    exact goEdge_acyclic hg.toCounted hacyclic
  · intro a h
    rcases (hedge a _).mp h with h | ⟨-, h, -⟩ | ⟨h, -, -⟩
    · exact absurd (hg.edge_lt a _ h).2 (by omega)
    · omega
    · omega
  · intro b hb hbs
    rcases lt_or_ge b g.size with hlt | hge
    · rcases Nat.eq_zero_or_pos (g.inDegree b) with hzero | hpos
      · exact Edge.inDegree_pos ((hedge g.size b).mpr (Or.inr (Or.inl ⟨rfl, hlt, hzero⟩)))
      · obtain ⟨a, -, hab⟩ := exists_edge_of_inDegree_pos hpos
        exact Edge.inDegree_pos ((hedge a b).mpr (Or.inl hab))
    · obtain rfl : b = g.size + 1 := by omega
      obtain ⟨a, ha, hleaf⟩ := exists_leaf hg.toCounted hacyclic hne
      exact Edge.inDegree_pos ((hedge a _).mpr (Or.inr (Or.inr ⟨rfl, ha, hleaf⟩)))
  · intro i hi his
    rcases lt_or_ge i g.size with hlt' | hge
    · obtain ⟨e, he, hs⟩ := hg.bound i hlt'
      refine ⟨e, (hexec i hlt').trans he, ?_⟩
      rw [hsched, hs, List.flatMap_singleton]
    · obtain rfl : i = g.size + 1 := by omega
      refine ⟨sink, hsinkExec, ?_⟩
      rw [hsched, hg.schedules_of_fresh hsink, List.flatMap_nil, eq_comm]
      refine List.eq_nil_iff_forall_not_mem.mpr fun b hb => ?_
      rcases (hedge _ b).mp hb with h | ⟨h, -, -⟩ | ⟨-, h, -⟩
      · exact absurd (hg.edge_lt _ b h).1 (by omega)
      · omega
      · omega
  · intro i j e hi hj
    rcases hlt i e hi with ⟨hi, hie⟩ | ⟨rfl, rfl⟩ <;> rcases hlt j e hj with ⟨hj, hje⟩ | ⟨rfl, he⟩
    · obtain ⟨e₁, he₁, hs₁⟩ := hg.bound i hi
      obtain ⟨e₂, he₂, hs₂⟩ := hg.bound j hj
      rw [hie, Option.some.injEq] at he₁
      rw [hje, Option.some.injEq] at he₂
      subst he₁ he₂
      rw [hs₁] at hs₂
      exact List.head_eq_of_cons_eq hs₂
    · exact absurd (he ▸ hie) (hsink i hi)
    · exact absurd hje (hsink j hj)
    · rfl

/-! ### The delivery count -/

variable [DecidableEq E]

namespace Exec

/-- The edges of `a` are being delivered or have been: it is the source, or it has finished. -/
def Issued (g : DAG E) (src : Nat) (finished : List E) (a : Nat) : Prop :=
  a = src ∨ (g.node a).executor ∈ finished.map some

instance (g : DAG E) (src : Nat) (finished : List E) (a : Nat) : Decidable (Issued g src finished a) := by
  unfold Issued
  infer_instance

/-- The edges into `b` of nodes that have not finished. -/
def unissued (g : DAG E) (src : Nat) (finished : List E) (b : Nat) : Nat :=
  ∑ a ∈ Finset.range g.size, if Issued g src finished a then 0 else (g.node a).nexts.count b

/-- The edges into `b` that the loops still have to go through. -/
def inLoops (loops : List Loop) (b : Nat) : Nat := (loops.map fun l => l.rest.count b).sum

/-- The keys about to be handed over. -/
def handing (loops : List Loop) : List Nat := loops.filterMap Loop.handing

/-- The run of `g` from `src` keeps this. -/
structure Inv (g : DAG E) (src : Nat) (s : Exec E) : Prop where
  nexts_eq : ∀ i, (s.dag.node i).nexts = (g.node i).nexts
  executor_eq : ∀ i, (s.dag.node i).executor = (g.node i).executor
  schedules_eq : s.dag.schedules = g.schedules
  size_eq : s.dag.size = g.size
  waitCount_eq : ∀ b, (s.dag.node b).waitCount = (unissued g src s.finished b + inLoops s.loops b : Nat)
  loops_edge : ∀ l ∈ s.loops, ∀ b ∈ l.rest, ∃ a, g.Edge a b
  reached_iff : ∀ b, b ∈ handing s.loops ++ s.executed ↔ b < g.size ∧ b ≠ src ∧ (s.dag.node b).waitCount = 0
  reached_nodup : (handing s.loops ++ s.executed).Nodup
  accounted : (s.executed.map fun i => (g.node i).executor).Perm (s.running ++ s.finished.map some)

variable {g : DAG E} {src : Nat} {s s' : Exec E}

theorem unissued_nil (hg : g.Ready src) (b : Nat) :
    unissued g src [] b + (g.node src).nexts.count b = g.inDegree b := by
  unfold unissued inDegree
  rw [← Finset.add_sum_erase _ _ (Finset.mem_range.mpr hg.source_lt),
    ← Finset.add_sum_erase _ (fun a => (g.node a).nexts.count b) (Finset.mem_range.mpr hg.source_lt)]
  have hrest : ∀ a ∈ (Finset.range g.size).erase src,
      (if Issued g src [] a then 0 else (g.node a).nexts.count b) = (g.node a).nexts.count b := by
    intro a ha
    rw [if_neg (by simpa [Issued] using (Finset.mem_erase.mp ha).1)]
  rw [Finset.sum_congr rfl hrest, if_pos (show Issued g src [] src from Or.inl rfl)]
  omega

theorem inv_start (hg : g.Ready src) : Inv g src (start g src) where
  nexts_eq _ := rfl
  executor_eq _ := rfl
  schedules_eq := rfl
  size_eq := rfl
  waitCount_eq b := by
    show (g.node b).waitCount = _
    rw [hg.waitCount_eq, ← unissued_nil hg]
    simp [start, inLoops, schedule]
  loops_edge l hl b hb := by
    simp only [start, List.mem_singleton] at hl
    subst hl
    exact ⟨src, hb⟩
  reached_iff b := by
    simp only [start, handing, List.filterMap_cons_none, List.filterMap_nil, List.append_nil,
      List.not_mem_nil, false_iff]
    rintro ⟨hb, hbs, hzero⟩
    have := hg.waiting b hb hbs
    rw [hg.waitCount_eq] at hzero
    omega
  reached_nodup := by simp [start, handing]
  accounted := by simp [start]

/-! #### One atomic action -/

theorem split_getElem? {α : Type*} {xs : List α} {j : Nat} {x : α} (hj : xs[j]? = some x) :
    ∃ before after, xs = before ++ x :: after ∧ (∀ y, xs.set j y = before ++ y :: after) ∧ xs.eraseIdx j = before ++ after := by
  obtain ⟨hlt, hget⟩ := List.getElem?_eq_some_iff.mp hj
  refine ⟨xs.take j, xs.drop (j + 1), ?_, fun y => ?_, List.eraseIdx_eq_take_drop_succ ..⟩
  · rw [← hget, List.getElem_cons_drop, List.take_append_drop]
  · rw [List.set_eq_take_append_cons_drop, if_pos hlt]

theorem inLoops_set (loops : List Loop) (j : Nat) (l l' : Loop) (hj : loops[j]? = some l) (b : Nat) :
    inLoops (loops.set j l') b + l.rest.count b = inLoops loops b + l'.rest.count b := by
  obtain ⟨before, after, hsplit, hset, -⟩ := split_getElem? hj
  rw [hset, hsplit]
  simp only [inLoops, List.map_append, List.map_cons, List.sum_append, List.sum_cons]
  omega

theorem handing_cons (l : Loop) (loops : List Loop) : handing (l :: loops) = l.handing.toList ++ handing loops := by
  unfold handing
  cases h : l.handing <;> simp [h]

theorem handing_append (loops loops' : List Loop) : handing (loops ++ loops') = handing loops ++ handing loops' :=
  List.filterMap_append

theorem handing_set_perm (loops : List Loop) (j : Nat) (l l' : Loop) (hj : loops[j]? = some l) :
    (handing (loops.set j l') ++ l.handing.toList).Perm (handing loops ++ l'.handing.toList) := by
  obtain ⟨before, after, hsplit, hset, -⟩ := split_getElem? hj
  rw [hset, hsplit]
  refine List.perm_iff_count.mpr fun a => ?_
  simp only [handing_append, handing_cons, List.count_append]
  omega

theorem inLoops_eraseIdx (loops : List Loop) (j : Nat) (hj : loops[j]? = some ⟨none, []⟩) (b : Nat) :
    inLoops (loops.eraseIdx j) b = inLoops loops b := by
  obtain ⟨before, after, hsplit, -, herase⟩ := split_getElem? hj
  rw [herase, hsplit]
  simp [inLoops]

theorem handing_eraseIdx (loops : List Loop) (j : Nat) (hj : loops[j]? = some ⟨none, []⟩) :
    handing (loops.eraseIdx j) = handing loops := by
  obtain ⟨before, after, hsplit, -, herase⟩ := split_getElem? hj
  rw [herase, hsplit]
  simp [handing_append, handing_cons]

theorem Inv.decrement (hg : g.Ready src) (h : Inv g src s) {j key : Nat} {rest : List Nat}
    (hj : s.loops[j]? = some ⟨none, key :: rest⟩) :
    let dag := s.dag.modifyNode key fun n => { n with waitCount := n.waitCount - 1 }
    let handing := if (dag.node key).waitCount = 0 then some key else none
    Inv g src { s with dag, loops := s.loops.set j ⟨handing, rest⟩ } := by
  intro dag hand
  have hmem : (⟨none, key :: rest⟩ : Loop) ∈ s.loops := List.mem_of_getElem? hj
  obtain ⟨a, hedge⟩ := h.loops_edge _ hmem key (by simp)
  have hlt : key < g.size := (hg.edge_lt a key hedge).2
  have hsrc : key ≠ src := fun heq => hg.no_edge_source a (heq ▸ hedge)
  have hnode : ∀ i, dag.node i =
      if i = key then { s.dag.node i with waitCount := (s.dag.node i).waitCount - 1 } else s.dag.node i :=
    node_modifyNode s.dag _ (h.size_eq ▸ hlt)
  have hwait : ∀ b, (dag.node b).waitCount = (s.dag.node b).waitCount - if b = key then 1 else 0 := by
    intro b
    rw [hnode]
    split_ifs <;> simp
  have hloops : ∀ b, inLoops (s.loops.set j ⟨hand, rest⟩) b + (if b = key then 1 else 0) = inLoops s.loops b := by
    intro b
    have := inLoops_set s.loops j _ ⟨hand, rest⟩ hj b
    rw [List.count_cons] at this
    by_cases hb : b = key
    · subst hb
      simp only [beq_self_eq_true, if_true] at this ⊢
      omega
    · simp only [beq_iff_eq, hb, Ne.symm hb, if_false] at this ⊢
      omega
  have hpos : 0 < (s.dag.node key).waitCount := by
    have := hloops key
    rw [if_pos rfl] at this
    rw [h.waitCount_eq]
    omega
  have hnew : key ∉ handing s.loops ++ s.executed := by
    rw [h.reached_iff]
    omega
  have hperm : (handing (s.loops.set j ⟨hand, rest⟩) ++ s.executed).Perm
      (hand.toList ++ (handing s.loops ++ s.executed)) := by
    have := handing_set_perm s.loops j _ ⟨hand, rest⟩ hj
    refine List.perm_iff_count.mpr fun b => ?_
    have hcount := this.count_eq b
    simp only [Option.toList_none, List.append_nil, List.count_append] at hcount ⊢
    omega
  have hhand : ∀ b, b ∈ hand.toList ↔ b = key ∧ (dag.node key).waitCount = 0 := by
    intro b
    show b ∈ (if (dag.node key).waitCount = 0 then some key else none).toList ↔ _
    split_ifs with h0 <;> simp [h0]
  refine ⟨fun i => ?_, fun i => ?_, h.schedules_eq, ?_, fun b => ?_, fun l hl b hb => ?_, fun b => ?_, ?_, h.accounted⟩
  · rw [← h.nexts_eq i, hnode]
    split_ifs <;> rfl
  · rw [← h.executor_eq i, hnode]
    split_ifs <;> rfl
  · exact (size_modifyNode _ _ _).trans h.size_eq
  · have hb := hloops b
    show (dag.node b).waitCount = _
    rw [hwait, h.waitCount_eq]
    push_cast [← hb]
    ring
  · rcases List.mem_or_eq_of_mem_set hl with hl | rfl
    · exact h.loops_edge l hl b hb
    · exact h.loops_edge _ hmem b (List.mem_cons_of_mem _ hb)
  · rw [hperm.mem_iff, List.mem_append, hhand, h.reached_iff]
    show _ ↔ _ ∧ _ ∧ (dag.node b).waitCount = 0
    rw [hwait b]
    by_cases hb : b = key
    · subst hb
      rw [hwait b]
      simp only [true_and, if_true]
      omega
    · simp [hb]
  · rw [hperm.nodup_iff]
    refine List.nodup_append.mpr ⟨?_, h.reached_nodup, ?_⟩
    · show (if (dag.node key).waitCount = 0 then some key else none).toList.Nodup
      split_ifs <;> simp
    · rintro b hb c hc rfl
      exact hnew (((hhand b).mp hb).1 ▸ hc)

theorem Inv.execute (h : Inv g src s) {j key : Nat} {rest : List Nat}
    (hj : s.loops[j]? = some ⟨some key, rest⟩) :
    Inv g src { s with
      running := s.running ++ [(s.dag.node key).executor]
      executed := s.executed ++ [key]
      loops := s.loops.set j ⟨none, rest⟩ } := by
  have hmem : (⟨some key, rest⟩ : Loop) ∈ s.loops := List.mem_of_getElem? hj
  have hperm : (handing (s.loops.set j ⟨none, rest⟩) ++ (s.executed ++ [key])).Perm
      (handing s.loops ++ s.executed) := by
    have := handing_set_perm s.loops j _ ⟨none, rest⟩ hj
    refine List.perm_iff_count.mpr fun b => ?_
    have hcount := this.count_eq b
    simp only [Option.toList_none, Option.toList_some, List.append_nil, List.count_append] at hcount ⊢
    omega
  refine ⟨h.nexts_eq, h.executor_eq, h.schedules_eq, h.size_eq, fun b => ?_, fun l hl b hb => ?_, fun b => ?_, ?_, ?_⟩
  · have := inLoops_set s.loops j _ ⟨none, rest⟩ hj b
    show (s.dag.node b).waitCount = _
    rw [h.waitCount_eq]
    show _ = ((unissued g src s.finished b + inLoops (s.loops.set j ⟨none, rest⟩) b : Nat) : Int)
    simp only at this
    omega
  · rcases List.mem_or_eq_of_mem_set hl with hl | rfl
    · exact h.loops_edge l hl b hb
    · exact h.loops_edge _ hmem b hb
  · rw [hperm.mem_iff]
    exact h.reached_iff b
  · exact hperm.nodup_iff.mpr h.reached_nodup
  · rw [List.map_append, List.map_singleton, h.executor_eq]
    refine (h.accounted.append_right _).trans ?_
    rw [List.append_assoc, List.append_assoc]
    exact List.perm_append_comm.append_left _

theorem Inv.leave (h : Inv g src s) {j : Nat} (hj : s.loops[j]? = some ⟨none, []⟩) :
    Inv g src { s with loops := s.loops.eraseIdx j } := by
  refine ⟨h.nexts_eq, h.executor_eq, h.schedules_eq, h.size_eq, fun b => ?_, fun l hl b hb => ?_, ?_, ?_, h.accounted⟩
  · show (s.dag.node b).waitCount = (unissued g src s.finished b + inLoops (s.loops.eraseIdx j) b : Nat)
    rw [inLoops_eraseIdx _ _ hj]
    exact h.waitCount_eq b
  · exact h.loops_edge l (List.mem_of_mem_eraseIdx hl) b hb
  · show ∀ b, b ∈ handing (s.loops.eraseIdx j) ++ s.executed ↔ _
    rw [handing_eraseIdx _ _ hj]
    exact h.reached_iff
  · show (handing (s.loops.eraseIdx j) ++ s.executed).Nodup
    rw [handing_eraseIdx _ _ hj]
    exact h.reached_nodup

theorem Inv.executed_lt (h : Inv g src s) {i : Nat} (hi : i ∈ s.executed) : i < g.size ∧ i ≠ src :=
  have := (h.reached_iff i).mp (List.mem_append_right _ hi)
  ⟨this.1, this.2.1⟩

theorem Inv.executors_nodup (hg : g.Ready src) (h : Inv g src s) : (s.running ++ s.finished.map some).Nodup := by
  rw [← h.accounted.nodup_iff]
  refine List.Nodup.map_on (fun i hi k hk heq => ?_) (List.nodup_append.mp h.reached_nodup).2.1
  obtain ⟨e, he, -⟩ := hg.bound i (h.executed_lt hi).1 (h.executed_lt hi).2
  exact hg.executor_inj i k e he (heq ▸ he)

theorem unissued_finish (hg : g.Ready src) {finished : List E} {i : Nat} {e : E} (hi : i < g.size)
    (he : (g.node i).executor = some e) (hnew : ¬ Issued g src finished i) (b : Nat) :
    unissued g src (finished ++ [e]) b + (g.node i).nexts.count b = unissued g src finished b := by
  have hissued : ∀ a, Issued g src (finished ++ [e]) a ↔ Issued g src finished a ∨ a = i := by
    intro a
    have : (g.node a).executor = some e ↔ a = i :=
      ⟨fun ha => hg.executor_inj a i e ha he, fun ha => ha ▸ he⟩
    simp only [Issued, List.map_append, List.map_singleton, List.mem_append, List.mem_singleton, this, or_assoc]
  unfold unissued
  rw [← Finset.add_sum_erase _ _ (Finset.mem_range.mpr hi),
    ← Finset.add_sum_erase _ (fun a => if Issued g src finished a then 0 else _) (Finset.mem_range.mpr hi)]
  have hrest : ∀ a ∈ (Finset.range g.size).erase i,
      (if Issued g src (finished ++ [e]) a then 0 else (g.node a).nexts.count b) =
        if Issued g src finished a then 0 else (g.node a).nexts.count b := by
    intro a ha
    have := (Finset.mem_erase.mp ha).1
    simp only [hissued, this, or_false]
  rw [Finset.sum_congr rfl hrest, if_pos ((hissued i).mpr (Or.inr rfl)), if_neg hnew]
  omega

theorem Inv.finish (hg : g.Ready src) (h : Inv g src s) {e : E} (he : some e ∈ s.running) :
    Inv g src { s with
      running := s.running.erase (some e)
      finished := s.finished ++ [e]
      loops := s.loops ++ [{ rest := (s.dag.schedules e).flatMap s.dag.schedule }] } := by
  obtain ⟨i, hi, hexec⟩ := List.mem_map.mp (h.accounted.mem_iff.mpr (List.mem_append_left _ he))
  obtain ⟨hlt, hsrc⟩ := h.executed_lt hi
  have hnew : ¬ Issued g src s.finished i := by
    rintro (heq | hfin)
    · exact hsrc heq
    · have hdisj := (List.nodup_append.mp (h.executors_nodup hg)).2.2
      exact hdisj _ he _ (hexec ▸ hfin) rfl
  have hrest : (s.dag.schedules e).flatMap s.dag.schedule = (g.node i).nexts := by
    have hsched : s.dag.schedule = g.schedule := funext h.nexts_eq
    obtain ⟨e', he', hflat⟩ := hg.bound i hlt hsrc
    rw [hexec, Option.some.injEq] at he'
    rw [h.schedules_eq, hsched, he', hflat]
    rfl
  have hunissued := unissued_finish hg hlt hexec hnew
  rw [hrest]
  refine ⟨h.nexts_eq, h.executor_eq, h.schedules_eq, h.size_eq, fun b => ?_, fun l hl b hb => ?_, fun b => ?_, ?_, ?_⟩
  · show (s.dag.node b).waitCount = (unissued g src (s.finished ++ [e]) b +
      inLoops (s.loops ++ [{ rest := (g.node i).nexts }]) b : Nat)
    have := hunissued b
    rw [h.waitCount_eq]
    simp only [inLoops, List.map_append, List.map_singleton, List.sum_append, List.sum_singleton]
    omega
  · rcases List.mem_append.mp hl with hl | hl
    · exact h.loops_edge l hl b hb
    · rw [List.mem_singleton] at hl
      subst hl
      exact ⟨i, hb⟩
  · show b ∈ handing (s.loops ++ _) ++ s.executed ↔ _
    have := h.reached_iff b
    simpa [handing] using this
  · have := h.reached_nodup
    simpa [handing] using this
  · rw [List.map_append, List.map_singleton]
    refine h.accounted.trans ?_
    refine ((List.perm_cons_erase he).append_right _).trans ?_
    rw [List.cons_append, ← List.append_assoc]
    exact List.perm_append_singleton _ _ |>.symm

theorem step_inv (hg : g.Ready src) (l : Label E) (h : Inv g src s) (hs : s.step l = some s') : Inv g src s' := by
  unfold step at hs
  split at hs
  · split_ifs at hs with he
    rw [Option.some.injEq] at hs
    exact hs ▸ h.finish hg he
  · split at hs
    · rename_i hj
      rw [Option.some.injEq] at hs
      exact hs ▸ h.decrement hg hj
    · cases hs
  · split at hs
    · rename_i hj
      rw [Option.some.injEq] at hs
      exact hs ▸ h.execute hj
    · cases hs
  · split at hs
    · rename_i hj
      rw [Option.some.injEq] at hs
      exact hs ▸ h.leave hj
    · cases hs

theorem executed_subset {l : Label E} (hs : s.step l = some s') : s.executed ⊆ s'.executed := by
  unfold step at hs
  split at hs
  · split_ifs at hs
    rw [Option.some.injEq] at hs
    exact hs ▸ List.Subset.refl _
  · split at hs
    · rw [Option.some.injEq] at hs
      exact hs ▸ List.Subset.refl _
    · cases hs
  · split at hs
    · rw [Option.some.injEq] at hs
      exact hs ▸ List.subset_append_left _ _
    · cases hs
  · split at hs
    · rw [Option.some.injEq] at hs
      exact hs ▸ List.Subset.refl _
    · cases hs

theorem run_inv (hg : g.Ready src) {ls : List (Label E)} (hrun : Lib.run step (start g src) ls = some s) :
    Inv g src s :=
  Lib.run_invariant (fun _ l _ h hs => step_inv hg l h hs) (inv_start hg) hrun

/-! ### What every run does -/

theorem Inv.issued_of_executed (hg : g.Ready src) (h : Inv g src s) {a b : Nat} (hb : b ∈ s.executed)
    (hedge : g.Edge a b) : Issued g src s.finished a := by
  have hzero := ((h.reached_iff b).mp (List.mem_append_right _ hb)).2.2
  rw [h.waitCount_eq] at hzero
  have hun : unissued g src s.finished b = 0 := by omega
  by_contra hnot
  have hterm := Finset.sum_eq_zero_iff.mp hun a (Finset.mem_range.mpr (hg.edge_lt a b hedge).1)
  rw [if_neg hnot] at hterm
  exact absurd hedge (List.count_eq_zero.mp hterm)

theorem Inv.executed_of_issued (hg : g.Ready src) (h : Inv g src s) {a : Nat} (ha : Issued g src s.finished a)
    (hsrc : a ≠ src) : a ∈ s.executed := by
  have hfin := ha.resolve_left hsrc
  obtain ⟨i, hi, hexec⟩ := List.mem_map.mp (h.accounted.mem_iff.mpr (List.mem_append_right _ hfin))
  obtain ⟨e, -, he⟩ := List.mem_map.mp hfin
  have : i = a := hg.executor_inj i a e (hexec.trans he.symm) he.symm
  exact this ▸ hi

omit [DecidableEq E] in
theorem Issued.finished {finished : List E} {a : Nat} (ha : Issued g src finished a) (hsrc : a ≠ src) :
    ∃ e ∈ finished, (g.node a).executor = some e := by
  obtain ⟨e, he, hexec⟩ := List.mem_map.mp (ha.resolve_left hsrc)
  exact ⟨e, he, hexec.symm⟩

theorem Inv.issued_of_path (hg : g.Ready src) (h : Inv g src s) {sink : Nat} (hsink : sink ∈ s.executed)
    (hleads : ∀ a < g.size, a ≠ sink → ∃ b, g.Edge a b) (a : Nat) (ha : a < g.size) (hne : a ≠ sink) :
    Issued g src s.finished a := by
  have hwf := hg.acyclic.swap.wellFounded (n := g.size) fun a b h => (hg.edge_lt b a h).symm
  induction a using hwf.induction with
  | _ a ih =>
    obtain ⟨b, hab⟩ := hleads a ha hne
    refine h.issued_of_executed hg ?_ hab
    by_cases hb : b = sink
    · exact hb ▸ hsink
    · have hissued := ih b hab (hg.edge_lt a b hab).2 hb
      exact h.executed_of_issued hg hissued fun heq => hg.no_edge_source a (heq ▸ hab)

theorem Inv.executed_of_idle (hg : g.Ready src) (h : Inv g src s) (hrunning : s.running = [])
    (hloops : s.loops = []) (b : Nat) (hb : b < g.size) (hsrc : b ≠ src) : b ∈ s.executed := by
  induction b using (hg.acyclic.wellFounded hg.edge_lt).induction with
  | _ b ih =>
    have hmem := (h.reached_iff b).mpr ⟨hb, hsrc, ?_⟩
    · simpa [handing, hloops] using hmem
    · rw [h.waitCount_eq, hloops]
      have hun : unissued g src s.finished b = 0 := by
        refine Finset.sum_eq_zero fun a ha => ?_
        split_ifs with hissued
        · rfl
        · refine List.count_eq_zero.mpr fun hab => hissued ?_
          by_cases hasrc : a = src
          · exact Or.inl hasrc
          · have hexec := ih a hab (Finset.mem_range.mp ha) hasrc
            have hperm := h.accounted
            rw [hrunning, List.nil_append] at hperm
            exact Or.inr (hperm.mem_iff.mp (List.mem_map_of_mem hexec))
      rw [hun]
      rfl

/-! #### After the sink -/

/-- No wait count is positive and nothing is about to be handed over: the graph is finished, and a loop
that goes through it again only takes the counts further down. -/
structure Over (s : Exec E) : Prop where
  waitCount_le : ∀ b, (s.dag.node b).waitCount ≤ 0
  handing_none : ∀ l ∈ s.loops, l.handing = none
  rest_lt : ∀ l ∈ s.loops, ∀ b ∈ l.rest, b < s.dag.size
  nexts_lt : ∀ i, ∀ b ∈ (s.dag.node i).nexts, b < s.dag.size

theorem Inv.executed_of_sink (hg : g.Ready src) (h : Inv g src s) {sink : Nat} (hsink : sink ∈ s.executed)
    (hleads : ∀ a < g.size, a ≠ sink → ∃ b, g.Edge a b) (b : Nat) (hb : b < g.size) (hsrc : b ≠ src) :
    b ∈ s.executed := by
  by_cases hbs : b = sink
  · exact hbs ▸ hsink
  · exact h.executed_of_issued hg (h.issued_of_path hg hsink hleads b hb hbs) hsrc

theorem Inv.over (hg : g.Ready src) (h : Inv g src s) {sink : Nat} (hsink : sink ∈ s.executed)
    (hleads : ∀ a < g.size, a ≠ sink → ∃ b, g.Edge a b) : s.Over := by
  have hall := h.executed_of_sink hg hsink hleads
  have hedge : ∀ i, ∀ b ∈ (s.dag.node i).nexts, b < s.dag.size := by
    intro i b hb
    rw [h.nexts_eq] at hb
    exact h.size_eq ▸ (hg.edge_lt i b hb).2
  refine ⟨fun b => ?_, fun l hl => ?_, fun l hl b hb => ?_, hedge⟩
  · rcases lt_or_ge b g.size with hlt | hge
    · by_cases hsrc : b = src
      · -- no edge leads into the source, so nothing is left to deliver
        have hin : inLoops s.loops b = 0 := by
          refine List.sum_eq_zero fun n hn => ?_
          obtain ⟨l, hl, rfl⟩ := List.mem_map.mp hn
          refine List.count_eq_zero.mpr fun hb => ?_
          obtain ⟨a, hab⟩ := h.loops_edge l hl b hb
          exact hg.no_edge_source a (hsrc ▸ hab)
        have hun : unissued g src s.finished b = 0 := by
          refine Finset.sum_eq_zero fun a _ => ?_
          split_ifs
          · rfl
          · exact List.count_eq_zero.mpr fun hab => hg.no_edge_source a (hsrc ▸ hab)
        rw [h.waitCount_eq, hin, hun]
        rfl
      · exact (((h.reached_iff b).mp (List.mem_append_right _ (hall b hlt hsrc))).2.2).le
    · rw [node_of_size_le s.dag (by rw [h.size_eq]; exact hge)]
  · rcases hhand : l.handing with _ | key
    · rfl
    · have hkey : key ∈ handing s.loops := List.mem_filterMap.mpr ⟨l, hl, hhand⟩
      obtain ⟨hlt, hsrc, -⟩ := (h.reached_iff key).mp (List.mem_append_left _ hkey)
      exact absurd rfl ((List.nodup_append.mp h.reached_nodup).2.2 key hkey key (hall key hlt hsrc))
  · obtain ⟨a, hab⟩ := h.loops_edge l hl b hb
    exact h.size_eq ▸ (hg.edge_lt a b hab).2

omit [DecidableEq E] in
theorem Over.addLoop (h : s.Over) {rest : List Nat} (hrest : ∀ b ∈ rest, b < s.dag.size) {running : List (Option E)}
    {finished : List E} :
    Over { s with running, finished, loops := s.loops ++ [{ rest }] } := by
  refine ⟨h.waitCount_le, fun l hl => ?_, fun l hl b hb => ?_, h.nexts_lt⟩
  · rcases List.mem_append.mp hl with hl | hl
    · exact h.handing_none l hl
    · rw [List.mem_singleton.mp hl]
  · rcases List.mem_append.mp hl with hl | hl
    · exact h.rest_lt l hl b hb
    · rw [List.mem_singleton.mp hl] at hb
      exact hrest b hb

theorem Over.step (h : s.Over) {l : Label E} (hs : s.step l = some s') : s'.Over ∧ s'.executed = s.executed := by
  cases l with
  | finish e =>
    simp only [Exec.step] at hs
    split_ifs at hs
    rw [Option.some.injEq] at hs
    subst hs
    refine ⟨h.addLoop fun b hb => ?_, rfl⟩
    obtain ⟨i, -, hi⟩ := List.mem_flatMap.mp hb
    exact h.nexts_lt i b hi
  | decrement j =>
    simp only [Exec.step] at hs
    split at hs
    · rename_i key rest hj
      rw [Option.some.injEq] at hs
      subst hs
      have hmem := List.mem_of_getElem? hj
      have hnode := node_modifyNode s.dag (fun n => { n with waitCount := n.waitCount - 1 })
        (h.rest_lt _ hmem key (by simp))
      have hkey := h.waitCount_le key
      have hneg : ¬ ((s.dag.modifyNode key fun n => { n with waitCount := n.waitCount - 1 }).node key).waitCount = 0 := by
        rw [hnode, if_pos rfl]
        simp only
        omega
      refine ⟨⟨fun b => ?_, fun l hl => ?_, fun l hl b hb => ?_, fun i b hb => ?_⟩, rfl⟩
      · rw [hnode]
        have := h.waitCount_le b
        split_ifs
        · simp only
          omega
        · exact this
      · rcases List.mem_or_eq_of_mem_set hl with hl | rfl
        · exact h.handing_none l hl
        · exact if_neg hneg
      · rw [size_modifyNode]
        rcases List.mem_or_eq_of_mem_set hl with hl | rfl
        · exact h.rest_lt l hl b hb
        · exact h.rest_lt _ hmem b (List.mem_cons_of_mem _ hb)
      · rw [size_modifyNode]
        rw [hnode] at hb
        split_ifs at hb
        · exact h.nexts_lt i b hb
        · exact h.nexts_lt i b hb
    · cases hs
  | execute j =>
    simp only [Exec.step] at hs
    split at hs
    · rename_i key rest hj
      have := h.handing_none _ (List.mem_of_getElem? hj)
      cases this
    · cases hs
  | leave j =>
    simp only [Exec.step] at hs
    split at hs
    · rw [Option.some.injEq] at hs
      subst hs
      exact ⟨⟨h.waitCount_le, fun l hl => h.handing_none l (List.mem_of_mem_eraseIdx hl),
        fun l hl => h.rest_lt l (List.mem_of_mem_eraseIdx hl), h.nexts_lt⟩, rfl⟩
    · cases hs

end Exec

open Exec in
/-- **Every node once, after its predecessors, and the sink last.** In every state of every run of an
acyclic graph after `go` and `schedule(src)`: no wait count is negative, no node was handed over twice
or before its predecessors had finished, and the sink only after all nodes had finished; and when
nothing is running and no loop is under way, exactly the nodes and the sink were handed over. -/
theorem schedule_exactly_once {cmds : List (Cmd E)} {g : DAG E} (hbuild : Lib.run build empty cmds = some g)
    (hne : 0 < g.size) (hacyclic : Acyclic g.Edge) {sink : E} (hsink : g.Fresh sink) :
    ∃ g', g.go sink = .ok (g.size, g') ∧ ∀ ls s, Lib.run step (start g' g.size) ls = some s →
      (∀ b, 0 ≤ (s.dag.node b).waitCount) ∧ s.executed.Nodup ∧
      (∀ a b, g.Edge a b → b ∈ s.executed → ∃ e ∈ s.finished, (g.node a).executor = some e) ∧
      (g.size + 1 ∈ s.executed → ∀ i < g.size, ∃ e ∈ s.finished, (g.node i).executor = some e) ∧
      (s.running = [] → s.loops = [] →
        ∀ i, s.executed.count i = if i < g.size ∨ i = g.size + 1 then 1 else 0) := by
  have hg := run_build_wellFormed hbuild
  obtain ⟨g', hgo, hready, hsize, hedge, hexec, -⟩ := go_ready hg hacyclic hne hsink
  refine ⟨g', hgo, fun ls s hrun => ?_⟩
  have h := run_inv hready hrun
  have hnodup := (List.nodup_append.mp h.reached_nodup).2.1
  have hfinished : ∀ a < g.size, Issued g' g.size s.finished a →
      ∃ e ∈ s.finished, (g.node a).executor = some e := by
    intro a ha hissued
    rw [← hexec a ha]
    exact hissued.finished (by omega)
  refine ⟨fun b => ?_, hnodup, fun a b hab hb => ?_, fun hs i hi => ?_, fun hr hl i => ?_⟩
  · rw [h.waitCount_eq]
    exact Int.natCast_nonneg _
  · have hab' := (hedge a b).mpr (Or.inl hab)
    exact hfinished a (hg.edge_lt a b hab).1 (h.issued_of_executed hready hb hab')
  · refine hfinished i hi (h.issued_of_path hready hs (fun a ha hane => ?_) i (by omega) (by omega))
    obtain ⟨b, hab⟩ := goEdge_leads hg.toCounted hacyclic hne a (by omega) (by omega)
    exact ⟨b, (hedge a b).mpr hab⟩
  · split_ifs with hi
    · refine List.count_eq_one_of_mem hnodup (h.executed_of_idle hready hr hl i (by omega) (by omega))
    · refine List.count_eq_zero.mpr fun hmem => hi ?_
      have := h.executed_lt hmem
      omega

/-- The graph of the unit test, with one edge doubled. -/
def testCmds : List (Cmd Nat) :=
  [.add 0, .add 1, .add 2, .add 3, .add 4, .dependency 0 3, .dependency 1 3, .dependency 2 4,
    .dependency 3 4, .dependency 3 4]

/-- A run in which the loops overlap: an executor finishes while the loop that handed it over is still under way. -/
def testRun : List (Exec.Label Nat) :=
  [.decrement 0, .execute 0, .finish 0, .decrement 1, .leave 1, .decrement 0, .execute 0, .finish 1, .decrement 1, .execute 1,
    .finish 3, .decrement 2, .decrement 2, .leave 2, .leave 1, .decrement 0, .execute 0, .finish 2, .decrement 1, .execute 1,
    .finish 4, .decrement 2, .execute 2, .finish 5, .leave 3, .leave 2, .leave 1, .leave 0]

theorem schedule_exactly_once_test :
    ∃ g, Lib.run build empty testCmds = some g ∧ ∃ g', g.go 5 = .ok (5, g') ∧
      ∃ s, Lib.run Exec.step (Exec.start g' 5) testRun = some s ∧ s.running = [] ∧ s.loops = [] ∧
        ∀ i, s.executed.count i = if i < 5 ∨ i = 6 then 1 else 0 := by
  obtain ⟨g, hg⟩ : ∃ g, Lib.run build (empty : DAG Nat) testCmds = some g := ⟨_, rfl⟩
  have hsome := Option.some.inj hg
  have hrank : ∀ a < 5, ∀ b ∈ (g.node a).nexts, a < b := by
    rw [← hsome]
    decide
  have hfresh : ∀ i < 5, (g.node i).executor ≠ some 5 := by
    rw [← hsome]
    decide
  have hsize : g.size = 5 := by
    rw [← hsome]
    rfl
  have hacyclic : Acyclic g.Edge := Lib.acyclic_of_rank id fun a b hab => by
    have ha := ((run_build_wellFormed hg).edge_lt a b hab).1
    exact hrank a (by omega) b hab
  obtain ⟨g', hgo, hrun⟩ := schedule_exactly_once hg (by omega) hacyclic
    (show g.Fresh 5 from fun i hi => hfresh i (by omega))
  rw [hsize] at hgo hrun
  have hends : (Lib.run Exec.step (Exec.start g' 5) testRun).map (fun s => (s.running, s.loops)) = some ([], []) := by
    rw [← hsome] at hgo
    exact (congrArg (fun r => match r with
      | .ok p => (Lib.run Exec.step (Exec.start p.2 5) testRun).map fun s : Exec Nat => (s.running, s.loops)
      | .error _ => none) hgo).symm
  obtain ⟨s, hs, hidle⟩ := Option.map_eq_some_iff.mp hends
  obtain ⟨hrunning, hloops⟩ := Prod.mk.inj hidle
  exact ⟨g, hg, g', hgo, s, hs, hrunning, hloops, (hrun testRun s hs).2.2.2.2 hrunning hloops⟩

end Raster.DAG
