import Raster.Parallel.DAG

/-!
# `Scheduler`: a graph of named nodes

`raster/parallel/Scheduler.h`. `add` gives a node its key and keeps the names it is followed by; `setDependency` turns
the names into edges. It looks each name up with `operator[]`, so a name that was never added gets the key `0`, which
is the key of the first node.
-/

namespace Raster

/-- `Graph::Edge`. -/
structure Graph.Edge where
  node : String
  next : List String
  deriving DecidableEq, Repr

/-- The graph, the names as they were added and the keys of the names. -/
structure Scheduler (E : Type) where
  dag : DAG E
  graph : List Graph.Edge
  map : String → Option Nat

namespace Scheduler

variable {E : Type}

def empty : Scheduler E := ⟨DAG.empty, [], fun _ => none⟩

def add [DecidableEq E] (s : Scheduler E) (executor : E) (name : String) (next : List String) : Scheduler E :=
  let (key, dag) := s.dag.add executor
  { dag, graph := s.graph ++ [⟨name, next⟩], map := Function.update s.map name (some key) }

/-- `map_[name]`, which is inserted with the key `0` when it is not there. -/
def lookup (map : String → Option Nat) (name : String) : Nat × (String → Option Nat) :=
  match map name with
  | some key => (key, map)
  | none => (0, Function.update map name (some 0))

/-- The edge to one name. -/
def depend (s : Scheduler E) (p q : String) : Scheduler E :=
  let (a, map) := lookup s.map p
  let (b, map) := lookup map q
  { s with dag := s.dag.dependency a b, map }

def setDependency (s : Scheduler E) : Scheduler E :=
  s.graph.foldl (fun s p => p.next.foldl (fun s q => s.depend p.node q) s) s

/-! ### The keys of names -/

/-- The key a lookup of the name gives. -/
def keyOf (map : String → Option Nat) (name : String) : Nat := (map name).getD 0

theorem lookup_fst (map : String → Option Nat) (name : String) : (lookup map name).1 = keyOf map name := by
  unfold lookup keyOf
  cases map name <;> rfl

theorem keyOf_lookup (map : String → Option Nat) (name : String) : keyOf (lookup map name).2 = keyOf map := by
  funext other
  unfold lookup keyOf
  cases h : map name with
  | some key => rfl
  | none =>
    by_cases hother : other = name
    · subst hother
      simp only [Function.update_self, h]
      rfl
    · simp only [Function.update_of_ne hother]

theorem depend_spec (s : Scheduler E) (p q : String) :
    (s.depend p q).dag = s.dag.dependency (keyOf s.map p) (keyOf s.map q) ∧
      keyOf (s.depend p q).map = keyOf s.map := by
  unfold depend
  refine ⟨?_, ?_⟩
  · show s.dag.dependency (lookup s.map p).1 (lookup (lookup s.map p).2 q).1 = _
    rw [lookup_fst, lookup_fst, keyOf_lookup]
  · show keyOf (lookup (lookup s.map p).2 q).2 = _
    rw [keyOf_lookup, keyOf_lookup]

theorem foldl_depend (s : Scheduler E) (p : String) (next : List String)
    (hkeys : ∀ name, keyOf s.map name < s.dag.size) :
    let s' := next.foldl (fun s q => s.depend p q) s
    s'.dag.size = s.dag.size ∧ keyOf s'.map = keyOf s.map ∧
      ∀ i, (s'.dag.node i).nexts =
        (s.dag.node i).nexts ++ if i = keyOf s.map p then next.map (keyOf s.map) else [] := by
  induction next generalizing s with
  | nil => exact ⟨rfl, rfl, by simp⟩
  | cons q next ih =>
    obtain ⟨hdag, hkeyOf⟩ := depend_spec s p q
    have hsize' : (s.depend p q).dag.size = s.dag.size := by rw [hdag, DAG.size_dependency]
    obtain ⟨hs, hk, hn⟩ := ih (s.depend p q) (by rw [hkeyOf, hsize']; exact hkeys)
    refine ⟨hs.trans hsize', hk.trans hkeyOf, fun i => ?_⟩
    rw [List.foldl_cons, hn, hkeyOf, hdag, DAG.node_dependency _ (hkeys p) (hkeys q)]
    by_cases hi : i = keyOf s.map p
    · simp only [if_pos hi, List.map_cons, List.append_assoc, List.singleton_append]
    · simp only [if_neg hi, List.append_nil]

/-! ### Sequences of `add` -/

/-- A call of `add`. -/
structure Call (E : Type) where
  executor : E
  name : String
  next : List String

/-- The scheduler after the calls. -/
def build [DecidableEq E] (calls : List (Call E)) : Scheduler E :=
  calls.foldl (fun s c => s.add c.executor c.name c.next) empty

/-- The scheduler after calls with distinct names: the keys count the calls, and there are no edges yet. -/
structure Named (calls : List (Call E)) (s : Scheduler E) : Prop where
  size_eq : s.dag.size = calls.length
  nexts_eq : ∀ i, (s.dag.node i).nexts = []
  graph_eq : s.graph = calls.map fun c => ⟨c.name, c.next⟩
  map_eq : ∀ i (hi : i < calls.length), s.map calls[i].name = some i
  map_none : ∀ name, name ∉ calls.map Call.name → s.map name = none

theorem Named.add [DecidableEq E] {calls : List (Call E)} {s : Scheduler E} (h : Named calls s) (c : Call E)
    (hnew : c.name ∉ calls.map Call.name) : Named (calls ++ [c]) (s.add c.executor c.name c.next) where
  size_eq := by
    rw [List.length_append, ← h.size_eq]
    exact DAG.size_addNode ..
  nexts_eq i := by
    show (DAG.node (DAG.addNode _ (some c.executor)).2 i).nexts = []
    rw [DAG.node_addNode]
    split_ifs
    · rfl
    · exact h.nexts_eq i
  graph_eq := by
    rw [List.map_append, ← h.graph_eq]
    rfl
  map_eq i hi := by
    rw [List.length_append, List.length_singleton] at hi
    show Function.update s.map c.name (some s.dag.size) _ = some i
    by_cases hlt : i < calls.length
    · rw [List.getElem_append_left hlt]
      have hne : calls[i].name ≠ c.name := fun heq =>
        hnew (heq ▸ List.mem_map_of_mem (List.getElem_mem hlt))
      rw [Function.update_of_ne hne, h.map_eq i hlt]
    · obtain rfl : i = calls.length := by omega
      rw [List.getElem_append_right (le_refl _)]
      simp only [Nat.sub_self, List.getElem_singleton]
      rw [Function.update_self, h.size_eq]
  map_none name hname := by
    rw [List.map_append, List.mem_append, not_or] at hname
    show Function.update s.map c.name (some s.dag.size) name = none
    have hne : name ≠ c.name := fun heq => hname.2 (heq ▸ List.mem_singleton_self _)
    rw [Function.update_of_ne hne, h.map_none name hname.1]

theorem named_build [DecidableEq E] (calls : List (Call E)) (hdistinct : (calls.map Call.name).Nodup) :
    Named calls (build calls) := by
  induction calls using List.reverseRecOn with
  | nil =>
    refine ⟨rfl, fun i => ?_, rfl, fun i hi => absurd hi (Nat.not_lt_zero i), fun _ _ => rfl⟩
    rw [DAG.node_of_size_le _ (Nat.zero_le i)]
  | append_singleton calls c ih =>
    rw [List.map_append, List.nodup_append] at hdistinct
    have hnew : c.name ∉ calls.map Call.name := fun hmem =>
      hdistinct.2.2 c.name hmem c.name (List.mem_singleton_self _) rfl
    have hadd := (ih hdistinct.1).add c hnew
    unfold build
    rw [List.foldl_append]
    exact hadd

section Edges

variable {calls : List (Call E)} {s : Scheduler E}

theorem Named.keyOf_eq (h : Named calls s) (i : Nat) (hi : i < calls.length) : keyOf s.map calls[i].name = i := by
  rw [keyOf, h.map_eq i hi, Option.getD_some]

theorem Named.keyOf_unknown (h : Named calls s) {name : String} (hname : name ∉ calls.map Call.name) :
    keyOf s.map name = 0 := by
  rw [keyOf, h.map_none name hname, Option.getD_none]

theorem Named.keyOf_lt (h : Named calls s) (hne : 0 < calls.length) (name : String) : keyOf s.map name < s.dag.size := by
  rw [h.size_eq]
  by_cases hname : name ∈ calls.map Call.name
  · obtain ⟨c, hc, rfl⟩ := List.mem_map.mp hname
    obtain ⟨i, hi, rfl⟩ := List.getElem_of_mem hc
    rw [h.keyOf_eq i hi]
    exact hi
  · rw [h.keyOf_unknown hname]
    exact hne

theorem Named.nexts_setDependency (h : Named calls s) (i : Nat) :
    (s.setDependency.dag.node i).nexts = (calls[i]?.map fun c => c.next.map (keyOf s.map)).getD [] := by
  -- The calls before `rest` are done: each of them gave its edges to the node of its own index.
  have hloop : ∀ done rest, calls = done ++ rest →
      let s' := (done.map fun c => (⟨c.name, c.next⟩ : Graph.Edge)).foldl
        (fun s p => p.next.foldl (fun s q => s.depend p.node q) s) s
      s'.dag.size = s.dag.size ∧ keyOf s'.map = keyOf s.map ∧
        ∀ i, (s'.dag.node i).nexts = (done[i]?.map fun c => c.next.map (keyOf s.map)).getD [] := by
    intro done
    induction done using List.reverseRecOn with
    | nil => exact fun rest _ => ⟨rfl, rfl, h.nexts_eq⟩
    | append_singleton done c ih =>
      intro rest hcalls
      rw [List.append_assoc, List.singleton_append] at hcalls
      obtain ⟨hsize, hkeyOf, hnexts⟩ := ih (c :: rest) hcalls
      rw [List.map_append, List.foldl_append]
      obtain ⟨hsize', hkeyOf', hnexts'⟩ := foldl_depend _ c.name c.next
        (by rw [hkeyOf, hsize]; exact h.keyOf_lt (by simp [hcalls]))
      have hkey : keyOf s.map c.name = done.length := by
        have hlt : done.length < calls.length := by simp [hcalls]
        have hget : calls[done.length] = c := by simp [hcalls]
        rw [← hget, h.keyOf_eq _ hlt]
      refine ⟨hsize'.trans hsize, hkeyOf'.trans hkeyOf, fun i => (hnexts' i).trans ?_⟩
      rw [hnexts, hkeyOf, hkey]
      rcases Nat.lt_trichotomy i done.length with hi | rfl | hi
      · rw [if_neg (by omega), List.append_nil, List.getElem?_append_left hi]
      · simp
      · rw [if_neg (by omega), List.append_nil, List.getElem?_eq_none (by omega), List.getElem?_eq_none (by simp; omega)]
  rw [setDependency, h.graph_eq]
  exact (hloop calls [] (List.append_nil calls).symm).2.2 i

theorem Named.keyOf_eq_iff (h : Named calls s) {name : String} (hname : name ∈ calls.map Call.name) (i : Nat)
    (hi : i < calls.length) : keyOf s.map name = i ↔ name = calls[i].name := by
  constructor
  · obtain ⟨c, hc, rfl⟩ := List.mem_map.mp hname
    obtain ⟨k, hk, rfl⟩ := List.getElem_of_mem hc
    rw [h.keyOf_eq k hk]
    rintro rfl
    rfl
  · rintro rfl
    exact h.keyOf_eq i hi

theorem Named.keyOf_lt_length (h : Named calls s) {i : Nat} (hi : calls.length ≤ i) (hne : 0 < calls.length)
    (name : String) : keyOf s.map name ≠ i := by
  have hlt := h.keyOf_lt hne name
  rw [h.size_eq] at hlt
  omega

end Edges

/-! ### The named edges -/

/-- There is one edge from a node to another for each time the one names the other, and there are no other edges. -/
def NamedEdges [DecidableEq E] (calls : List (Call E)) : Prop :=
  ∀ a b, ((build calls).setDependency.dag.node a).nexts.count b =
    match calls[a]?, calls[b]? with
    | some p, some q => p.next.count q.name
    | _, _ => 0

/-- Each name that a node is followed by was added. -/
def AllAdded (calls : List (Call E)) : Prop := ∀ c ∈ calls, ∀ q ∈ c.next, q ∈ calls.map Call.name

/-- **The edges of `setDependency` are the named ones exactly when all the names were added.** -/
theorem namedEdges_iff [DecidableEq E] (calls : List (Call E)) (hdistinct : (calls.map Call.name).Nodup) :
    NamedEdges calls ↔ AllAdded calls := by
  have h := named_build calls hdistinct
  unfold NamedEdges
  simp only [h.nexts_setDependency]
  constructor
  · intro hedges c hc q hq
    by_contra hunknown
    obtain ⟨a, ha, rfl⟩ := List.getElem_of_mem hc
    have hzero : 0 < calls.length := Nat.zero_lt_of_lt ha
    have hcount := hedges a 0
    rw [List.getElem?_eq_getElem ha, List.getElem?_eq_getElem hzero, Option.map_some, Option.getD_some] at hcount
    -- The key `0` stands for the first name and for the unknown one.
    obtain ⟨before, after, hnext⟩ := List.append_of_mem hq
    have hle : ∀ names : List String, names.count calls[0].name ≤ (names.map (keyOf (build calls).map)).count 0 := by
      intro names
      conv_rhs => rw [← h.keyOf_eq 0 hzero]
      exact List.count_le_count_map
    have hbefore := hle before
    have hafter := hle after
    have hne : q ≠ calls[0].name := fun heq => hunknown (heq ▸ List.mem_map_of_mem (List.getElem_mem hzero))
    simp only [hnext, List.map_append, List.map_cons, List.count_append, h.keyOf_unknown hunknown,
      List.count_cons_self, List.count_cons_of_ne hne] at hcount
    omega
  · intro hadded a b
    cases ha : calls[a]? with
    | none => rfl
    | some p =>
      have hp := List.mem_of_getElem? ha
      rw [Option.map_some, Option.getD_some]
      cases hb : calls[b]? with
      | none =>
        refine List.count_eq_zero.mpr fun hmem => ?_
        obtain ⟨q, -, hq⟩ := List.mem_map.mp hmem
        exact h.keyOf_lt_length (List.getElem?_eq_none_iff.mp hb) (List.length_pos_of_mem hp) q hq
      | some c =>
        obtain ⟨hlt, hget⟩ := List.getElem?_eq_some_iff.mp hb
        subst hget
        show _ = p.next.count calls[b].name
        rw [List.count_eq_countP, List.count_eq_countP, List.countP_map]
        refine List.countP_congr fun q hq => ?_
        simp only [Function.comp_apply, beq_iff_eq]
        exact h.keyOf_eq_iff (hadded p hp q hq) b hlt

/-- A forward reference and a name that is given twice. -/
theorem namedEdges_iff_forward :
    NamedEdges [(⟨1, "a", ["b", "b"]⟩ : Call Nat), ⟨2, "b", []⟩] ↔
      AllAdded [(⟨1, "a", ["b", "b"]⟩ : Call Nat), ⟨2, "b", []⟩] :=
  namedEdges_iff _ (by decide)

/-- A node that is followed by a name that was not added is followed by itself. -/
theorem namedEdges_false_unknown : ¬ NamedEdges [(⟨1, "a", ["b"]⟩ : Call Nat)] := by
  intro h
  have hcount : 1 = 0 := h 0 0
  cases hcount

end Scheduler

end Raster
