import LinkClosure.Graph.Frame
import LinkClosure.Proofs.Graph.Built
import Mathlib

/-!
# Rows by variables

A frame numbers the variables of a graph without repetition. Its edges are the
stored levels by number, and a row that is written back to variables gives
each variable the level that the two passes agree on for its number.
-/

set_option autoImplicit false

namespace LinkClosure

theorem levelOfPasses?_isSome {low : Option (Nat × Causes)} {high : Option (Nat × Level)} :
    (levelOfPasses? low high).isSome ↔
      ∃ x, low = some x ∧
        (Weight.isDelayDistance x.1 = true ∨ high.isSome ∨ x.2.isEmpty = false) := by
  cases low with
  | none => simp [levelOfPasses?]
  | some x =>
    by_cases hd : Weight.isDelayDistance x.1 = true
    · simp [levelOfPasses?, hd]
    · cases high with
      | none => by_cases hc : x.2.isEmpty = true <;> simp [levelOfPasses?, hd, hc]
      | some y => simp [levelOfPasses?, hd]

theorem levelOfPasses?_eq_some {low : Option (Nat × Causes)} {high : Option (Nat × Level)}
    {l : Level} (hl : l.isDelayed = false) :
    levelOfPasses? low high = some l ↔
      ∃ x d, low = some x ∧ Weight.isDelayDistance x.1 = false ∧ high = some (d, l) := by
  cases low with
  | none => simp [levelOfPasses?]
  | some x =>
    have hne : ∀ c, Level.delayed c ≠ l := by
      rintro c rfl
      cases hl
    by_cases hd : Weight.isDelayDistance x.1 = true
    · simp [levelOfPasses?, hd, hne]
    · rw [Bool.not_eq_true] at hd
      cases high with
      | none => by_cases hc : x.2.isEmpty = true <;> simp [levelOfPasses?, hd, hc, hne]
      | some y => simp [levelOfPasses?, hd, Prod.ext_iff]

/-- A level of a row is the one of the high pass, or a delay for the causes of the low
pass. -/
theorem levelOfPasses?_cases {low : Option (Nat × Causes)} {high : Option (Nat × Level)}
    {l : Level} (h : levelOfPasses? low high = some l) :
    (∃ x, low = some x ∧ l = .delayed x.2) ∨ ∃ y, high = some y ∧ l = y.2 := by
  cases low with
  | none => cases h
  | some x =>
    by_cases hd : Weight.isDelayDistance x.1 = true
    · exact .inl ⟨x, rfl, by simpa [levelOfPasses?, hd] using h.symm⟩
    · cases high with
      | none =>
        by_cases hc : x.2.isEmpty = true
        · simp [levelOfPasses?, hd, hc] at h
        · exact .inl ⟨x, rfl, by simpa [levelOfPasses?, hd, hc] using h.symm⟩
      | some y => exact .inr ⟨y, rfl, by simpa [levelOfPasses?, hd] using h.symm⟩

namespace Adjacency

variable {n : Nat}

def levelAt? (edges : Adjacency n) (start : Fin n) (floor : Option Level) (i : Fin n) :
    Option Level :=
  if i = start then some .staticallyAssigned
  else levelOfPasses? ((edges.lowSearch start floor).best? i) ((edges.highSearch start floor).best? i)

def Ordered (edges : Adjacency n) : Prop :=
  ∀ u : Fin n, (edges.get u).Pairwise fun e e' => e.1 < e'.1

theorem Ordered.nodup {edges : Adjacency n} (h : edges.Ordered) (u : Fin n) :
    (edges.get u).Nodup := by
  apply (h u).imp
  rintro e _ hlt rfl
  exact Nat.lt_irrefl _ hlt

theorem row_eq_filterMap (edges : Adjacency n) (start : Fin n) (floor : Option Level) :
    edges.row start floor =
      (List.finRange n).filterMap fun i =>
        (edges.levelAt? start floor i).map fun l => (i.val, l) := by
  rw [row, assembleRow]
  refine List.filterMap_congr fun i _ => ?_
  rw [levelAt?]
  split_ifs <;> rfl

end Adjacency

namespace Frame

def node (f : Frame) (i : Fin f.nodes.size) : Variable := f.nodes.toVector.get i

def Distinct (f : Frame) : Prop := f.nodes.toList.Nodup

theorem node_inj {f : Frame} (hf : f.Distinct) {i j : Fin f.nodes.size}
    (h : f.node i = f.node j) : i = j := by
  apply Fin.ext
  exact (List.Nodup.getElem_inj_iff hf).1 h

theorem position?_eq_some {f : Frame} (hf : f.Distinct) {v : Variable} {i : Fin f.nodes.size} :
    f.position? v = some i ↔ f.node i = v := by
  rw [position?, Array.finIdxOf?_eq_some_iff]
  refine ⟨And.left, fun h => ⟨h, fun j hj hjv => ?_⟩⟩
  have : j = i := node_inj hf (hjv.trans h.symm)
  omega

theorem position?_node {f : Frame} (hf : f.Distinct) (i : Fin f.nodes.size) :
    f.position? (f.node i) = some i := (position?_eq_some hf).2 rfl

def namedEntries (f : Frame) (start : Fin f.nodes.size) (floor : Option Level) :
    List (Variable × Level) :=
  (List.finRange f.nodes.size).filterMap fun i =>
    (f.edges.levelAt? start floor i).map fun l => (f.node i, l)

theorem named_row (f : Frame) (start : Fin f.nodes.size) (floor : Option Level) :
    f.named (f.edges.row start floor) = .ofList (f.namedEntries start floor) := by
  rw [named, Adjacency.row_eq_filterMap, List.filterMap_filterMap, namedEntries]
  congr 1
  refine List.filterMap_congr fun i _ => ?_
  cases f.edges.levelAt? start floor i with
  | none => rfl
  | some l =>
    have hnode : f.nodes[i.val]? = some (f.node i) := Array.getElem?_eq_getElem i.isLt
    simp only [Option.map_some, Option.bind_some, hnode]

theorem mem_namedEntries {f : Frame} {start : Fin f.nodes.size} {floor : Option Level}
    {v : Variable} {l : Level} :
    (v, l) ∈ f.namedEntries start floor ↔
      ∃ i, f.node i = v ∧ f.edges.levelAt? start floor i = some l := by
  simp only [namedEntries, List.mem_filterMap, List.mem_finRange, true_and,
    Option.map_eq_some_iff, Prod.mk.injEq]
  constructor
  · rintro ⟨i, l', hl, hv, rfl⟩
    exact ⟨i, hv, hl⟩
  · rintro ⟨i, hv, hl⟩
    exact ⟨i, l, hl, hv, rfl⟩

theorem nodup_namedEntries {f : Frame} (hf : f.Distinct) (start : Fin f.nodes.size)
    (floor : Option Level) : ((f.namedEntries start floor).map Prod.fst).Nodup := by
  rw [namedEntries, List.map_filterMap]
  refine List.Nodup.filterMap (fun i j v hi hj => ?_) (List.nodup_finRange _)
  simp only [Option.map_map, Option.mem_def, Option.map_eq_some_iff, Function.comp_apply] at hi hj
  obtain ⟨_, _, rfl⟩ := hi
  obtain ⟨_, _, hij⟩ := hj
  exact node_inj hf hij.symm

theorem get?_named_row {f : Frame} (hf : f.Distinct) (start : Fin f.nodes.size)
    (floor : Option Level) (v : Variable) :
    (f.named (f.edges.row start floor)).get? v =
      (f.position? v).bind (f.edges.levelAt? start floor) := by
  apply Option.ext
  intro l
  rw [named_row, SortedMap.get?_ofList_iff (nodup_namedEntries hf start floor),
    mem_namedEntries, Option.bind_eq_some_iff]
  simp only [position?_eq_some hf]

theorem mem_keys_named_row {f : Frame} (hf : f.Distinct) {start : Fin f.nodes.size}
    {floor : Option Level} {v : Variable} :
    v ∈ (f.named (f.edges.row start floor)).keys ↔
      ∃ i, f.position? v = some i ∧ (f.edges.levelAt? start floor i).isSome := by
  rw [SortedMap.mem_keys_iff, get?_named_row hf]
  cases f.position? v <;> simp

theorem links_eq {f : Frame} {s : Variable} {i : Fin f.nodes.size} (hs : f.position? s = some i)
    (floor : Option Level) : f.links s floor = .ok (f.named (f.edges.row i floor)) := by
  rw [links, hs]

theorem distinct_ofGraph (g : Graph) : (ofGraph g).Distinct := by
  simpa [Distinct, ofGraph] using g.adjacency.nodup_keys

theorem mem_nodes_ofGraph {g : Graph} {v : Variable} :
    v ∈ (ofGraph g).nodes ↔ g.contains v = true := by
  rw [ofGraph, List.mem_toArray, Graph.mem_keys]

theorem contains_node {g : Graph} (i : Fin (ofGraph g).nodes.size) :
    g.contains ((ofGraph g).node i) = true := mem_nodes_ofGraph.1 (Array.getElem_mem i.isLt)

theorem exists_position? {g : Graph} {v : Variable} (h : g.contains v = true) :
    ∃ i, (ofGraph g).position? v = some i := by
  obtain ⟨i, hi, hv⟩ := Array.getElem_of_mem (mem_nodes_ofGraph.2 h)
  exact ⟨⟨i, hi⟩, (position?_eq_some (distinct_ofGraph g)).2 hv⟩

theorem exists_row {g : Graph} {s : Variable} (hs : g.contains s = true) (floor : Option Level) :
    ∃ i row, (ofGraph g).node i = s ∧ (ofGraph g).links s floor = .ok row ∧
      (∀ j, row.get? ((ofGraph g).node j) = (ofGraph g).edges.levelAt? i floor j) ∧
      ∀ v l, row.get? v = some l → g.contains v = true := by
  have hdistinct := distinct_ofGraph g
  obtain ⟨i, hi⟩ := exists_position? hs
  refine ⟨i, _, (position?_eq_some hdistinct).1 hi, links_eq hi floor, ?_, ?_⟩
  · intro j
    rw [get?_named_row hdistinct, position?_node hdistinct, Option.bind_some]
  · intro v l hv
    rw [get?_named_row hdistinct] at hv
    obtain ⟨j, hj, _⟩ := Option.bind_eq_some_iff.1 hv
    rw [← (position?_eq_some hdistinct).1 hj]
    exact contains_node j

theorem exists_node {g : Graph} {v : Variable} (h : g.contains v = true) :
    ∃ j, (ofGraph g).node j = v := by
  obtain ⟨j, hj⟩ := exists_position? h
  exact ⟨j, (position?_eq_some (distinct_ofGraph g)).1 hj⟩

theorem size_ofGraph {g : Graph} (hg : g.WellFormed) : (ofGraph g).nodes.size = g.size := by
  rw [← hg.length_keys]
  simp [ofGraph]

theorem edges_ofGraph {g : Graph} (i : Fin (ofGraph g).nodes.size) :
    (ofGraph g).edges.get i = numberedEdges (ofGraph g).nodes (g.edges ((ofGraph g).node i)) :=
  Vector.getElem_ofFn i.isLt

theorem mem_edges_ofGraph {g : Graph} {i j : Fin (ofGraph g).nodes.size} {l : Level} :
    (j, l) ∈ (ofGraph g).edges.get i ↔
      g.level? ((ofGraph g).node i) ((ofGraph g).node j) = some l := by
  rw [edges_ofGraph, Graph.level?, ← SortedMap.mem_entries_iff, numberedEdges, List.mem_filterMap]
  constructor
  · rintro ⟨e, he, h⟩
    obtain ⟨k, hk, hkl⟩ := Option.map_eq_some_iff.1 h
    obtain ⟨rfl, rfl⟩ := Prod.mk.inj hkl
    rwa [(position?_eq_some (distinct_ofGraph g)).1 hk]
  · intro h
    refine ⟨_, h, ?_⟩
    have hj := position?_node (distinct_ofGraph g) j
    rw [position?] at hj
    rw [hj, Option.map_some]

theorem lt_of_compare_node {g : Graph} {i j : Fin (ofGraph g).nodes.size}
    (h : compare ((ofGraph g).node i) ((ofGraph g).node j) = .lt) : i < j := by
  by_contra hle
  rcases Nat.lt_or_eq_of_le (Nat.le_of_not_lt hle) with hlt | heq
  · have hback := List.pairwise_iff_get.1 g.adjacency.increasing_keys j i hlt
    exact Std.OrientedCmp.not_lt_of_lt h hback
  · rw [Fin.ext heq] at h
    exact ne_of_compare_lt h rfl

theorem ordered_ofGraph (g : Graph) : (ofGraph g).edges.Ordered := by
  intro u
  have hnode : ∀ (v : Variable) (k : Fin (ofGraph g).nodes.size),
      (ofGraph g).nodes.finIdxOf? v = some k → (ofGraph g).node k = v :=
    fun _ _ h => (position?_eq_some (distinct_ofGraph g)).1 h
  rw [edges_ofGraph, numberedEdges, List.pairwise_filterMap]
  apply (g.edges ((ofGraph g).node u)).increasing.imp
  intro e e' hlt x hx y hy
  obtain ⟨k, hk, rfl⟩ := Option.map_eq_some_iff.1 hx
  obtain ⟨k', hk', rfl⟩ := Option.map_eq_some_iff.1 hy
  apply lt_of_compare_node
  rwa [hnode _ _ hk, hnode _ _ hk']

end Frame

end LinkClosure
