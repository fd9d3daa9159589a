import LinkClosure.Graph
import LinkClosure.Proofs.Merging
import Mathlib.Tactic.SplitIfs

/-!
# Graphs that are built by adding nodes

Every operation on a graph is described by what it does to the nodes and to the
stored levels. From that follows what all graphs have that are built from the
empty one: the order of insertion lists each node once, edges end at nodes, no
edge ends at a return value and no stored level is the independent one.
-/

set_option autoImplicit false

namespace LinkClosure

namespace Level

theorem min_ne_independent {a b : Level} (ha : a ≠ independent) (hb : b ≠ independent) :
    a.min b ≠ independent := by
  cases a <;> cases b <;> simp_all [min, rank]

theorem reverse_ne_independent {a : Level} (h : a ≠ independent) : a.reverse ≠ independent := by
  cases a <;> simp_all [reverse]

end Level

namespace Graph

theorem level?_empty (u v : Variable) : empty.level? u v = none := rfl

theorem level?_eq_some {g : Graph} {u v : Variable} {l : Level} :
    g.level? u v = some l ↔ ∃ es, (u, es) ∈ g.adjacency.entries ∧ (v, l) ∈ es.entries := by
  simp only [level?, edges, SortedMap.mem_entries_iff]
  cases g.adjacency.get? u with
  | none => simp [SortedMap.get?_empty]
  | some es => simp

theorem insertNode_of_contains {g : Graph} {v : Variable} (h : g.contains v = true) :
    g.insertNode v = g := if_pos h

theorem insertNode_of_new {g : Graph} {v : Variable} (h : ¬ g.contains v = true) :
    g.insertNode v =
      { g with adjacency := g.adjacency.insert v .empty, order := g.order ++ [v] } := if_neg h

theorem contains_insertNode (g : Graph) (v w : Variable) :
    (g.insertNode v).contains w = (decide (w = v) || g.contains w) := by
  by_cases hv : g.contains v = true
  · rw [insertNode_of_contains hv]
    by_cases hw : w = v
    · simp [hw, hv]
    · simp [hw]
  · rw [insertNode_of_new hv]
    simp only [contains, SortedMap.contains, SortedMap.get?_insert]
    by_cases hw : w = v <;> simp [hw]

theorem level?_insertNode (g : Graph) (w u v : Variable) :
    (g.insertNode w).level? u v = g.level? u v := by
  by_cases hw : g.contains w = true
  · rw [insertNode_of_contains hw]
  · rw [insertNode_of_new hw]
    simp only [level?, edges, SortedMap.get?_insert]
    by_cases hu : u = w
    · have hnone : g.adjacency.get? w = none := by
        simpa [contains, SortedMap.contains] using hw
      simp [hu, hnone]
    · simp [hu]

theorem contains_joinEdge (g : Graph) (a b w : Variable) (l : Level) :
    (g.joinEdge a b l).contains w = (decide (w = a) || g.contains w) := by
  simp only [contains, SortedMap.contains, joinEdge, SortedMap.get?_insertWith]
  by_cases hw : w = a <;> simp [hw]

theorem level?_joinEdge (g : Graph) (a b u v : Variable) (l : Level) :
    (g.joinEdge a b l).level? u v =
      if u = a ∧ v = b then (g.level? a b).merge Level.min (some l) else g.level? u v := by
  simp only [level?, edges, joinEdge, SortedMap.get?_insertWith]
  by_cases hu : u = a
  · subst hu
    have hedges : ((g.adjacency.get? u).map (SortedMap.unionWith Level.min · (.singleton b l))).getD
        (.singleton b l) = ((g.adjacency.get? u).getD .empty).unionWith Level.min (.singleton b l) := by
      cases g.adjacency.get? u with
      | none =>
        apply SortedMap.ext_get?
        intro k
        simp [SortedMap.get?_unionWith, SortedMap.get?_empty]
      | some m => rfl
    rw [if_pos rfl, Option.getD_some, hedges, SortedMap.get?_unionWith, SortedMap.get?_singleton]
    by_cases hv : v = b
    · simp [hv]
    · simp [hv]
  · simp [hu]

def levelWith (g : Graph) (u v : Variable) (l : Level) : Level :=
  ((g.level? u v).map (Level.min · l)).getD l

theorem some_levelWith (g : Graph) (u v : Variable) (l : Level) :
    some (g.levelWith u v l) = (g.level? u v).merge Level.min (some l) := by
  rw [levelWith]
  cases g.level? u v <;> rfl

/-- Both directions of an edge: the way back joins the reverse of what the way out has
become. -/
theorem level?_insertEdge (g : Graph) (u v a b : Variable) (l : Level) :
    (g.insertEdge u v l).level? a b =
      if u.isReturnValue = false ∧ a = v ∧ b = u then
        ((g.joinEdge u v l).level? v u).merge Level.min (some (g.levelWith u v l).reverse)
      else (g.joinEdge u v l).level? a b := by
  have hstored : ((g.joinEdge u v l).insertNode v).level? u v = some (g.levelWith u v l) := by
    rw [level?_insertNode, level?_joinEdge, if_pos ⟨rfl, rfl⟩, some_levelWith]
  simp only [insertEdge]
  by_cases hreturn : u.isReturnValue = true
  · simp [hreturn, level?_insertNode]
  · rw [if_neg hreturn, level?_joinEdge, hstored, Option.getD_some, level?_insertNode,
      level?_insertNode]
    simp [hreturn]

theorem level?_insertEdge_of_return {g : Graph} {u a : Variable} (hu : u.isReturnValue = true)
    (ha : a.isReturnValue = false) (v b : Variable) (l : Level) :
    (g.insertEdge u v l).level? a b = g.level? a b := by
  have hau : a ≠ u := by
    rintro rfl
    rw [hu] at ha
    cases ha
  rw [level?_insertEdge, if_neg (by simp [hu]), level?_joinEdge, if_neg (by simp [hau])]

structure WellFormed (g : Graph) : Prop where
  nodup_order : g.order.Nodup
  mem_order : ∀ v, v ∈ g.order ↔ g.contains v = true
  contains_source : ∀ u v l, g.level? u v = some l → g.contains u = true
  contains_target : ∀ u v l, g.level? u v = some l → g.contains v = true
  ne_independent : ∀ u v l, g.level? u v = some l → l ≠ .independent
  target_not_return : ∀ u v l, g.level? u v = some l → v.isReturnValue = false

theorem wellFormed_empty : empty.WellFormed where
  nodup_order := List.nodup_nil
  mem_order v := by simp [empty, contains, SortedMap.contains, SortedMap.get?_empty]
  contains_source u v l h := by simp [level?_empty] at h
  contains_target u v l h := by simp [level?_empty] at h
  ne_independent u v l h := by simp [level?_empty] at h
  target_not_return u v l h := by simp [level?_empty] at h

theorem WellFormed.insertNode {g : Graph} (hg : g.WellFormed) (w : Variable) :
    (g.insertNode w).WellFormed where
  nodup_order := by
    unfold Graph.insertNode
    split_ifs with hw
    · exact hg.nodup_order
    · have hnew : w ∉ g.order := fun h => hw ((hg.mem_order w).1 h)
      exact List.nodup_append.2 ⟨hg.nodup_order, by simp, by rintro a ha b hb rfl; simp_all⟩
  mem_order v := by
    rw [contains_insertNode]
    unfold Graph.insertNode
    split_ifs with hw
    · by_cases hv : v = w
      · simp [hv, hg.mem_order, hw]
      · simp [hv, hg.mem_order]
    · simp [hg.mem_order, or_comm]
  contains_source u v l h := by
    rw [level?_insertNode] at h
    rw [contains_insertNode, hg.contains_source u v l h, Bool.or_true]
  contains_target u v l h := by
    rw [level?_insertNode] at h
    rw [contains_insertNode, hg.contains_target u v l h, Bool.or_true]
  ne_independent u v l h := hg.ne_independent u v l (level?_insertNode g w u v ▸ h)
  target_not_return u v l h := hg.target_not_return u v l (level?_insertNode g w u v ▸ h)

theorem WellFormed.joinEdge {g : Graph} (hg : g.WellFormed) {a b : Variable} {l : Level}
    (ha : g.contains a = true) (hb : g.contains b = true) (hl : l ≠ .independent)
    (hret : b.isReturnValue = false) : (g.joinEdge a b l).WellFormed := by
  have hcontains : ∀ w, (g.joinEdge a b l).contains w = g.contains w := by
    intro w
    rw [contains_joinEdge]
    by_cases hw : w = a
    · simp [hw, ha]
    · simp [hw]
  have hlevel : ∀ u v m, (g.joinEdge a b l).level? u v = some m →
      g.level? u v = some m ∨ (u = a ∧ v = b ∧ m ≠ .independent) := by
    intro u v m hm
    rw [level?_joinEdge] at hm
    split_ifs at hm with huv
    · refine .inr ⟨huv.1, huv.2, ?_⟩
      cases hold : g.level? a b with
      | none =>
        rw [hold, Option.merge_none_left] at hm
        rwa [← Option.some.inj hm]
      | some k =>
        rw [hold, Option.merge_some_some] at hm
        rw [← Option.some.inj hm]
        exact Level.min_ne_independent (hg.ne_independent a b k hold) hl
    · exact .inl hm
  constructor
  · exact hg.nodup_order
  · intro v
    rw [hcontains]
    exact hg.mem_order v
  · intro u v m hm
    rw [hcontains]
    rcases hlevel u v m hm with h | ⟨rfl, rfl, _⟩
    · exact hg.contains_source u v m h
    · exact ha
  · intro u v m hm
    rw [hcontains]
    rcases hlevel u v m hm with h | ⟨rfl, rfl, _⟩
    · exact hg.contains_target u v m h
    · exact hb
  · intro u v m hm
    rcases hlevel u v m hm with h | ⟨_, _, h⟩
    · exact hg.ne_independent u v m h
    · exact h
  · intro u v m hm
    rcases hlevel u v m hm with h | ⟨rfl, rfl, _⟩
    · exact hg.target_not_return u v m h
    · exact hret

theorem insertNode_joinEdge {g : Graph} {u : Variable} (hu : g.contains u = true) (v : Variable)
    (l : Level) : (g.joinEdge u v l).insertNode v = (g.insertNode v).joinEdge u v l := by
  have hcontains : (g.joinEdge u v l).contains v = g.contains v := by
    rw [contains_joinEdge]
    by_cases hv : v = u
    · simp [hv, hu]
    · simp [hv]
  by_cases hv : g.contains v = true
  · rw [insertNode_of_contains (hcontains.trans hv), insertNode_of_contains hv]
  · have hvu : v ≠ u := fun h => hv (h ▸ hu)
    rw [insertNode_of_new (hcontains ▸ hv), insertNode_of_new hv]
    have hadjacency : (g.joinEdge u v l).adjacency.insert v .empty =
        (g.adjacency.insert v .empty).insertWith (SortedMap.unionWith Level.min) u
          (.singleton v l) := by
      apply SortedMap.ext_get?
      intro k
      simp only [joinEdge, SortedMap.get?_insert, SortedMap.get?_insertWith, Ne.symm hvu, if_false]
      by_cases hk : k = v
      · simp [hk, hvu]
      · simp [hk]
    rw [hadjacency]
    rfl

theorem contains_insertEdge {g : Graph} {w : Variable} (hw : g.contains w = true)
    (u v : Variable) (l : Level) : (g.insertEdge u v l).contains w = true := by
  simp only [insertEdge]
  split_ifs
  · simp [contains_insertNode, contains_joinEdge, hw]
  · simp [contains_insertNode, contains_joinEdge, hw]

theorem contains_insertEdge_iff (g : Graph) (u v w : Variable) (l : Level) :
    (g.insertEdge u v l).contains w = true ↔ w = u ∨ w = v ∨ g.contains w = true := by
  simp only [insertEdge]
  split_ifs
  · simp [contains_insertNode, contains_joinEdge, or_left_comm]
  · simp [contains_insertNode, contains_joinEdge, or_left_comm]

theorem WellFormed.insertEdge {g : Graph} (hg : g.WellFormed) {u v : Variable} {l : Level}
    (hu : g.contains u = true) (hl : l ≠ .independent) (hret : v.isReturnValue = false) :
    (g.insertEdge u v l).WellFormed := by
  have hout : ((g.joinEdge u v l).insertNode v).WellFormed := by
    rw [insertNode_joinEdge hu]
    refine (hg.insertNode v).joinEdge ?_ ?_ hl hret
    · simp [contains_insertNode, hu]
    · simp [contains_insertNode]
  simp only [Graph.insertEdge]
  split_ifs with hreturn
  · exact hout
  · refine hout.joinEdge ?_ ?_ (Level.reverse_ne_independent ?_) (Bool.not_eq_true _ ▸ hreturn)
    · simp [contains_insertNode]
    · simp [contains_insertNode, contains_joinEdge]
    · cases hlevel : ((g.joinEdge u v l).insertNode v).level? u v with
      | none => exact hl
      | some m => exact hout.ne_independent u v m hlevel

theorem WellFormed.insertEdges {u : Variable} (es : List (Variable × Level)) {g : Graph}
    (hg : g.WellFormed) (hu : g.contains u = true)
    (hes : ∀ e ∈ es, e.2 ≠ .independent ∧ e.1.isReturnValue = false) :
    (es.foldl (fun g e => g.insertEdge u e.1 e.2) g).WellFormed := by
  induction es generalizing g with
  | nil => exact hg
  | cons e es ih =>
    obtain ⟨he, hrest⟩ := List.forall_mem_cons.1 hes
    exact ih (hg.insertEdge hu he.1 he.2) (contains_insertEdge hu u e.1 e.2) hrest

theorem refusal?_eq_none {u : Variable} {e : Variable × Level} :
    refusal? u e = none ↔ e.2 ≠ .independent ∧ e.1.isReturnValue = false := by
  unfold refusal?
  split_ifs with hind hret
  · simp [hind]
  · simp [hret]
  · simp [hind, hret]

theorem run_checkEdges (v : Variable) (es : List (Variable × Level)) (g : Graph) :
    (forM es (checkEdge v)).run g =
      match es.findSome? (refusal? v) with
      | some err => .error err g
      | none => .ok () g := by
  induction es with
  | nil => rfl
  | cons e es ih =>
    rw [List.findSome?_cons, List.forM_cons, EStateM.run_bind]
    cases he : refusal? v e with
    | some err => simp [checkEdge, he]
    | none => simp [checkEdge, he, ih]

theorem run_insertEdges (v : Variable) (es : List (Variable × Level)) (g : Graph) :
    (forM es fun e => (modify (insertEdge v e.1 e.2) : Building Unit)).run g =
      .ok () (es.foldl (fun g e => g.insertEdge v e.1 e.2) g) := by
  induction es generalizing g with
  | nil => rfl
  | cons e es ih => exact ih (g.insertEdge v e.1 e.2)

theorem run_addNode (v : Variable) (es : List (Variable × Level)) (g : Graph) :
    (addNode v es).run g =
      if g.frozen then .error (.frozen v.name) g
      else
        match es.findSome? (refusal? v) with
        | some err => .error err g
        | none => .ok () (es.foldl (fun g e => g.insertEdge v e.1 e.2) (g.insertNode v)) := by
  have hcheck := run_checkEdges v es g
  split_ifs with hfrozen
  · simp [addNode, hfrozen]
  · cases hrefusal : es.findSome? (refusal? v) with
    | some err =>
      rw [hrefusal] at hcheck
      simp [addNode, hfrozen, hcheck]
    | none =>
      rw [hrefusal] at hcheck
      simp [addNode, hfrozen, hcheck, run_insertEdges]

/-- An addition that fails has changed nothing by then. -/
theorem eq_of_run_error {v : Variable} {es : List (Variable × Level)} {g g' : Graph}
    {err : GraphError} (h : (addNode v es).run g = .error err g') : g' = g := by
  rw [run_addNode] at h
  split_ifs at h
  · cases h
    rfl
  · split at h
    · cases h
      rfl
    · cases h

/-- The graph that an addition makes, if it succeeds. -/
def add (v : Variable) (edges : List (Variable × Level)) (g : Graph) : Except GraphError Graph :=
  match (addNode v edges).run g with
  | .ok _ g => .ok g
  | .error err _ => .error err

theorem add_eq_ok_iff {v : Variable} {es : List (Variable × Level)} {g g' : Graph} :
    g.add v es = .ok g' ↔ (addNode v es).run g = .ok () g' := by
  unfold add
  split <;> simp [*]

theorem add_eq_error_iff {v : Variable} {es : List (Variable × Level)} {g : Graph}
    {err : GraphError} : g.add v es = .error err ↔ (addNode v es).run g = .error err g := by
  unfold add
  split
  · simp [*]
  · next err' g' h =>
    rw [h, eq_of_run_error h]
    simp

theorem add_eq_ok {g g' : Graph} {v : Variable} {es : List (Variable × Level)}
    (h : g.add v es = .ok g') :
    g.frozen = false ∧ (∀ e ∈ es, e.2 ≠ .independent ∧ e.1.isReturnValue = false) ∧
      g' = es.foldl (fun g e => g.insertEdge v e.1 e.2) (g.insertNode v) := by
  rw [add_eq_ok_iff, run_addNode] at h
  split_ifs at h with hfrozen
  split at h
  · cases h
  · next hnone =>
    cases h
    refine ⟨Bool.not_eq_true _ ▸ hfrozen, fun e he => ?_, rfl⟩
    exact refusal?_eq_none.1 (List.findSome?_eq_none_iff.1 hnone e he)

theorem frozen_insertNode (g : Graph) (v : Variable) : (g.insertNode v).frozen = g.frozen := by
  unfold insertNode
  split_ifs <;> rfl

theorem frozen_insertEdge (g : Graph) (u v : Variable) (l : Level) :
    (g.insertEdge u v l).frozen = g.frozen := by
  simp only [insertEdge]
  split_ifs
  · exact frozen_insertNode _ v
  · exact frozen_insertNode _ v

theorem frozen_insertEdges (u : Variable) (es : List (Variable × Level)) (g : Graph) :
    (es.foldl (fun g e => g.insertEdge u e.1 e.2) g).frozen = g.frozen := by
  induction es generalizing g with
  | nil => rfl
  | cons e es ih => rw [List.foldl_cons, ih, frozen_insertEdge]

theorem add_of_accepted {g : Graph} (hfrozen : g.frozen = false) (v : Variable)
    {es : List (Variable × Level)}
    (hes : ∀ e ∈ es, e.2 ≠ .independent ∧ e.1.isReturnValue = false) :
    g.add v es = .ok (es.foldl (fun g e => g.insertEdge v e.1 e.2) (g.insertNode v)) := by
  have hnone : es.findSome? (refusal? v) = none := by
    rw [List.findSome?_eq_none_iff]
    intro e he
    exact refusal?_eq_none.2 (hes e he)
  rw [add_eq_ok_iff, run_addNode, hnone]
  simp [hfrozen]

theorem frozen_add {g g' : Graph} {v : Variable} {es : List (Variable × Level)}
    (h : g.add v es = .ok g') : g'.frozen = false := by
  obtain ⟨hfrozen, _, rfl⟩ := add_eq_ok h
  rw [frozen_insertEdges, frozen_insertNode, hfrozen]

theorem WellFormed.add {g g' : Graph} (hg : g.WellFormed) {v : Variable}
    {es : List (Variable × Level)} (h : g.add v es = .ok g') : g'.WellFormed := by
  obtain ⟨_, hes, rfl⟩ := add_eq_ok h
  exact (hg.insertNode v).insertEdges es (by simp [contains_insertNode]) hes

/-- The graphs that come about by adding nodes, each time with success. -/
inductive Built : Graph → Prop
  | empty : Built .empty
  | add {g g' : Graph} {v : Variable} {es : List (Variable × Level)} :
      Built g → g.add v es = .ok g' → Built g'

/-- The graph of a list of additions, if all of them succeed. -/
def ofAdditions (as : List (Variable × List (Variable × Level))) : Except GraphError Graph :=
  as.foldlM (fun g a => g.add a.1 a.2) .empty

theorem additions_cons {a : Variable × List (Variable × Level)}
    {as : List (Variable × List (Variable × Level))} {g g' : Graph}
    (h : (a :: as).foldlM (fun g a => g.add a.1 a.2) g = .ok g') :
    ∃ g₁, g.add a.1 a.2 = .ok g₁ ∧ as.foldlM (fun g a => g.add a.1 a.2) g₁ = .ok g' := by
  rw [List.foldlM_cons] at h
  cases hadd : g.add a.1 a.2 with
  | error err =>
    rw [hadd] at h
    cases h
  | ok g₁ =>
    rw [hadd] at h
    exact ⟨g₁, rfl, h⟩

theorem Built.additions {as : List (Variable × List (Variable × Level))} {g g' : Graph}
    (hg : g.Built) (h : as.foldlM (fun g a => g.add a.1 a.2) g = .ok g') : g'.Built := by
  induction as generalizing g with
  | nil =>
    obtain rfl := Except.ok.inj h
    exact hg
  | cons a as ih =>
    obtain ⟨g₁, hadd, hrest⟩ := additions_cons h
    exact ih (.add hg hadd) hrest

theorem Built.of_additions {as : List (Variable × List (Variable × Level))} {g : Graph}
    (h : ofAdditions as = .ok g) : g.Built := .additions .empty h

theorem Built.wellFormed {g : Graph} (h : Built g) : g.WellFormed := by
  induction h with
  | empty => exact wellFormed_empty
  | add _ hadd ih => exact ih.add hadd

theorem adjacency_ext {g g' : Graph} (hnodes : ∀ v, g.contains v = true ↔ g'.contains v = true)
    (hlevels : ∀ u v, g.level? u v = g'.level? u v) : g.adjacency = g'.adjacency := by
  apply SortedMap.ext_get?
  intro u
  have hcontains := hnodes u
  have hlevel := hlevels u
  simp only [contains, SortedMap.contains] at hcontains
  simp only [level?, edges] at hlevel
  cases hu : g.adjacency.get? u with
  | none =>
    cases hu' : g'.adjacency.get? u with
    | none => rfl
    | some es' => simp [hu, hu'] at hcontains
  | some es =>
    cases hu' : g'.adjacency.get? u with
    | none => simp [hu, hu'] at hcontains
    | some es' =>
      rw [hu, hu', Option.getD_some, Option.getD_some] at hlevel
      exact congrArg some (SortedMap.ext_get? hlevel)

theorem mem_keys {g : Graph} {v : Variable} : v ∈ g.adjacency.keys ↔ g.contains v = true :=
  SortedMap.mem_keys_iff

theorem WellFormed.length_keys {g : Graph} (hg : g.WellFormed) :
    g.adjacency.keys.length = g.size := by
  apply List.Perm.length_eq
  apply (List.perm_ext_iff_of_nodup g.adjacency.nodup_keys hg.nodup_order).2
  intro v
  rw [hg.mem_order, mem_keys]

end Graph

end LinkClosure
