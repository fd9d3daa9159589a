import LinkClosure.Proofs.Renaming
import LinkClosure.Proofs.Search.Labels

/-!
# Return values observe and are not observed

Edges leave a return value and none enters it. So a call that adds a return value
changes no edge of any other variable, and all it can leave behind are the return
value and variables that nothing but return values knows. What the graph would be
without such calls is embedded in the graph there is: other numbers, the same
edges, and no way out. Rows are the same in both.
-/

set_option autoImplicit false

namespace LinkClosure

namespace Graph

variable {g g' h : Graph} {u v : Variable} {l : Level} {es : List (Variable × Level)}
  {a : Variable × List (Variable × Level)}

/-- The graph after a call, be it refused or not. -/
def attempt (g : Graph) (a : Variable × List (Variable × Level)) : Graph :=
  match (addNode a.1 a.2).run g with
  | .ok _ g => g
  | .error _ g => g

def ofAttempts (as : List (Variable × List (Variable × Level))) : Graph :=
  as.foldl attempt .empty

theorem attempt_of_ok (h : g.add a.1 a.2 = .ok g') : g.attempt a = g' := by
  rw [attempt, add_eq_ok_iff.1 h]

theorem attempt_of_error {err : GraphError} (h : g.add a.1 a.2 = .error err) :
    g.attempt a = g := by
  rw [attempt, add_eq_error_iff.1 h]

theorem attempt_of_accepted (hfrozen : g.frozen = false)
    (ha : ∀ e ∈ a.2, e.2 ≠ .independent ∧ e.1.isReturnValue = false) :
    g.attempt a = a.2.foldl (fun g e => g.insertEdge a.1 e.1 e.2) (g.insertNode a.1) :=
  attempt_of_ok (add_of_accepted hfrozen a.1 ha)

theorem attempt_of_refused
    (ha : ¬ (g.frozen = false ∧ ∀ e ∈ a.2, e.2 ≠ .independent ∧ e.1.isReturnValue = false)) :
    g.attempt a = g := by
  cases hadd : g.add a.1 a.2 with
  | error err => exact attempt_of_error hadd
  | ok g' =>
    obtain ⟨hfrozen, hes, _⟩ := add_eq_ok hadd
    exact absurd ⟨hfrozen, hes⟩ ha

theorem Built.attempt (hg : g.Built) (a : Variable × List (Variable × Level)) :
    (g.attempt a).Built := by
  cases hadd : g.add a.1 a.2 with
  | error err => rwa [attempt_of_error hadd]
  | ok g' =>
    rw [attempt_of_ok hadd]
    exact .add hg hadd

theorem Built.attempts (as : List (Variable × List (Variable × Level))) (hg : g.Built) :
    (as.foldl Graph.attempt g).Built := by
  induction as generalizing g with
  | nil => exact hg
  | cons a as ih => exact ih (hg.attempt a)

theorem built_ofAttempts (as : List (Variable × List (Variable × Level))) :
    (ofAttempts as).Built := Built.empty.attempts as

/-- The first graph is the second one with return values that look at it, and with the
variables that only they know. -/
structure Watches (g h : Graph) : Prop where
  contains : ∀ v, h.contains v = true → g.contains v = true
  not_return : ∀ v, h.contains v = true → v.isReturnValue = false
  levels : ∀ u v, u.isReturnValue = false → g.level? u v = h.level? u v
  frozen : g.frozen = h.frozen

theorem watches_empty : empty.Watches empty where
  contains _ hv := hv
  not_return v hv := by simp [empty, Graph.contains, SortedMap.contains, SortedMap.get?_empty] at hv
  levels _ _ _ := rfl
  frozen := rfl

namespace Watches

theorem insertNode (hw : g.Watches h) (hv : v.isReturnValue = false) :
    (g.insertNode v).Watches (h.insertNode v) where
  contains w := by
    simp only [contains_insertNode, Bool.or_eq_true, decide_eq_true_eq]
    exact Or.imp_right (hw.contains w)
  not_return w := by
    simp only [contains_insertNode, Bool.or_eq_true, decide_eq_true_eq]
    rintro (rfl | hcontains)
    · exact hv
    · exact hw.not_return w hcontains
  levels a b ha := by
    rw [level?_insertNode, level?_insertNode]
    exact hw.levels a b ha
  frozen := by
    rw [frozen_insertNode, frozen_insertNode]
    exact hw.frozen

theorem insertEdge (hw : g.Watches h) (hu : u.isReturnValue = false)
    (hv : v.isReturnValue = false) (l : Level) :
    (g.insertEdge u v l).Watches (h.insertEdge u v l) where
  contains w := by
    rw [contains_insertEdge_iff, contains_insertEdge_iff]
    exact Or.imp_right (Or.imp_right (hw.contains w))
  not_return w := by
    rw [contains_insertEdge_iff]
    rintro (rfl | rfl | hcontains)
    · exact hu
    · exact hv
    · exact hw.not_return w hcontains
  levels a b ha := by
    have hjoin : ∀ a b, a.isReturnValue = false →
        (g.joinEdge u v l).level? a b = (h.joinEdge u v l).level? a b := by
      intro a b ha
      rw [level?_joinEdge, level?_joinEdge, hw.levels u v hu, hw.levels a b ha]
    have hwith : g.levelWith u v l = h.levelWith u v l := by
      rw [levelWith, levelWith, hw.levels u v hu]
    rw [level?_insertEdge, level?_insertEdge, hjoin v u hv, hjoin a b ha, hwith]
  frozen := by
    rw [frozen_insertEdge, frozen_insertEdge]
    exact hw.frozen

theorem look (hw : g.Watches h) (v : Variable) : (g.insertNode v).Watches h where
  contains w hcontains := by
    rw [contains_insertNode, hw.contains w hcontains, Bool.or_true]
  not_return := hw.not_return
  levels a b ha := by
    rw [level?_insertNode]
    exact hw.levels a b ha
  frozen := (frozen_insertNode g v).trans hw.frozen

theorem lookAt (hw : g.Watches h) (hu : u.isReturnValue = true) (v : Variable) (l : Level) :
    (g.insertEdge u v l).Watches h where
  contains w hcontains := contains_insertEdge (hw.contains w hcontains) u v l
  not_return := hw.not_return
  levels a b ha := by
    rw [level?_insertEdge_of_return hu ha]
    exact hw.levels a b ha
  frozen := (frozen_insertEdge g u v l).trans hw.frozen

theorem insertEdges (hw : g.Watches h) (hu : u.isReturnValue = false)
    (hes : ∀ e ∈ es, e.1.isReturnValue = false) :
    (es.foldl (fun g e => g.insertEdge u e.1 e.2) g).Watches
      (es.foldl (fun g e => g.insertEdge u e.1 e.2) h) := by
  induction es generalizing g h with
  | nil => exact hw
  | cons e es ih =>
    obtain ⟨he, hrest⟩ := List.forall_mem_cons.1 hes
    exact ih (hw.insertEdge hu he e.2) hrest

theorem lookAtAll (hw : g.Watches h) (hu : u.isReturnValue = true)
    (es : List (Variable × Level)) :
    (es.foldl (fun g e => g.insertEdge u e.1 e.2) g).Watches h := by
  induction es generalizing g with
  | nil => exact hw
  | cons e es ih => exact ih (hw.lookAt hu e.1 e.2)

theorem attempt (hw : g.Watches h) (ha : a.1.isReturnValue = false) :
    (g.attempt a).Watches (h.attempt a) := by
  by_cases hes : h.frozen = false ∧ ∀ e ∈ a.2, e.2 ≠ .independent ∧ e.1.isReturnValue = false
  · rw [attempt_of_accepted (hw.frozen.trans hes.1) hes.2, attempt_of_accepted hes.1 hes.2]
    exact (hw.insertNode ha).insertEdges ha fun e he => (hes.2 e he).2
  · rw [attempt_of_refused hes, attempt_of_refused (hw.frozen ▸ hes)]
    exact hw

theorem attempt_return (hw : g.Watches h) (ha : a.1.isReturnValue = true) :
    (g.attempt a).Watches h := by
  by_cases hes : g.frozen = false ∧ ∀ e ∈ a.2, e.2 ≠ .independent ∧ e.1.isReturnValue = false
  · rw [attempt_of_accepted hes.1 hes.2]
    exact (hw.look a.1).lookAtAll ha a.2
  · rw [attempt_of_refused hes]
    exact hw

theorem attempts (as : List (Variable × List (Variable × Level))) (hw : g.Watches h) :
    (as.foldl Graph.attempt g).Watches
      ((as.filter fun a => !a.1.isReturnValue).foldl Graph.attempt h) := by
  induction as generalizing g h with
  | nil => exact hw
  | cons a as ih =>
    cases ha : a.1.isReturnValue with
    | false =>
      rw [List.filter_cons_of_pos (by simp [ha])]
      exact ih (hw.attempt ha)
    | true =>
      rw [List.filter_cons_of_neg (by simp [ha])]
      exact ih (hw.attempt_return ha)

theorem embeds (hw : g.Watches h) (hh : h.WellFormed) : h.Embeds id g where
  mapsTo v hv := hw.contains v hv
  injOn := Function.injective_id.injOn
  levels u v hu _ := hw.levels u v (hw.not_return u hu)
  closed u w l hu _ hl := by
    have hlevel := hw.levels u w (hw.not_return u hu)
    exact ⟨w, hh.contains_target u w l (hlevel ▸ hl), rfl⟩

end Watches

end Graph

namespace Frame

variable {g h : Graph} {v : Variable}

/-- What return values look at has the rows it would have without them. -/
theorem links_of_watches (hg : g.WellFormed) (hh : h.WellFormed) (hsize : g.size ≤ 2 ^ 14)
    (hw : g.Watches h) (hv : h.contains v = true) (floor : Option Level) :
    ∃ row, (ofGraph g).links v floor = .ok row ∧ (ofGraph h).links v floor = .ok row := by
  have hn : (ofGraph g).nodes.size ≤ 2 ^ 14 := by rwa [size_ofGraph hg]
  obtain ⟨f, hinjective, hf, hedges⟩ := exists_embedding (hw.embeds hh)
  obtain ⟨i, row, rfl, hrow, hentry, hinside⟩ := exists_row hv floor
  obtain ⟨i', row', hi', hrow', hentry', hinside'⟩ := exists_row (hw.contains _ hv) floor
  obtain rfl : f i = i' := node_inj (distinct_ofGraph g) ((hf i).trans hi'.symm)
  have hlevels : ∀ w, row'.get? w = row.get? w := by
    intro w
    by_cases hwh : h.contains w = true
    · obtain ⟨j, rfl⟩ := exists_node hwh
      have hj : (ofGraph g).node (f j) = (ofGraph h).node j := hf j
      rw [hentry, ← hj, hentry']
      exact Adjacency.levelAt?_embed hinjective hedges hn (proper_ofGraph hh) (proper_ofGraph hg)
        i j floor
    · have hnone : row.get? w = none := by
        rw [Option.eq_none_iff_forall_ne_some]
        intro l hl
        exact hwh (hinside w l hl)
      rw [hnone, Option.eq_none_iff_forall_ne_some]
      intro l hl
      obtain ⟨k, rfl⟩ := exists_node (hinside' w l hl)
      have houtside : ¬ ∃ j, f j = k := by
        rintro ⟨j, rfl⟩
        rw [hf] at hwh
        exact hwh (contains_node j)
      rw [hentry', Adjacency.levelAt?_outside hinjective hedges hn (proper_ofGraph hh)
        (proper_ofGraph hg) i floor houtside] at hl
      cases hl
  obtain rfl : row' = row := SortedMap.ext_get? hlevels
  exact ⟨row', hrow', hrow⟩

theorem levelAt?_return (hg : g.WellFormed) {i j : Fin (ofGraph g).nodes.size}
    (hj : ((ofGraph g).node j).isReturnValue = true) (hne : j ≠ i) (floor : Option Level) :
    (ofGraph g).edges.levelAt? i floor j = none := by
  have hlabel : ∀ b, ((ofGraph g).edges.lowSearch i floor).best? j ≠ some b := by
    intro b hb
    have hreached : j = i ∨ ((ofGraph g).node j).isReturnValue = false := by
      apply Search.run_labels (P := fun j _ => j = i ∨ ((ofGraph g).node j).isReturnValue = false)
        Pass.low_lawful _ _ _ hb
      · exact .inl rfl
      · intro u a v l x _ _ _ hl _ _
        exact .inr (hg.target_not_return _ _ _ (mem_edges_ofGraph.1 hl))
      · intro _ _ _ _ hv _
        exact hv
    simp [hne, hj] at hreached
  rw [Adjacency.levelAt?, if_neg hne, Option.eq_none_iff_forall_ne_some.2 hlabel]
  rfl

end Frame

/-- Calls for return values change no row of the variables that are there without them, and
a return value is in no row but its own. -/
theorem return_values_only_observe (as : List (Variable × List (Variable × Level)))
    (hsize : (Graph.ofAttempts as).size ≤ 2 ^ 14) (floor : Option Level) :
    (∀ v, (Graph.ofAttempts (as.filter fun a => !a.1.isReturnValue)).contains v = true →
        ∃ row, (Frame.ofGraph (Graph.ofAttempts as)).links v floor = .ok row ∧
          (Frame.ofGraph (Graph.ofAttempts (as.filter fun a => !a.1.isReturnValue))).links v floor =
            .ok row) ∧
      ∀ s, (Graph.ofAttempts as).contains s = true →
        ∃ row, (Frame.ofGraph (Graph.ofAttempts as)).links s floor = .ok row ∧
          ∀ r, r.isReturnValue = true → (r ∈ row.keys ↔ r = s) := by
  have hg := (Graph.built_ofAttempts as).wellFormed
  have hh := (Graph.built_ofAttempts (as.filter fun a => !a.1.isReturnValue)).wellFormed
  constructor
  · intro v hv
    exact Frame.links_of_watches hg hh hsize (Graph.watches_empty.attempts as) hv floor
  · intro s hs
    obtain ⟨i, row, rfl, hrow, hentry, hinside⟩ := Frame.exists_row hs floor
    refine ⟨row, hrow, ?_⟩
    intro r hr
    rw [SortedMap.mem_keys_iff]
    constructor
    · intro hsome
      obtain ⟨l, hl⟩ := Option.isSome_iff_exists.1 hsome
      obtain ⟨j, rfl⟩ := Frame.exists_node (hinside r l hl)
      by_contra hne
      have hji : j ≠ i := fun hji => hne (congrArg _ hji)
      rw [hentry, Frame.levelAt?_return hg hr hji] at hl
      cases hl
    · rintro rfl
      rw [hentry, Adjacency.levelAt?, if_pos rfl]
      rfl

namespace Getter

def list : Variable := ⟨"list", "list", .field⟩
def item : Variable := ⟨"item", "item", .local⟩
def hidden : Variable := ⟨"hidden", "hidden", .local⟩
def result : Variable := ⟨"get", "get", .returnValue⟩

def calls : List (Variable × List (Variable × Level)) :=
  [(result, [(item, .staticallyAssigned), (hidden, .assigned)]),
    (list, [(result, .assigned), (item, .staticallyAssigned)]),
    (item, [(list, .dependent (.single 0 1 true))]),
    (result, [(list, .delayed (.single "type"))])]

end Getter

theorem return_values_only_observe_getter :
    (Graph.ofAttempts Getter.calls).size ≤ 2 ^ 14 ∧
      (∀ v, (Graph.ofAttempts (Getter.calls.filter fun a => !a.1.isReturnValue)).contains v = true →
        ∃ row, (Frame.ofGraph (Graph.ofAttempts Getter.calls)).links v none = .ok row ∧
          (Frame.ofGraph (Graph.ofAttempts
            (Getter.calls.filter fun a => !a.1.isReturnValue))).links v none = .ok row) ∧
      ∀ s, (Graph.ofAttempts Getter.calls).contains s = true →
        ∃ row, (Frame.ofGraph (Graph.ofAttempts Getter.calls)).links s none = .ok row ∧
          ∀ r, r.isReturnValue = true → (r ∈ row.keys ↔ r = s) :=
  have hsize : (Graph.ofAttempts Getter.calls).size ≤ 2 ^ 14 := by decide
  ⟨hsize, return_values_only_observe Getter.calls hsize none⟩

example :
    ((Frame.ofGraph (Graph.ofAttempts Getter.calls)).links Getter.result none).toOption.map
        SortedMap.keys = some [Getter.item, Getter.hidden, Getter.result, Getter.list] ∧
      ((Frame.ofGraph (Graph.ofAttempts Getter.calls)).links Getter.list none).toOption.map
        SortedMap.keys = some [Getter.item, Getter.list] := by
  decide +kernel

end LinkClosure
