import LinkClosure.Graph.Frame
import LinkClosure.Proofs.Graph.Built
import LinkClosure.Proofs.Reversal

/-!
# The order of insertion

An edge is stored in both directions, and the way back carries the reverse of
what the way out has become by then. As long as the links that are given between
two variables are one to one, what is stored in the end is the combination of
all levels that were given for either direction, and the order of insertion does
not matter. Where a source has two targets it does: each order leaves a
different trace on the way back.
-/

set_option autoImplicit false

namespace LinkClosure

/-- An edge that is given along with a node. -/
structure Insertion where
  source : Variable
  target : Variable
  level : Level
  deriving DecidableEq

namespace Insertion

variable {is js : List Insertion} {u v : Variable} {l : Level}

def ofNode (v : Variable) (es : List (Variable × Level)) : List Insertion :=
  es.map fun e => ⟨v, e.1, e.2⟩

def ofAdditions (as : List (Variable × List (Variable × Level))) : List Insertion :=
  as.flatMap fun a => ofNode a.1 a.2

/-- What an insertion asks of the edge from `u` to `v`. -/
def demand (i : Insertion) (u v : Variable) : List Level :=
  (if u = i.source ∧ v = i.target then [i.level] else []) ++
    if i.source.isReturnValue = false ∧ u = i.target ∧ v = i.source then [i.level.reverse] else []

def demands (is : List Insertion) (u v : Variable) : List Level := is.flatMap (·.demand u v)

theorem mem_demand {i : Insertion} :
    l ∈ i.demand u v ↔
      u = i.source ∧ v = i.target ∧ l = i.level ∨
        i.source.isReturnValue = false ∧ u = i.target ∧ v = i.source ∧ l = i.level.reverse := by
  simp only [demand, List.mem_append, List.mem_ite_nil_right, List.mem_singleton, and_assoc]

theorem mem_demands :
    l ∈ demands is u v ↔
      ∃ i ∈ is, u = i.source ∧ v = i.target ∧ l = i.level ∨
        i.source.isReturnValue = false ∧ u = i.target ∧ v = i.source ∧ l = i.level.reverse := by
  simp only [demands, List.mem_flatMap, mem_demand]

theorem demands_append (is js : List Insertion) (u v : Variable) :
    demands (is ++ js) u v = demands is u v ++ demands js u v := List.flatMap_append

theorem demands_single (i : Insertion) (u v : Variable) : demands [i] u v = i.demand u v :=
  List.flatMap_singleton _ i

/-- All links that are given between two variables, seen from one of them, are one to
one. -/
def Agreeing (is : List Insertion) : Prop :=
  ∀ i ∈ is, ∀ j ∈ is,
    (i.source = j.source → i.target = j.target → i.level.Concordant j.level) ∧
      (i.source = j.target → i.target = j.source → i.level.Concordant j.level.reverse)

instance (is : List Insertion) : Decidable (Agreeing is) :=
  inferInstanceAs (Decidable (∀ i ∈ is, ∀ j ∈ is, _ ∧ _))

theorem Agreeing.subset (h : Agreeing js) (hsub : is ⊆ js) : Agreeing is :=
  fun i hi j hj => h i (hsub hi) j (hsub hj)

theorem Agreeing.self (h : Agreeing is) {i : Insertion} (hi : i ∈ is) :
    i.level.Concordant i.level := (h i hi i hi).1 rfl rfl

theorem Agreeing.concordant (h : Agreeing is) :
    ∀ a ∈ demands is u v, ∀ b ∈ demands is u v, a.Concordant b := by
  intro a ha b hb
  obtain ⟨i, hi, ⟨rfl, rfl, rfl⟩ | ⟨_, rfl, rfl, rfl⟩⟩ := mem_demands.1 ha
  · obtain ⟨j, hj, ⟨hsource, htarget, rfl⟩ | ⟨_, hsource, htarget, rfl⟩⟩ := mem_demands.1 hb
    · exact (h i hi j hj).1 hsource htarget
    · exact (h i hi j hj).2 hsource htarget
  · obtain ⟨j, hj, ⟨hsource, htarget, rfl⟩ | ⟨_, hsource, htarget, rfl⟩⟩ := mem_demands.1 hb
    · exact ((h j hj i hi).2 hsource.symm htarget.symm).symm
    · exact ((h i hi j hj).1 htarget hsource).reverse (h.self hi) (h.self hj)

theorem Agreeing.reverse_mem (h : Agreeing is) (hu : u.isReturnValue = false)
    (hl : l ∈ demands is u v) : l.reverse ∈ demands is v u := by
  rw [mem_demands] at hl ⊢
  obtain ⟨i, hi, ⟨rfl, rfl, rfl⟩ | ⟨_, rfl, rfl, rfl⟩⟩ := hl
  · exact ⟨i, hi, .inr ⟨hu, rfl, rfl, rfl⟩⟩
  · exact ⟨i, hi, .inl ⟨rfl, rfl, Level.reverse_reverse (h.self hi)⟩⟩

/-- What the way back receives from one more insertion: the reverse of all that is asked of
the way out. Nearly all of it has been asked before. -/
theorem Agreeing.minAll_back (h : Agreeing is) {i : Insertion}
    (hreturn : i.source.isReturnValue = false) :
    Level.minAll ((demands is i.target i.source ++
        if i.target = i.source then [i.level] else []) ++
      (demands is i.source i.target ++ [i.level]).map Level.reverse) =
      Level.minAll (demands is i.target i.source ++ i.demand i.target i.source) := by
  apply Level.minAll_congr
  · intro l hl
    simp only [List.mem_append, List.mem_ite_nil_right, List.mem_singleton, List.map_append,
      List.map_cons, List.map_nil, List.mem_map] at hl ⊢
    rcases hl with (hl | ⟨hself, rfl⟩) | ⟨m, hm, rfl⟩ | rfl
    · exact .inl hl
    · exact .inr (mem_demand.2 (.inl ⟨hself, hself.symm, rfl⟩))
    · exact .inl (h.reverse_mem hreturn hm)
    · exact .inr (mem_demand.2 (.inr ⟨hreturn, rfl, rfl, rfl⟩))
  · intro l hl
    simp only [List.mem_append, List.mem_ite_nil_right, List.mem_singleton, List.map_append,
      List.map_cons, List.map_nil, List.mem_map] at hl ⊢
    rcases hl.imp_right mem_demand.1 with hl | ⟨hself, _, rfl⟩ | ⟨_, _, _, rfl⟩
    · exact .inl (.inl hl)
    · exact .inl (.inr ⟨hself, rfl⟩)
    · exact .inr (.inr rfl)

end Insertion

open Insertion

namespace Graph

variable {g g' : Graph} {is : List Insertion}

/-- Every edge carries the combination of all that was asked of it. -/
def Meets (g : Graph) (is : List Insertion) : Prop :=
  ∀ u v, g.level? u v = Level.minAll (demands is u v)

theorem meets_empty : empty.Meets [] := fun _ _ => rfl

theorem Meets.insertNode (h : g.Meets is) (w : Variable) : (g.insertNode w).Meets is := by
  intro u v
  rw [level?_insertNode]
  exact h u v

theorem Meets.levelWith (h : g.Meets is) (i : Insertion) :
    some (g.levelWith i.source i.target i.level) =
      Level.minAll (demands is i.source i.target ++ [i.level]) := by
  rw [some_levelWith, h, Level.minAll_append]
  rfl

theorem Meets.levelWith_reverse (h : g.Meets is) {i : Insertion} (hagree : Agreeing (is ++ [i])) :
    some (g.levelWith i.source i.target i.level).reverse =
      Level.minAll ((demands is i.source i.target ++ [i.level]).map Level.reverse) := by
  have hsub : demands is i.source i.target ++ [i.level] ⊆
      demands (is ++ [i]) i.source i.target := by
    intro l hl
    rw [demands_append, demands_single, List.mem_append]
    apply (List.mem_append.1 hl).imp_right
    intro hlast
    exact mem_demand.2 (.inl ⟨rfl, rfl, List.mem_singleton.1 hlast⟩)
  rw [← Level.reverse_minAll, ← h.levelWith, Option.map_some]
  intro a ha b hb
  exact hagree.concordant a (hsub ha) b (hsub hb)

theorem Meets.level?_back (h : g.Meets is) (i : Insertion) :
    (g.joinEdge i.source i.target i.level).level? i.target i.source =
      Level.minAll (demands is i.target i.source ++
        if i.target = i.source then [i.level] else []) := by
  rw [level?_joinEdge]
  by_cases hself : i.target = i.source
  · rw [if_pos ⟨hself, hself.symm⟩, if_pos hself, ← some_levelWith, h.levelWith, hself]
  · rw [if_neg fun hboth => hself hboth.1, if_neg hself, List.append_nil, h]

theorem Meets.insertEdge (h : g.Meets is) {i : Insertion} (hagree : Agreeing (is ++ [i])) :
    (g.insertEdge i.source i.target i.level).Meets (is ++ [i]) := by
  have hold : Agreeing is := hagree.subset (List.subset_append_left is [i])
  intro a b
  rw [level?_insertEdge, demands_append, demands_single]
  by_cases hback : i.source.isReturnValue = false ∧ a = i.target ∧ b = i.source
  · rw [if_pos hback]
    obtain ⟨hreturn, rfl, rfl⟩ := hback
    rw [h.level?_back, h.levelWith_reverse hagree, ← Level.minAll_append, hold.minAll_back hreturn]
  · rw [if_neg hback, level?_joinEdge]
    by_cases hout : a = i.source ∧ b = i.target
    · rw [demand, if_pos hout, if_pos hout, if_neg hback, List.append_nil, hout.1, hout.2,
        ← h.levelWith, some_levelWith]
    · rw [demand, if_neg hout, if_neg hout, if_neg hback, List.append_nil, List.append_nil, h]

theorem Meets.insertEdges (h : g.Meets is) (v : Variable) (es : List (Variable × Level))
    (hagree : Agreeing (is ++ ofNode v es)) :
    (es.foldl (fun g e => g.insertEdge v e.1 e.2) g).Meets (is ++ ofNode v es) := by
  induction es generalizing g is with
  | nil => rwa [ofNode, List.map_nil, List.append_nil]
  | cons e es ih =>
    have hsplit : is ++ ofNode v (e :: es) = (is ++ [⟨v, e.1, e.2⟩]) ++ ofNode v es := by
      simp [ofNode]
    rw [hsplit] at hagree ⊢
    exact ih (h.insertEdge (hagree.subset (List.subset_append_left _ _))) hagree

theorem Meets.add (h : g.Meets is) {v : Variable} {es : List (Variable × Level)}
    (hagree : Agreeing (is ++ ofNode v es)) (hadd : g.add v es = .ok g') :
    g'.Meets (is ++ ofNode v es) := by
  obtain ⟨_, _, rfl⟩ := add_eq_ok hadd
  exact (h.insertNode v).insertEdges v es hagree

/-- After any list of additions every edge carries just what was asked of it. -/
theorem Meets.additions (h : g.Meets is) {as : List (Variable × List (Variable × Level))}
    (hagree : Agreeing (is ++ Insertion.ofAdditions as))
    (hadd : as.foldlM (fun g a => g.add a.1 a.2) g = .ok g') :
    g'.Meets (is ++ Insertion.ofAdditions as) := by
  induction as generalizing g is with
  | nil =>
    obtain rfl := Except.ok.inj hadd
    rwa [Insertion.ofAdditions, List.flatMap_nil, List.append_nil]
  | cons a as ih =>
    have hsplit : is ++ Insertion.ofAdditions (a :: as) =
        (is ++ ofNode a.1 a.2) ++ Insertion.ofAdditions as := by
      simp [Insertion.ofAdditions]
    rw [hsplit] at hagree ⊢
    obtain ⟨g₁, hfirst, hrest⟩ := additions_cons hadd
    exact ih (h.add (hagree.subset (List.subset_append_left _ _)) hfirst) hagree hrest

theorem additions_succeed {as : List (Variable × List (Variable × Level))}
    (hfrozen : g.frozen = false)
    (hedges : ∀ i ∈ Insertion.ofAdditions as,
      i.level ≠ .independent ∧ i.target.isReturnValue = false) :
    ∃ g', as.foldlM (fun g a => g.add a.1 a.2) g = .ok g' := by
  induction as generalizing g with
  | nil => exact ⟨g, rfl⟩
  | cons a as ih =>
    have hfirst : ∀ e ∈ a.2, e.2 ≠ .independent ∧ e.1.isReturnValue = false := by
      intro e he
      apply hedges ⟨a.1, e.1, e.2⟩
      exact List.mem_flatMap.2 ⟨a, List.mem_cons_self, List.mem_map.2 ⟨e, he, rfl⟩⟩
    have hadd := add_of_accepted hfrozen a.1 hfirst
    rw [List.foldlM_cons, hadd]
    apply ih (frozen_add hadd)
    intro i hi
    exact hedges i (List.mem_append_right _ hi)

theorem accepted_of_additions {as : List (Variable × List (Variable × Level))}
    (hadd : as.foldlM (fun g a => g.add a.1 a.2) g = .ok g') :
    ∀ i ∈ Insertion.ofAdditions as, i.level ≠ .independent ∧ i.target.isReturnValue = false := by
  induction as generalizing g with
  | nil =>
    intro i hi
    cases hi
  | cons a as ih =>
    obtain ⟨g₁, hfirst, hrest⟩ := additions_cons hadd
    intro i hi
    rcases List.mem_append.1 hi with hi | hi
    · obtain ⟨e, he, rfl⟩ := List.mem_map.1 hi
      exact (add_eq_ok hfirst).2.1 e he
    · exact ih hrest i hi

theorem contains_insertEdges (v w : Variable) (es : List (Variable × Level)) (g : Graph)
    (hv : g.contains v = true) :
    (es.foldl (fun g e => g.insertEdge v e.1 e.2) g).contains w = true ↔
      g.contains w = true ∨ ∃ i ∈ ofNode v es, i.target = w := by
  induction es generalizing g with
  | nil => simp [ofNode]
  | cons e es ih =>
    rw [List.foldl_cons, ih _ (contains_insertEdge hv v e.1 e.2), contains_insertEdge_iff]
    simp only [ofNode, List.map_cons, List.mem_cons, exists_eq_or_imp]
    by_cases hw : w = v
    · simp [hw, hv]
    · simp only [hw, false_or, eq_comm (a := e.1), or_assoc, or_left_comm]

theorem contains_additions {as : List (Variable × List (Variable × Level))} {w : Variable}
    (hadd : as.foldlM (fun g a => g.add a.1 a.2) g = .ok g') :
    g'.contains w = true ↔
      g.contains w = true ∨ w ∈ as.map Prod.fst ∨
        ∃ i ∈ Insertion.ofAdditions as, i.target = w := by
  induction as generalizing g with
  | nil =>
    obtain rfl := Except.ok.inj hadd
    simp [Insertion.ofAdditions]
  | cons a as ih =>
    obtain ⟨g₁, hfirst, hrest⟩ := additions_cons hadd
    obtain ⟨_, _, rfl⟩ := add_eq_ok hfirst
    rw [ih hrest, contains_insertEdges a.1 w a.2 _ (by simp [contains_insertNode]),
      contains_insertNode]
    simp only [Insertion.ofAdditions, List.flatMap_cons, List.mem_append, List.map_cons,
      List.mem_cons, Bool.or_eq_true, decide_eq_true_eq, or_and_right, exists_or]
    grind

end Graph

theorem Frame.ofGraph_congr {g g' : Graph} (h : g.adjacency = g'.adjacency) :
    ofGraph g = ofGraph g' := by
  obtain ⟨adjacency, _, _⟩ := g
  obtain ⟨adjacency', _, _⟩ := g'
  obtain rfl : adjacency = adjacency' := h
  rfl

/-- Additions of the same nodes with the same edges, however these are ordered and divided
among the additions, give the same adjacency and with it the same texts and rows, if
the links between two variables are one to one. -/
theorem insertion_order_free {as as' : List (Variable × List (Variable × Level))} {g : Graph}
    (h : Graph.ofAdditions as = .ok g)
    (hnodes : ∀ v, v ∈ as.map Prod.fst ↔ v ∈ as'.map Prod.fst)
    (hperm : (Insertion.ofAdditions as).Perm (Insertion.ofAdditions as'))
    (hagree : Agreeing (Insertion.ofAdditions as)) :
    ∃ g', Graph.ofAdditions as' = .ok g' ∧ g'.adjacency = g.adjacency ∧
      (Frame.ofGraph g').signature = (Frame.ofGraph g).signature ∧
      (Frame.ofGraph g').shape = (Frame.ofGraph g).shape ∧
      ∀ s floor, (Frame.ofGraph g').links s floor = (Frame.ofGraph g).links s floor := by
  have haccepted := Graph.accepted_of_additions h
  obtain ⟨g', h'⟩ : ∃ g', Graph.ofAdditions as' = .ok g' := by
    apply Graph.additions_succeed rfl
    intro i hi
    exact haccepted i (hperm.mem_iff.2 hi)
  have hmeets : g.Meets (Insertion.ofAdditions as) := Graph.meets_empty.additions hagree h
  have hmeets' : g'.Meets (Insertion.ofAdditions as') :=
    Graph.meets_empty.additions (hagree.subset hperm.symm.subset) h'
  have hadjacency : g'.adjacency = g.adjacency := by
    apply Graph.adjacency_ext
    · intro w
      rw [Graph.contains_additions h, Graph.contains_additions h', hnodes]
      simp only [hperm.mem_iff]
    · intro u v
      have hdemands := hperm.flatMap_right (·.demand u v)
      rw [hmeets, hmeets']
      exact Level.minAll_congr hdemands.symm.subset hdemands.subset
  have hframe := Frame.ofGraph_congr hadjacency
  refine ⟨g', h', hadjacency, ?_, ?_, ?_⟩
  · rw [hframe]
  · rw [hframe]
  · intro s floor
    rw [hframe]

namespace Mirrored

def left : Variable := ⟨"left", "left", .local⟩
def right : Variable := ⟨"right", "right", .field⟩
def out : Variable := ⟨"out", "out", .returnValue⟩

def additions : List (Variable × List (Variable × Level)) :=
  [(left, [(right, .dependent (.single 0 1 true)), (right, .dependent (.single 1 2 false))]),
    (right, [(left, .dependent (.single 1 0 false)), (left, .commonHidden (.single 2 2 false))]),
    (out, [(left, .assigned), (right, .delayed (.single "late"))])]

def rearranged : List (Variable × List (Variable × Level)) :=
  [(out, [(right, .delayed (.single "late"))]),
    (right, [(left, .commonHidden (.single 2 2 false))]),
    (left, [(right, .dependent (.single 1 2 false)), (right, .dependent (.single 0 1 true))]),
    (out, [(left, .assigned)]),
    (right, [(left, .dependent (.single 1 0 false))])]

def graph : Graph := (Graph.ofAdditions additions).toOption.getD .empty

end Mirrored

theorem insertion_order_free_mirrored :
    Graph.ofAdditions Mirrored.additions = .ok Mirrored.graph ∧
      (Insertion.ofAdditions Mirrored.additions).Perm
        (Insertion.ofAdditions Mirrored.rearranged) ∧
      Agreeing (Insertion.ofAdditions Mirrored.additions) ∧
      ∃ g', Graph.ofAdditions Mirrored.rearranged = .ok g' ∧
        g'.adjacency = Mirrored.graph.adjacency ∧
        (Frame.ofGraph g').signature = (Frame.ofGraph Mirrored.graph).signature ∧
        (Frame.ofGraph g').shape = (Frame.ofGraph Mirrored.graph).shape ∧
        ∀ s floor, (Frame.ofGraph g').links s floor =
          (Frame.ofGraph Mirrored.graph).links s floor := by
  have hgraph : Graph.ofAdditions Mirrored.additions = .ok Mirrored.graph := rfl
  have hnodes : ∀ v, v ∈ Mirrored.additions.map Prod.fst ↔ v ∈ Mirrored.rearranged.map Prod.fst := by
    intro v
    simp only [Mirrored.additions, Mirrored.rearranged, List.map_cons, List.map_nil, List.mem_cons,
      List.not_mem_nil]
    grind
  have hperm : (Insertion.ofAdditions Mirrored.additions).Perm
      (Insertion.ofAdditions Mirrored.rearranged) := by decide
  have hagree : Agreeing (Insertion.ofAdditions Mirrored.additions) := by decide
  exact ⟨hgraph, hperm, hagree, insertion_order_free hgraph hnodes hperm hagree⟩

namespace Forked

def near : Variable := ⟨"a", "a", .local⟩
def far : Variable := ⟨"b", "b", .local⟩

def first : List (Variable × List (Variable × Level)) :=
  [(near, [(far, .dependent (.single 0 1 false)), (far, .dependent (.single 0 2 false))])]

def second : List (Variable × List (Variable × Level)) :=
  [(near, [(far, .dependent (.single 0 2 false)), (far, .dependent (.single 0 1 false))])]

def firstGraph : Graph := (Graph.ofAdditions first).toOption.getD .empty

def secondGraph : Graph := (Graph.ofAdditions second).toOption.getD .empty

end Forked

/-- Two edges of one addition change places, and adjacency, signature, shape and row
change with them. -/
theorem insertion_order_matters :
    Graph.ofAdditions Forked.first = .ok Forked.firstGraph ∧
      Graph.ofAdditions Forked.second = .ok Forked.secondGraph ∧
      (Insertion.ofAdditions Forked.first).Perm (Insertion.ofAdditions Forked.second) ∧
      Forked.firstGraph.adjacency ≠ Forked.secondGraph.adjacency ∧
      (Frame.ofGraph Forked.firstGraph).signature ≠ (Frame.ofGraph Forked.secondGraph).signature ∧
      (Frame.ofGraph Forked.firstGraph).shape ≠ (Frame.ofGraph Forked.secondGraph).shape ∧
      ((Frame.ofGraph Forked.firstGraph).links Forked.far none).toOption ≠
        ((Frame.ofGraph Forked.secondGraph).links Forked.far none).toOption := by
  refine ⟨rfl, rfl, by decide, by decide, ?_, ?_, ?_⟩
  · decide +kernel
  · decide +kernel
  · decide +kernel

end LinkClosure
