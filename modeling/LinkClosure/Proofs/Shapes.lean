import LinkClosure.Proofs.Graph.Outline
import LinkClosure.Proofs.Renaming

/-!
# Shapes tell graphs apart

Two graphs have the same shape if and only if they have as many variables and, by
the numbers of the variables in their order, the same levels. That a shape tells
the levels is a matter of reading it. The converse needs that a level is written
at one place only: the edges of a variable come in the order of their targets, and
so in the order of the numbers.
-/

set_option autoImplicit false

namespace LinkClosure

namespace Adjacency

variable {n n' : Nat}

theorem ext_mem {edges edges' : Adjacency n} (h : edges.Ordered) (h' : edges'.Ordered)
    (hmem : ∀ u e, e ∈ edges.get u ↔ e ∈ edges'.get u) : edges = edges' := by
  have hasymm : ∀ e e' : Fin n × Level, e.1 < e'.1 → ¬ e'.1 < e.1 := by
    intro e e' hlt
    omega
  apply Vector.ext
  intro u hu
  exact increasing_ext hasymm (h ⟨u, hu⟩) (h' ⟨u, hu⟩) (hmem ⟨u, hu⟩)

theorem outline_eq_iff {edges : Adjacency n} {edges' : Adjacency n'} (h : edges.Ordered)
    (h' : edges'.Ordered) :
    edges.outline = edges'.outline ↔
      ∃ hn : n = n', ∀ u v l, (v, l) ∈ edges.get u ↔ (v.cast hn, l) ∈ edges'.get (u.cast hn) := by
  constructor
  · intro heq
    obtain rfl : n = n' := by
      rw [← edges.length_outline, heq, length_outline]
    rw [outline_inj heq]
    exact ⟨rfl, fun _ _ _ => Iff.rfl⟩
  · rintro ⟨rfl, hmem⟩
    rw [ext_mem h h' fun u e => hmem u e.1 e.2]

end Adjacency

namespace Graph

variable {g g' : Graph} {i j : Nat}

/-- The level between two variables, by their numbers in the order of the variables. -/
def levelBetween? (g : Graph) (i j : Nat) : Option Level :=
  g.adjacency.keys[i]?.bind fun u => g.adjacency.keys[j]?.bind fun v => g.level? u v

theorem levelBetween?_eq_none (hg : g.WellFormed) (h : ¬ (i < g.size ∧ j < g.size)) :
    g.levelBetween? i j = none := by
  rw [Option.eq_none_iff_forall_ne_some]
  intro l hl
  obtain ⟨u, hu, hrest⟩ := Option.bind_eq_some_iff.1 hl
  obtain ⟨v, hv, _⟩ := Option.bind_eq_some_iff.1 hrest
  have hi := (List.getElem?_eq_some_iff.1 hu).1
  have hj := (List.getElem?_eq_some_iff.1 hv).1
  rw [hg.length_keys] at hi hj
  exact h ⟨hi, hj⟩

/-- A renaming that keeps the order of the variables keeps their numbers. -/
theorem Renames.keys_eq {p : Variable → Variable} (h : g.Renames p g')
    (hp : ∀ u v, g.contains u = true → g.contains v = true → compare u v = .lt →
      compare (p u) (p v) = .lt) : g'.adjacency.keys = g.adjacency.keys.map p := by
  have hincreasing : (g.adjacency.keys.map p).Pairwise fun a b => compare a b = .lt := by
    rw [List.pairwise_map]
    apply g.adjacency.increasing_keys.imp_of_mem
    intro u v hu hv huv
    exact hp u v (mem_keys.1 hu) (mem_keys.1 hv) huv
  apply increasing_ext (fun _ _ => Std.OrientedCmp.not_lt_of_lt) g'.adjacency.increasing_keys
    hincreasing
  intro w
  rw [mem_keys, List.mem_map]
  constructor
  · intro hw
    obtain ⟨v, hv, hvw⟩ := h.bijective.surjOn hw
    exact ⟨v, mem_keys.2 hv, hvw⟩
  · rintro ⟨v, hv, rfl⟩
    exact h.bijective.mapsTo (mem_keys.1 hv)

theorem Renames.levelBetween?_eq {p : Variable → Variable} (h : g.Renames p g')
    (hkeys : g'.adjacency.keys = g.adjacency.keys.map p) (i j : Nat) :
    g.levelBetween? i j = g'.levelBetween? i j := by
  have hcontains : ∀ {i : Nat} {v}, g.adjacency.keys[i]? = some v → g.contains v = true :=
    fun hv => mem_keys.1 (List.mem_of_getElem? hv)
  simp only [levelBetween?, hkeys, List.getElem?_map]
  cases hu : g.adjacency.keys[i]? with
  | none => rfl
  | some u =>
    cases hv : g.adjacency.keys[j]? with
    | none => rfl
    | some v => exact (h.levels u v (hcontains hu) (hcontains hv)).symm

end Graph

namespace Frame

variable {g g' : Graph}

theorem shape_eq_iff {f f' : Frame} : f.shape = f'.shape ↔ f.edges.outline = f'.edges.outline := by
  constructor
  · exact outline_eq_of_shape_eq
  · intro h
    rw [shape_eq, shape_eq, h]

theorem getElem?_keys (i : Fin (ofGraph g).nodes.size) :
    g.adjacency.keys[i.val]? = some ((ofGraph g).node i) := List.getElem?_eq_getElem i.isLt

theorem levelBetween?_node (i j : Fin (ofGraph g).nodes.size) :
    g.levelBetween? i j = g.level? ((ofGraph g).node i) ((ofGraph g).node j) := by
  rw [Graph.levelBetween?, getElem?_keys, getElem?_keys, Option.bind_some, Option.bind_some]

theorem shape_eq_iff_levels (hg : g.WellFormed) (hg' : g'.WellFormed) :
    (ofGraph g).shape = (ofGraph g').shape ↔
      g.size = g'.size ∧ ∀ i j, g.levelBetween? i j = g'.levelBetween? i j := by
  rw [shape_eq_iff, Adjacency.outline_eq_iff (ordered_ofGraph g) (ordered_ofGraph g')]
  constructor
  · rintro ⟨hn, hmem⟩
    have hsize : g.size = g'.size := by rwa [← size_ofGraph hg, ← size_ofGraph hg']
    refine ⟨hsize, ?_⟩
    intro i j
    by_cases hij : i < (ofGraph g).nodes.size ∧ j < (ofGraph g).nodes.size
    · have hlevels := fun l => hmem ⟨i, hij.1⟩ ⟨j, hij.2⟩ l
      simp only [mem_edges_ofGraph, ← levelBetween?_node] at hlevels
      exact Option.ext hlevels
    · rw [size_ofGraph hg] at hij
      rw [Graph.levelBetween?_eq_none hg hij, Graph.levelBetween?_eq_none hg' (hsize ▸ hij)]
  · rintro ⟨hsize, hlevels⟩
    have hn : (ofGraph g).nodes.size = (ofGraph g').nodes.size := by
      rw [size_ofGraph hg, size_ofGraph hg', hsize]
    refine ⟨hn, ?_⟩
    intro u v l
    rw [mem_edges_ofGraph, mem_edges_ofGraph, ← levelBetween?_node, ← levelBetween?_node, hlevels]
    rfl

end Frame

/-- Shapes are the same where the levels are, number by number; so they are for graphs that
differ by a renaming which keeps the order of the variables. -/
theorem shapes_identify_levels {g g' : Graph} (hg : g.Built) (hg' : g'.Built) :
    ((Frame.ofGraph g).shape = (Frame.ofGraph g').shape ↔
        g.size = g'.size ∧ ∀ i j, g.levelBetween? i j = g'.levelBetween? i j) ∧
      ∀ p, g.Renames p g' →
        (∀ u v, g.contains u = true → g.contains v = true → compare u v = .lt →
          compare (p u) (p v) = .lt) →
        (Frame.ofGraph g).shape = (Frame.ofGraph g').shape := by
  have hwf := hg.wellFormed
  have hwf' := hg'.wellFormed
  refine ⟨Frame.shape_eq_iff_levels hwf hwf', ?_⟩
  intro p hrenames hp
  have hkeys := hrenames.keys_eq hp
  have hsize : g.size = g'.size := by
    rw [← hwf.length_keys, ← hwf'.length_keys, hkeys, List.length_map]
  exact (Frame.shape_eq_iff_levels hwf hwf').2 ⟨hsize, hrenames.levelBetween?_eq hkeys⟩

namespace Envelope

def sender : Variable := ⟨"sender", "sender", .local⟩
def letter : Variable := ⟨"letter", "letter", .field⟩
def reply : Variable := ⟨"reply", "reply", .returnValue⟩

def additions (causes : Causes) : List (Variable × List (Variable × Level)) :=
  [(sender, [(letter, .delayed causes)]), (reply, [(letter, .dependent (.single 0 1 true))])]

def rename (v : Variable) : Variable := { v with name := "mail." ++ v.name }

def renamedAdditions (causes : Causes) : List (Variable × List (Variable × Level)) :=
  [(rename reply, [(rename letter, .dependent (.single 0 1 true))]),
    (rename letter, [(rename sender, .delayed causes)])]

def causes : Causes := .ofList ["stamp", "ink"]

def graph : Graph := (Graph.ofAdditions (additions causes)).toOption.getD .empty

def renamedGraph : Graph := (Graph.ofAdditions (renamedAdditions causes)).toOption.getD .empty

def otherGraph : Graph :=
  (Graph.ofAdditions (additions (.single "ink\", \"stamp"))).toOption.getD .empty

theorem rename_keeps_order (u v : Variable) (hu : graph.contains u = true)
    (hv : graph.contains v = true) (huv : compare u v = .lt) :
    compare (rename u) (rename v) = .lt := by
  have hkeys : ∀ u ∈ graph.adjacency.keys, ∀ v ∈ graph.adjacency.keys, compare u v = .lt →
      compare (rename u) (rename v) = .lt := by
    decide
  exact hkeys u (Graph.mem_keys.2 hu) v (Graph.mem_keys.2 hv) huv

end Envelope

theorem shapes_identify_levels_envelope :
    Envelope.graph.Built ∧ Envelope.renamedGraph.Built ∧
      Envelope.graph.Renames Envelope.rename Envelope.renamedGraph ∧
      (Frame.ofGraph Envelope.graph).shape = (Frame.ofGraph Envelope.renamedGraph).shape := by
  have hgraph : Graph.ofAdditions (Envelope.additions Envelope.causes) = .ok Envelope.graph := rfl
  have hgraph' : Graph.ofAdditions (Envelope.renamedAdditions Envelope.causes) =
      .ok Envelope.renamedGraph := rfl
  have hbuilt : Envelope.graph.Built := .of_additions hgraph
  have hbuilt' : Envelope.renamedGraph.Built := .of_additions hgraph'
  have hrenames : Envelope.graph.Renames Envelope.rename Envelope.renamedGraph := by decide
  exact ⟨hbuilt, hbuilt', hrenames, (shapes_identify_levels hbuilt hbuilt').2 Envelope.rename
    hrenames Envelope.rename_keeps_order⟩

example : (Frame.ofGraph Envelope.graph).shape ≠ (Frame.ofGraph Envelope.otherGraph).shape := by
  decide +kernel

end LinkClosure
