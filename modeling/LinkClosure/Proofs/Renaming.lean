import LinkClosure.Proofs.Floors
import LinkClosure.Proofs.Search.Relabelling

/-!
# Rows of renamed graphs

A renaming carries the variables of one graph over to those of another, one to
one, and every edge with its level. It need not keep the order of the variables,
so their numbers change as well. Rows follow the renaming: the row of the other
graph has the same levels under the new names.

Much of this holds when the other graph has more variables, as long as no edge
leads to them.
-/

set_option autoImplicit false

namespace LinkClosure

def SortedMap.renamed (p : Variable → Variable) (row : SortedMap Variable Level) :
    SortedMap Variable Level :=
  .ofList (row.entries.map fun e => (p e.1, e.2))

/-- Where no two names of a row become one, each level is found under its new name and
nothing else is there. -/
theorem SortedMap.get?_renamed {p : Variable → Variable} {row : SortedMap Variable Level}
    (hp : Set.InjOn p {v | v ∈ row.keys}) {w : Variable} {l : Level} :
    (row.renamed p).get? w = some l ↔ ∃ v, row.get? v = some l ∧ p v = w := by
  have hkeys : ((row.entries.map fun e => (p e.1, e.2)).map Prod.fst).Nodup := by
    have hnames : (row.entries.map fun e => (p e.1, e.2)).map Prod.fst = row.keys.map p := by
      simp [keys]
    rw [hnames]
    exact row.nodup_keys.map_on fun u hu v hv huv => hp hu hv huv
  rw [renamed, get?_ofList_iff hkeys, List.mem_map]
  constructor
  · intro h
    obtain ⟨e, he, heq⟩ := h
    obtain ⟨rfl, rfl⟩ := Prod.mk.inj heq
    exact ⟨e.1, mem_entries_iff.1 he, rfl⟩
  · intro h
    obtain ⟨v, hv, rfl⟩ := h
    exact ⟨(v, l), mem_entries_iff.2 hv, rfl⟩

theorem SortedMap.eq_renamed {p : Variable → Variable} {S S' : Set Variable}
    {row row' : SortedMap Variable Level} (hp : Set.BijOn p S S')
    (hrow : ∀ v l, row.get? v = some l → v ∈ S) (hrow' : ∀ w l, row'.get? w = some l → w ∈ S')
    (h : ∀ v ∈ S, row'.get? (p v) = row.get? v) : row' = row.renamed p := by
  have hkeys : Set.InjOn p {v | v ∈ row.keys} := by
    apply hp.injOn.mono
    intro v hv
    obtain ⟨l, hl⟩ := Option.isSome_iff_exists.1 (mem_keys_iff.1 hv)
    exact hrow v l hl
  apply ext_get?
  intro w
  apply Option.ext
  intro l
  rw [get?_renamed hkeys]
  constructor
  · intro hl
    obtain ⟨v, hv, rfl⟩ := hp.surjOn (hrow' w l hl)
    exact ⟨v, (h v hv).symm.trans hl, rfl⟩
  · intro hl
    obtain ⟨v, hv, rfl⟩ := hl
    exact (h v (hrow v l hv)).trans hv

/-- A renaming of the variables under which every edge keeps its level. -/
structure Graph.Renames (p : Variable → Variable) (g g' : Graph) : Prop where
  bijective : Set.BijOn p {v | g.contains v = true} {v | g'.contains v = true}
  levels : ∀ u v, g.contains u = true → g.contains v = true →
    g'.level? (p u) (p v) = g.level? u v

theorem Graph.renames_iff {p : Variable → Variable} {g g' : Graph} :
    g.Renames p g' ↔
      (∀ v ∈ g.adjacency.keys, p v ∈ g'.adjacency.keys) ∧
        (∀ u ∈ g.adjacency.keys, ∀ v ∈ g.adjacency.keys, p u = p v → u = v) ∧
        (∀ w ∈ g'.adjacency.keys, ∃ v ∈ g.adjacency.keys, p v = w) ∧
        ∀ u ∈ g.adjacency.keys, ∀ v ∈ g.adjacency.keys, g'.level? (p u) (p v) = g.level? u v := by
  simp only [mem_keys]
  constructor
  · intro h
    refine ⟨fun v hv => h.bijective.mapsTo hv, fun u hu v hv huv => h.bijective.injOn hu hv huv,
      fun w hw => ?_, fun u hu v hv => h.levels u v hu hv⟩
    obtain ⟨v, hv, hvw⟩ := h.bijective.surjOn hw
    exact ⟨v, hv, hvw⟩
  · intro h
    obtain ⟨hmaps, hinjective, hsurjective, hlevels⟩ := h
    refine ⟨⟨fun v hv => hmaps v hv, fun u hu v hv huv => hinjective u hu v hv huv,
      fun w hw => ?_⟩, fun u v hu hv => hlevels u hu v hv⟩
    obtain ⟨v, hv, hvw⟩ := hsurjective w hw
    exact ⟨v, hv, hvw⟩

instance (p : Variable → Variable) (g g' : Graph) : Decidable (g.Renames p g') :=
  decidable_of_iff _ Graph.renames_iff.symm

/-- A graph within another one, where its variables may have other names: the edges of its
variables are the same there and end at its variables. -/
structure Graph.Embeds (p : Variable → Variable) (g g' : Graph) : Prop where
  mapsTo : Set.MapsTo p {v | g.contains v = true} {v | g'.contains v = true}
  injOn : Set.InjOn p {v | g.contains v = true}
  levels : ∀ u v, g.contains u = true → g.contains v = true →
    g'.level? (p u) (p v) = g.level? u v
  closed : ∀ u w l, g.contains u = true → g'.contains w = true → g'.level? (p u) w = some l →
    ∃ v, g.contains v = true ∧ p v = w

theorem Graph.Renames.embeds {p : Variable → Variable} {g g' : Graph} (h : g.Renames p g') :
    g.Embeds p g' where
  mapsTo := h.bijective.mapsTo
  injOn := h.bijective.injOn
  levels := h.levels
  closed _ w _ _ hw _ := by
    obtain ⟨v, hv, hvw⟩ := h.bijective.surjOn hw
    exact ⟨v, hv, hvw⟩

namespace Frame

variable {g g' : Graph} {p : Variable → Variable}

theorem exists_embedding (h : g.Embeds p g') :
    ∃ f : Fin (ofGraph g).nodes.size → Fin (ofGraph g').nodes.size,
      Function.Injective f ∧ (∀ i, (ofGraph g').node (f i) = p ((ofGraph g).node i)) ∧
        (ofGraph g).edges.Embeds f (ofGraph g').edges := by
  have hposition : ∀ i, ∃ j, (ofGraph g').node j = p ((ofGraph g).node i) :=
    fun i => exists_node (h.mapsTo (contains_node i))
  choose f hf using hposition
  have hinjective : Function.Injective f := by
    intro i j hij
    apply node_inj (distinct_ofGraph g)
    apply h.injOn (contains_node i) (contains_node j)
    rw [← hf, ← hf, hij]
  refine ⟨f, hinjective, hf, ?_⟩
  intro u
  -- Both lists are without repetition, so it is enough to compare their members.
  have hpair : Function.Injective fun e : Fin (ofGraph g).nodes.size × Level => (f e.1, e.2) := by
    intro e e' heq
    obtain ⟨hnode, hlevel⟩ := Prod.mk.inj heq
    exact Prod.ext (hinjective hnode) hlevel
  have hmember : ∀ w l, (f w, l) ∈ (ofGraph g').edges.get (f u) ↔
      (w, l) ∈ (ofGraph g).edges.get u := by
    intro w l
    rw [mem_edges_ofGraph, hf, hf, h.levels _ _ (contains_node u) (contains_node w),
      ← mem_edges_ofGraph]
  apply (List.perm_ext_iff_of_nodup ((ordered_ofGraph g').nodup (f u))
    (((ordered_ofGraph g).nodup u).map hpair)).2
  rintro ⟨k, l⟩
  rw [List.mem_map]
  constructor
  · intro he
    have hstored := mem_edges_ofGraph.1 he
    rw [hf] at hstored
    obtain ⟨v, hv, hvk⟩ := h.closed _ _ _ (contains_node u) (contains_node k) hstored
    obtain ⟨w, rfl⟩ := exists_node hv
    obtain rfl : f w = k := node_inj (distinct_ofGraph g') ((hf w).trans hvk)
    exact ⟨(w, l), (hmember w l).1 he, rfl⟩
  · rintro ⟨e, he, heq⟩
    rw [← heq]
    exact (hmember e.1 e.2).2 he

theorem exists_relabelling (h : g.Renames p g') :
    ∃ f : Fin (ofGraph g).nodes.size ≃ Fin (ofGraph g').nodes.size,
      (∀ i, (ofGraph g').node (f i) = p ((ofGraph g).node i)) ∧
        (ofGraph g).edges.Relabels f (ofGraph g').edges := by
  obtain ⟨f, hinjective, hf, hedges⟩ := exists_embedding h.embeds
  have hsurjective : Function.Surjective f := by
    intro k
    obtain ⟨v, hv, hvk⟩ := h.bijective.surjOn (contains_node k)
    obtain ⟨i, rfl⟩ := exists_node hv
    exact ⟨i, node_inj (distinct_ofGraph g') ((hf i).trans hvk)⟩
  exact ⟨.ofBijective f ⟨hinjective, hsurjective⟩, hf, hedges⟩

end Frame

/-- Rows follow a renaming of the variables, whatever it does to their order. -/
theorem links_of_renamed_graph {g g' : Graph} (hg : g.Built) (hsize : g.size ≤ 2 ^ 14)
    {p : Variable → Variable} (h : g.Renames p g') {s : Variable} (hs : g.contains s = true)
    (floor : Option Level) :
    ∃ row, (Frame.ofGraph g).links s floor = .ok row ∧
      (Frame.ofGraph g').links (p s) floor = .ok (row.renamed p) := by
  have hn : (Frame.ofGraph g).nodes.size ≤ 2 ^ 14 := by
    rwa [Frame.size_ofGraph hg.wellFormed]
  have hproper := Frame.proper_ofGraph hg.wellFormed
  obtain ⟨f, hf, hrelabels⟩ := Frame.exists_relabelling h
  obtain ⟨i, row, rfl, hrow, hentry, hinside⟩ := Frame.exists_row hs floor
  obtain ⟨i', row', hi', hrow', hentry', hinside'⟩ :=
    Frame.exists_row (h.bijective.mapsTo hs) floor
  obtain rfl : f i = i' := Frame.node_inj (Frame.distinct_ofGraph g') ((hf i).trans hi'.symm)
  have himage : row' = row.renamed p := by
    apply SortedMap.eq_renamed h.bijective hinside hinside'
    intro v hv
    obtain ⟨j, rfl⟩ := Frame.exists_node hv
    rw [← hf, hentry', hentry]
    exact Adjacency.levelAt?_relabel hrelabels hn hproper i j floor
  exact ⟨row, hrow, himage ▸ hrow'⟩

namespace Gable

def root : Variable := ⟨"root", "root", .local⟩
def left : Variable := ⟨"left", "left", .local⟩
def right : Variable := ⟨"right", "right", .local⟩
def top : Variable := ⟨"top", "top", .field⟩

def additions : List (Variable × List (Variable × Level)) :=
  [(root, [(left, .dependent (.single 0 1 false)), (right, .dependent (.single 1 0 false))]),
    (left, [(top, .dependent (.single 1 2 false))]),
    (right, [(top, .dependent (.single 0 3 false))])]

def rename (v : Variable) : Variable :=
  if v = left then right
  else if v = right then left
  else if v = root then ⟨"zero", "zero", .this⟩
  else v

def renamedAdditions : List (Variable × List (Variable × Level)) :=
  [(top, [(left, .dependent (.single 3 0 false)), (right, .dependent (.single 2 1 false))]),
    (rename root, [(left, .dependent (.single 1 0 false)), (right, .dependent (.single 0 1 false))])]

def graph : Graph := (Graph.ofAdditions additions).toOption.getD .empty

def renamedGraph : Graph := (Graph.ofAdditions renamedAdditions).toOption.getD .empty

end Gable

theorem links_of_renamed_graph_gable :
    Gable.graph.Built ∧ Gable.renamedGraph.Built ∧ Gable.graph.size ≤ 2 ^ 14 ∧
      Gable.graph.Renames Gable.rename Gable.renamedGraph ∧
      Gable.graph.contains Gable.root = true ∧
      ∃ row, (Frame.ofGraph Gable.graph).links Gable.root none = .ok row ∧
        (Frame.ofGraph Gable.renamedGraph).links (Gable.rename Gable.root) none =
          .ok (row.renamed Gable.rename) := by
  have hgraph : Graph.ofAdditions Gable.additions = .ok Gable.graph := rfl
  have hgraph' : Graph.ofAdditions Gable.renamedAdditions = .ok Gable.renamedGraph := rfl
  have hbuilt : Gable.graph.Built := .of_additions hgraph
  have hsize : Gable.graph.size ≤ 2 ^ 14 := by decide
  have hrenames : Gable.graph.Renames Gable.rename Gable.renamedGraph := by decide
  have hroot : Gable.graph.contains Gable.root = true := by decide
  exact ⟨hbuilt, .of_additions hgraph', hsize, hrenames, hroot,
    links_of_renamed_graph hbuilt hsize hrenames hroot none⟩

example : ((Frame.ofGraph Gable.renamedGraph).links (Gable.rename Gable.root) none).toOption.bind
    (·.get? Gable.top) =
      ((Frame.ofGraph Gable.graph).links Gable.root none).toOption.bind
        (·.get? Gable.top) := by
  decide +kernel

end LinkClosure
