import LinkClosure.Proofs.Graph.Clusters
import LinkClosure.Proofs.Search.Paths

/-!
# Clusters and rows that keep to static assignment

With static assignment as its floor a row follows static assignments alone, on
both passes and at any length: a long chain may turn the entry at its end into a
delay, but the entry is there. So the variables of the row are those that static
assignments lead to, and these are the members of the cluster.
-/

set_option autoImplicit false

namespace LinkClosure

theorem Weight.low_le_static {l : Level} :
    Weight.low l ≤ Weight.low .staticallyAssigned ↔ l = .staticallyAssigned := by
  cases l <;> simp [low, lowStaticallyAssigned, lowDelayed, lowAssigned, lowDependent,
    lowCommonHidden, Distance.top]

theorem Weight.high_le_static {l : Level} :
    Weight.high l ≤ Weight.high .staticallyAssigned ↔ l = .staticallyAssigned := by
  cases l <;> simp [high, highStaticallyAssigned, highDelayed, highAssigned, highDependent,
    highCommonHidden, Distance.top]

namespace Frame

variable {σ : Type} {p : Pass σ} {limit : Nat} {g : Graph} {i j : Fin (ofGraph g).nodes.size}

theorem reaches_of_label (hp : p.Lawful)
    (hlimit : ∀ l, p.weight l ≤ limit → l = .staticallyAssigned) {a : Nat × σ}
    (h : (Search.run p limit (ofGraph g).edges i).best? j = some a) :
    g.Reaches ((ofGraph g).node i) ((ofGraph g).node j) := by
  apply Search.run_labels
    (P := fun k _ => g.Reaches ((ofGraph g).node i) ((ofGraph g).node k)) hp .refl _ _ h
  · intro u b v e x _ hu _ he hweight _
    obtain rfl := hlimit e hweight
    exact .tail hu (mem_edges_ofGraph.1 he)
  · intro v d x y hx _
    exact hx

theorem label_of_reaches (hg : g.WellFormed) (hp : p.Lawful)
    (hlimit : p.weight .staticallyAssigned ≤ limit)
    (haccepts : ∀ u b, (Search.run p limit (ofGraph g).edges i).best? u = some b →
      ∃ x, p.extend b.2 .staticallyAssigned = some x) {v : Variable}
    (h : g.Reaches ((ofGraph g).node i) v) :
    ∃ k b, (ofGraph g).node k = v ∧ (Search.run p limit (ofGraph g).edges i).best? k = some b := by
  induction h with
  | refl => exact ⟨i, (0, p.initial), rfl, Search.run_start hp⟩
  | tail _ hl ih =>
    obtain ⟨k, b, rfl, hb⟩ := ih
    obtain ⟨m, rfl⟩ := exists_node (hg.contains_target _ _ _ hl)
    obtain ⟨x, hx⟩ := haccepts k b hb
    obtain ⟨c, hc, _⟩ := Search.run_relaxed hp hb (mem_edges_ofGraph.2 hl) hlimit hx
    exact ⟨m, c, rfl, hc⟩

theorem static_of_high {a : Nat × Level}
    (h : ((ofGraph g).edges.highSearch i (some .staticallyAssigned)).best? j = some a) :
    a.2 = .staticallyAssigned := by
  apply Search.run_labels (P := fun _ a => a.2 = .staticallyAssigned) Pass.high_lawful rfl _ _ h
  · intro u b v e x _ hb _ _ hweight hext
    obtain rfl := Weight.high_le_static.1 hweight
    rw [hb] at hext
    exact (Option.some.inj hext).symm
  · rintro v d _ _ rfl rfl
    rfl

/-- The row has an entry where static assignments lead. -/
theorem levelAt?_isSome_iff_reaches (hg : g.WellFormed) :
    ((ofGraph g).edges.levelAt? i (some .staticallyAssigned) j).isSome ↔
      g.Reaches ((ofGraph g).node i) ((ofGraph g).node j) := by
  have hdistinct := distinct_ofGraph g
  rw [Adjacency.levelAt?]
  split_ifs with hj
  · rw [hj]
    exact ⟨fun _ => .refl, fun _ => rfl⟩
  · rw [levelOfPasses?_isSome]
    constructor
    · rintro ⟨a, ha, _⟩
      exact reaches_of_label Pass.low_lawful (fun _ => Weight.low_le_static.1) ha
    · intro h
      obtain ⟨k, a, hk, ha⟩ := label_of_reaches hg Pass.low_lawful (Nat.le_refl _)
        (fun _ b _ => b.2.extend_accepts .staticallyAssigned) h
      obtain ⟨m, b, hm, hb⟩ := label_of_reaches hg Pass.high_lawful (Nat.le_refl _)
        (fun _ b hb => ⟨.staticallyAssigned, by rw [static_of_high hb]; rfl⟩) h
      obtain rfl := node_inj hdistinct hk
      obtain rfl := node_inj hdistinct hm
      exact ⟨a, ha, .inr (.inl (Option.isSome_iff_exists.2 ⟨b, hb⟩))⟩

theorem exists_static_row (hg : g.WellFormed) {s : Variable} (hs : g.contains s = true) :
    ∃ row, (ofGraph g).links s (some .staticallyAssigned) = .ok row ∧
      ∀ w, w ∈ row.keys ↔ g.Reaches s w := by
  obtain ⟨i, row, rfl, hrow, hentry, hinside⟩ := exists_row hs (some .staticallyAssigned)
  refine ⟨row, hrow, fun w => ?_⟩
  rw [SortedMap.mem_keys_iff]
  constructor
  · intro h
    obtain ⟨l, hl⟩ := Option.isSome_iff_exists.1 h
    obtain ⟨j, rfl⟩ := exists_node (hinside w l hl)
    rwa [hentry, levelAt?_isSome_iff_reaches hg] at h
  · intro h
    obtain ⟨j, rfl⟩ := exists_node (h.contains hg hs)
    rwa [hentry, levelAt?_isSome_iff_reaches hg]

end Frame

/-- A variable that is no return value is in one cluster, and its row down to static
assignment has the variables of that cluster; so it is with the return value and the
cluster on top. -/
theorem clusters_agree_with_rows {g : Graph} (hg : g.Built) :
    (∀ v, g.contains v = true → v.isReturnValue = false →
      ∃ c row, c ∈ g.clusters.clusters ∧ v ∈ c ∧ (∀ d ∈ g.clusters.clusters, v ∈ d → d = c) ∧
        (Frame.ofGraph g).links v (some .staticallyAssigned) = .ok row ∧
        ∀ w, w ∈ c ↔ w ∈ row.keys) ∧
    ∀ r, g.clusters.returnValue = some r →
      ∃ c row, g.clusters.returnValueCluster = some c ∧
        (Frame.ofGraph g).links r (some .staticallyAssigned) = .ok row ∧
        ∀ w, w ∈ c ↔ w ∈ row.keys := by
  have hwf := hg.wellFormed
  constructor
  · intro v hv hreturn
    obtain ⟨row, hrow, hkeys⟩ := Frame.exists_static_row hwf hv
    obtain ⟨hmem, hself⟩ := (Graph.mem_clusters_iff hwf hv hreturn).2 rfl
    refine ⟨g.clusterOf v, row, hmem, hself, ?_, hrow, ?_⟩
    · intro d hd hvd
      exact (Graph.mem_clusters_iff hwf hv hreturn).1 ⟨hd, hvd⟩
    · intro w
      rw [Graph.mem_clusterOf hg hv hreturn, hkeys]
  · intro r hr
    have hmem : r ∈ g.order.filter Variable.isReturnValue := List.mem_of_getLast? hr
    have hcontains := (hwf.mem_order r).1 (List.mem_filter.1 hmem).1
    obtain ⟨row, hrow, hkeys⟩ := Frame.exists_static_row hwf hcontains
    refine ⟨_, row, congrArg (Option.map _) hr, hrow, ?_⟩
    intro w
    exact (Graph.mem_clusterOfReturnValue hg).trans (hkeys w).symm

namespace Pairs

def left : Variable := ⟨"a", "a", .local⟩
def right : Variable := ⟨"b", "b", .local⟩
def other : Variable := ⟨"c", "c", .local⟩
def result : Variable := ⟨"rv", "rv", .returnValue⟩

def additions : List (Variable × List (Variable × Level)) :=
  [(left, [(right, .staticallyAssigned), (other, .assigned)]),
    (result, [(right, .staticallyAssigned), (other, .assigned)])]

def graph : Graph := (Graph.ofAdditions additions).toOption.getD .empty

theorem ofAdditions_eq : Graph.ofAdditions additions = .ok graph := rfl

example : graph.clusters.clusters = [[left, right], [other]] := by decide

example : graph.clusters.returnValueCluster = some [result, left, right] := by decide

end Pairs

theorem clusters_agree_with_rows_pairs :
    Pairs.graph.Built ∧
      Pairs.graph.contains Pairs.right = true ∧ Pairs.right.isReturnValue = false ∧
      (∃ c row, c ∈ Pairs.graph.clusters.clusters ∧ Pairs.right ∈ c ∧
        (∀ d ∈ Pairs.graph.clusters.clusters, Pairs.right ∈ d → d = c) ∧
        (Frame.ofGraph Pairs.graph).links Pairs.right (some .staticallyAssigned) = .ok row ∧
        ∀ w, w ∈ c ↔ w ∈ row.keys) ∧
      Pairs.graph.clusters.returnValue = some Pairs.result ∧
      ∃ c row, Pairs.graph.clusters.returnValueCluster = some c ∧
        (Frame.ofGraph Pairs.graph).links Pairs.result (some .staticallyAssigned) = .ok row ∧
        ∀ w, w ∈ c ↔ w ∈ row.keys :=
  have hbuilt : Pairs.graph.Built := .of_additions Pairs.ofAdditions_eq
  have hright : Pairs.graph.contains Pairs.right = true := by decide
  have hresult : Pairs.graph.clusters.returnValue = some Pairs.result := by decide
  have hagree := clusters_agree_with_rows hbuilt
  ⟨hbuilt, hright, rfl, hagree.1 _ hright rfl, hresult, hagree.2 _ hresult⟩

end LinkClosure
