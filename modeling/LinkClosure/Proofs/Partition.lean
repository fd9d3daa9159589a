import LinkClosure.Proofs.Graph.Clusters
import Mathlib.Data.List.Nodup

/-!
# Clusters as a partition

Grouping goes through the variables once, in the order they were inserted, and
puts each into the group of its label or opens a new group with it. One step adds
one variable and moves nothing else, so in the end no variable is lost or
doubled; the first members of the groups come in the order the groups were
opened. With what a label stands for, the clusters are the parts into which
static assignment divides the variables.

The return value stays outside. The cluster on top starts with it, and takes the
members of clusters one after the other as far as they are not there yet.
-/

set_option autoImplicit false

namespace LinkClosure

namespace Graph

variable {g : Graph} {u v w : Variable} {c : Cluster} {r : Variable}

section Grouping

variable {label : Variable → Option Nat} {groups : List (Option Nat × Cluster)}

def firsts (groups : List (Option Nat × Cluster)) : List Variable :=
  groups.filterMap fun x => x.2.head?

theorem groupInto_perm (l : Option Nat) (v : Variable) (groups : List (Option Nat × Cluster)) :
    ((groupInto l v groups).flatMap Prod.snd).Perm (groups.flatMap Prod.snd ++ [v]) := by
  induction groups with
  | nil => rfl
  | cons x rest ih =>
    rw [groupInto]
    split_ifs
    · simp only [List.flatMap_cons, List.append_assoc]
      exact List.perm_append_comm.append_left x.2
    · simp only [List.flatMap_cons, List.append_assoc]
      exact ih.append_left x.2

theorem groupInto_nonempty (l : Option Nat) (v : Variable) (h : ∀ x ∈ groups, x.2 ≠ []) :
    ∀ x ∈ groupInto l v groups, x.2 ≠ [] := by
  induction groups with
  | nil => simp [groupInto]
  | cons y rest ih =>
    obtain ⟨hy, hrest⟩ := List.forall_mem_cons.1 h
    rw [groupInto]
    split_ifs
    · exact List.forall_mem_cons.2 ⟨by simp, hrest⟩
    · exact List.forall_mem_cons.2 ⟨hy, ih hrest⟩

theorem firsts_groupInto (l : Option Nat) (v : Variable) (h : ∀ x ∈ groups, x.2 ≠ []) :
    (firsts (groupInto l v groups)).Sublist (firsts groups ++ [v]) := by
  induction groups with
  | nil => exact List.Sublist.refl _
  | cons y rest ih =>
    obtain ⟨hy, hrest⟩ := List.forall_mem_cons.1 h
    obtain ⟨a, c, hac⟩ := List.exists_cons_of_ne_nil hy
    rw [groupInto]
    split_ifs
    · simp [firsts, hac]
    · simpa [firsts, hac] using ih hrest

theorem groupAll_perm (vs : List Variable) (groups : List (Option Nat × Cluster)) :
    ((vs.foldl (fun groups v => groupInto (label v) v groups) groups).flatMap Prod.snd).Perm
      (groups.flatMap Prod.snd ++ vs) := by
  induction vs generalizing groups with
  | nil => simp
  | cons v vs ih =>
    have hstep := (groupInto_perm (label v) v groups).append_right vs
    rw [List.append_assoc, List.singleton_append] at hstep
    exact (ih _).trans hstep

theorem groupAll_in_order (vs : List Variable) (h : ∀ x ∈ groups, x.2 ≠ []) :
    (∀ x ∈ vs.foldl (fun groups v => groupInto (label v) v groups) groups, x.2 ≠ []) ∧
      (firsts (vs.foldl (fun groups v => groupInto (label v) v groups) groups)).Sublist
        (firsts groups ++ vs) := by
  induction vs generalizing groups with
  | nil => exact ⟨h, by simp⟩
  | cons v vs ih =>
    obtain ⟨hne, hsub⟩ := ih (groupInto_nonempty (label v) v h)
    refine ⟨hne, hsub.trans ?_⟩
    have hstep := (firsts_groupInto (label v) v h).append_right vs
    rwa [List.append_assoc, List.singleton_append] at hstep

end Grouping

section Members

theorem clusters_perm (g : Graph) :
    g.clusters.clusters.flatten.Perm (g.order.filter (!·.isReturnValue)) := by
  have hall : (g.clusterGroups.flatMap Prod.snd).Perm ([] ++ g.order.filter (!·.isReturnValue)) :=
    groupAll_perm _ []
  rwa [List.nil_append, List.flatMap_def] at hall

theorem nodup_clusters (hg : g.WellFormed) : g.clusters.clusters.flatten.Nodup :=
  g.clusters_perm.nodup_iff.2 (hg.nodup_order.filter _)

theorem mem_clusters_flatten (hg : g.WellFormed) :
    v ∈ g.clusters.clusters.flatten ↔ g.contains v = true ∧ v.isReturnValue = false := by
  rw [g.clusters_perm.mem_iff, List.mem_filter, hg.mem_order, Bool.not_eq_true']

theorem clusters_ne_nil (hc : c ∈ g.clusters.clusters) : c ≠ [] := by
  obtain ⟨x, hx, rfl⟩ := List.mem_map.1 hc
  exact (groupAll_in_order _ (List.forall_mem_nil _)).1 x hx

theorem firsts_clusters (g : Graph) :
    (g.clusters.clusters.filterMap List.head?).Sublist g.order := by
  have hfirsts : (firsts g.clusterGroups).Sublist ([] ++ g.order.filter (!·.isReturnValue)) :=
    (groupAll_in_order _ (List.forall_mem_nil _)).2
  have heads : g.clusters.clusters.filterMap List.head? = firsts g.clusterGroups :=
    List.filterMap_map
  rw [heads]
  exact hfirsts.trans List.filter_sublist

theorem cluster_sublist (hg : g.WellFormed) (hc : c ∈ g.clusters.clusters) : c.Sublist g.order := by
  obtain ⟨v, hv⟩ := List.exists_mem_of_ne_nil c (clusters_ne_nil hc)
  obtain ⟨hcontains, hreturn⟩ := (mem_clusters_flatten hg).1 (List.mem_flatten.2 ⟨c, hc, hv⟩)
  rw [(mem_clusters_iff hg hcontains hreturn).1 ⟨hc, hv⟩]
  exact List.filter_sublist.trans List.filter_sublist

end Members

section Chains

/-- A static assignment between two variables that are no return values, in one direction or
the other. -/
def StaticLink (g : Graph) (u v : Variable) : Prop :=
  u.isReturnValue = false ∧ v.isReturnValue = false ∧ (g.StaticEdge u v ∨ g.StaticEdge v u)

theorem reaches_iff_chain (hg : g.Built) (hu : u.isReturnValue = false) :
    g.Reaches u v ↔ Relation.ReflTransGen g.StaticLink u v := by
  have hwf := hg.wellFormed
  constructor
  · intro h
    induction h with
    | refl => exact .refl
    | @tail a b ha hl ih =>
      have hreturn : a.isReturnValue = false := Reaches.not_return hwf hu ha
      exact ih.tail ⟨hreturn, hwf.target_not_return a b _ hl, .inl hl⟩
  · intro h
    induction h with
    | refl => exact .refl
    | tail _ hl ih =>
      obtain ⟨_, hreturn, hl | hl⟩ := hl
      · exact ih.tail hl
      · exact ih.tail (hg.static_back hreturn hl)

theorem share_iff_chain (hg : g.Built) (hu : g.contains u = true)
    (hreturn : u.isReturnValue = false) :
    (∃ c ∈ g.clusters.clusters, u ∈ c ∧ v ∈ c) ↔ Relation.ReflTransGen g.StaticLink u v := by
  rw [← reaches_iff_chain hg hreturn, ← mem_clusterOf hg hu hreturn]
  constructor
  · rintro ⟨c, hc, huc, hvc⟩
    rwa [← (mem_clusters_iff hg.wellFormed hu hreturn).1 ⟨hc, huc⟩]
  · intro hv
    obtain ⟨hc, huc⟩ := (mem_clusters_iff hg.wellFormed hu hreturn).2 rfl
    exact ⟨_, hc, huc, hv⟩

end Chains

section ReturnValues

theorem returnValue_eq_some :
    g.clusters.returnValue = some r ↔
      r.isReturnValue = true ∧ ∃ before after, g.order = before ++ r :: after ∧
        ∀ v ∈ after, v.isReturnValue = false := by
  show (g.order.filter Variable.isReturnValue).getLast? = some r ↔ _
  rw [← List.head?_reverse, ← List.filter_reverse, List.head?_filter,
    List.find?_eq_some_iff_append]
  simp only [Bool.not_eq_true']
  constructor
  · rintro ⟨hr, after, before, hsplit, hlast⟩
    refine ⟨hr, before.reverse, after.reverse, ?_, ?_⟩
    · rw [← List.reverse_reverse g.order, hsplit]
      simp
    · simpa using hlast
  · rintro ⟨hr, before, after, hsplit, hlast⟩
    refine ⟨hr, after.reverse, before.reverse, ?_, ?_⟩
    · rw [hsplit]
      simp
    · simpa using hlast

theorem foldl_addMissing (vs : List Variable) (c : Cluster) (hc : c.Nodup) :
    ∃ rest, vs.foldl addMissing c = c ++ rest ∧ (c ++ rest).Nodup := by
  induction vs generalizing c with
  | nil => exact ⟨[], by simp, by simpa using hc⟩
  | cons v vs ih =>
    rw [List.foldl_cons, addMissing]
    split_ifs with hv
    · exact ih c hc
    · have hnodup : (c ++ [v]).Nodup := by
        rw [List.nodup_append]
        refine ⟨hc, List.nodup_singleton v, ?_⟩
        rintro x hx y hy rfl
        exact hv (List.mem_singleton.1 hy ▸ hx)
      obtain ⟨rest, hrest, hall⟩ := ih (c ++ [v]) hnodup
      rw [List.append_assoc] at hrest hall
      exact ⟨v :: rest, hrest, hall⟩

theorem mem_cluster_found (hg : g.WellFormed) (h : g.StaticEdge r v) :
    w ∈ (g.clusters.clusters.find? fun c => v ∈ c).getD [] ↔
      ∃ c ∈ g.clusters.clusters, v ∈ c ∧ w ∈ c := by
  have hv : g.contains v = true := hg.contains_target r v _ h
  have hreturn : v.isReturnValue = false := hg.target_not_return r v _ h
  rw [find?_clusters hg hv hreturn, Option.getD_some]
  constructor
  · intro hw
    obtain ⟨hc, hvc⟩ := (mem_clusters_iff hg hv hreturn).2 rfl
    exact ⟨_, hc, hvc, hw⟩
  · rintro ⟨c, hc, hvc, hw⟩
    rwa [← (mem_clusters_iff hg hv hreturn).1 ⟨hc, hvc⟩]

theorem clusterOfReturnValue_eq (hg : g.WellFormed) (hr : r.isReturnValue = true) :
    ∃ rest, g.clusterOfReturnValue g.clusters.clusters r = r :: rest ∧ (r :: rest).Nodup ∧
      ∀ w, w ∈ rest ↔ ∃ v, g.StaticEdge r v ∧ ∃ c ∈ g.clusters.clusters, v ∈ c ∧ w ∈ c := by
  obtain ⟨rest, hrest, hnodup⟩ := foldl_addMissing
    ((g.staticNeighbours r).flatMap fun v => (g.clusters.clusters.find? fun c => v ∈ c).getD [])
    [r] (List.nodup_singleton r)
  have hmem : ∀ w, w ∈ r :: rest ↔
      w = r ∨ ∃ v, g.StaticEdge r v ∧ ∃ c ∈ g.clusters.clusters, v ∈ c ∧ w ∈ c := by
    intro w
    rw [← List.singleton_append, ← hrest, mem_foldl_addMissing, List.mem_singleton,
      List.mem_flatMap]
    simp only [mem_staticNeighbours]
    exact or_congr_right (exists_congr fun v => and_congr_right (mem_cluster_found hg))
  refine ⟨rest, hrest, hnodup, fun w => ?_⟩
  constructor
  · intro hw
    have hne : w ≠ r := by
      rintro rfl
      exact (List.nodup_cons.1 hnodup).1 hw
    exact ((hmem w).1 (List.mem_cons_of_mem r hw)).resolve_left hne
  · intro h
    have hne : w ≠ r := by
      rintro rfl
      obtain ⟨v, _, c, hc, _, hw⟩ := h
      have hreturn := ((mem_clusters_flatten hg).1 (List.mem_flatten.2 ⟨c, hc, hw⟩)).2
      rw [hr] at hreturn
      cases hreturn
    exact (List.mem_cons.1 ((hmem w).2 (.inr h))).resolve_left hne

end ReturnValues

/-- The clusters divide the variables of a graph, return values left out, into what static
assignment connects; the last return value has a cluster on top. -/
structure Divides (g : Graph) (cs : Clusters) : Prop where
  nodup : cs.clusters.flatten.Nodup
  mem_iff : ∀ v, (∃ c ∈ cs.clusters, v ∈ c) ↔ g.contains v = true ∧ v.isReturnValue = false
  share_iff : ∀ u v, g.contains u = true → u.isReturnValue = false →
    ((∃ c ∈ cs.clusters, u ∈ c ∧ v ∈ c) ↔ Relation.ReflTransGen g.StaticLink u v)
  nonempty : ∀ c ∈ cs.clusters, c ≠ []
  members_in_order : ∀ c ∈ cs.clusters, c.Sublist g.order
  firsts_in_order : (cs.clusters.filterMap List.head?).Sublist g.order
  returnValue_iff : ∀ r, cs.returnValue = some r ↔
    r.isReturnValue = true ∧ ∃ before after, g.order = before ++ r :: after ∧
      ∀ v ∈ after, v.isReturnValue = false
  cluster_on_top : ∀ r, cs.returnValue = some r →
    ∃ rest, cs.returnValueCluster = some (r :: rest) ∧ (r :: rest).Nodup ∧
      ∀ w, w ∈ rest ↔ ∃ v, g.StaticEdge r v ∧ ∃ c ∈ cs.clusters, v ∈ c ∧ w ∈ c
  no_cluster_on_top : cs.returnValue = none → cs.returnValueCluster = none

end Graph

theorem clusters_divide_variables {g : Graph} (hg : g.Built) : g.Divides g.clusters where
  nodup := Graph.nodup_clusters hg.wellFormed
  mem_iff v := by rw [← Graph.mem_clusters_flatten hg.wellFormed, List.mem_flatten]
  share_iff _ _ hu hreturn := Graph.share_iff_chain hg hu hreturn
  nonempty _ hc := Graph.clusters_ne_nil hc
  members_in_order _ hc := Graph.cluster_sublist hg.wellFormed hc
  firsts_in_order := g.firsts_clusters
  returnValue_iff _ := Graph.returnValue_eq_some
  cluster_on_top r hr := by
    have hreturn : r.isReturnValue = true := (Graph.returnValue_eq_some.1 hr).1
    obtain ⟨rest, hrest, hnodup, hmem⟩ := Graph.clusterOfReturnValue_eq hg.wellFormed hreturn
    refine ⟨rest, ?_, hnodup, hmem⟩
    rw [← hrest]
    exact congrArg (Option.map _) hr
  no_cluster_on_top h := congrArg (Option.map _) h

namespace Handover

def a : Variable := ⟨"a", "a", .local⟩
def b : Variable := ⟨"b", "b", .local⟩
def c : Variable := ⟨"c", "c", .local⟩
def d : Variable := ⟨"d", "d", .local⟩
def early : Variable := ⟨"early", "early", .returnValue⟩
def late : Variable := ⟨"late", "late", .returnValue⟩

def additions : List (Variable × List (Variable × Level)) :=
  [(a, [(b, .assigned)]), (early, [(b, .staticallyAssigned)]), (d, [(c, .staticallyAssigned)]),
    (c, [(a, .staticallyAssigned)]), (late, [(d, .staticallyAssigned)])]

def graph : Graph := (Graph.ofAdditions additions).toOption.getD .empty

theorem ofAdditions_eq : Graph.ofAdditions additions = .ok graph := rfl

example : graph.clusters.clusters = [[a, d, c], [b]] := by decide

example : graph.clusters.returnValueCluster = some [late, a, d, c] := by decide

end Handover

theorem clusters_divide_variables_handover :
    Handover.graph.Built ∧ Handover.graph.Divides Handover.graph.clusters ∧
      Handover.graph.clusters.returnValue = some Handover.late ∧
      (∃ c ∈ Handover.graph.clusters.clusters, Handover.a ∈ c ∧ Handover.d ∈ c) ∧
      Relation.ReflTransGen Handover.graph.StaticLink Handover.a Handover.d := by
  have hbuilt : Handover.graph.Built := .of_additions Handover.ofAdditions_eq
  have hdivides := clusters_divide_variables hbuilt
  have hshare : ∃ c ∈ Handover.graph.clusters.clusters, Handover.a ∈ c ∧ Handover.d ∈ c := by decide
  exact ⟨hbuilt, hdivides, by decide, hshare,
    (hdivides.share_iff Handover.a Handover.d (by decide) rfl).1 hshare⟩

end LinkClosure
