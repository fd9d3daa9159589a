import LinkClosure.Graph.Cluster
import LinkClosure.Proofs.Graph.TwoWay

/-!
# What a cluster holds

Joining labels never separates two variables that share one, and it joins two
labels only where an edge connects them. So in the end two variables share a
label if and only if static assignments lead from one to the other. Grouping
keeps the variables of one label together, and their order.
-/

set_option autoImplicit false

namespace LinkClosure

namespace Graph

variable {g : Graph} {u v w : Variable}

section Reaching

def StaticEdge (g : Graph) (u v : Variable) : Prop := g.level? u v = some .staticallyAssigned

theorem mem_staticNeighbours : v ∈ g.staticNeighbours u ↔ g.StaticEdge u v := by
  rw [StaticEdge, level?, ← SortedMap.mem_entries_iff]
  simp [staticNeighbours, isStaticEdge]

theorem mem_staticEdges (hg : g.WellFormed) :
    (u, v) ∈ g.staticEdges ↔ u.isReturnValue = false ∧ g.StaticEdge u v := by
  simp only [staticEdges, List.mem_flatMap, List.mem_filter, List.mem_map, Prod.mk.injEq,
    mem_staticNeighbours, Bool.not_eq_true']
  constructor
  · rintro ⟨_, ⟨_, hu⟩, _, hl, rfl, rfl⟩
    exact ⟨hu, hl⟩
  · rintro ⟨hu, hl⟩
    exact ⟨u, ⟨(hg.mem_order u).2 (hg.contains_source u v _ hl), hu⟩, v, hl, rfl, rfl⟩

/-- Static assignments lead from one variable to the other. -/
abbrev Reaches (g : Graph) : Variable → Variable → Prop := Relation.ReflTransGen g.StaticEdge

theorem Reaches.contains (hg : g.WellFormed) (hu : g.contains u = true) (h : g.Reaches u v) :
    g.contains v = true := by
  rcases h.cases_tail with rfl | ⟨a, _, hl⟩
  · exact hu
  · exact hg.contains_target a v _ hl

theorem Reaches.not_return (hg : g.WellFormed) (hu : u.isReturnValue = false)
    (h : g.Reaches u v) : v.isReturnValue = false := by
  rcases h.cases_tail with rfl | ⟨a, _, hl⟩
  · exact hu
  · exact hg.target_not_return a v _ hl

theorem bare?_eq_static :
    g.bare? u v = some .staticallyAssigned ↔ g.StaticEdge u v := by
  rw [bare?, Option.map_eq_some_iff]
  constructor
  · rintro ⟨l, hl, hbare⟩
    cases l <;> simp_all [Level.bare, StaticEdge]
  · intro h
    exact ⟨_, h, rfl⟩

theorem Built.static_back (hg : g.Built) (hu : u.isReturnValue = false) (h : g.StaticEdge u v) :
    g.StaticEdge v u := by
  have hv : v.isReturnValue = false := hg.wellFormed.target_not_return u v _ h
  rwa [← bare?_eq_static, ← hg.twoWay u v hu hv, bare?_eq_static]

def Mutual (g : Graph) (u v : Variable) : Prop := g.Reaches u v ∧ g.Reaches v u

theorem equivalence_mutual (g : Graph) : Equivalence g.Mutual where
  refl _ := ⟨.refl, .refl⟩
  symm h := ⟨h.2, h.1⟩
  trans h h' := ⟨h.1.trans h'.1, h'.2.trans h.2⟩

end Reaching

section Labels

variable {labels : Labelling} {R : Variable → Variable → Prop}

theorem joinLabels_renames (labels : Labelling) (e : Variable × Variable) :
    ∃ f : Nat → Nat, ∀ v, (joinLabels labels e).get? v = (labels.get? v).map f := by
  rw [joinLabels]
  split
  · exact ⟨_, fun v => SortedMap.get?_mapValues _ labels v⟩
  · exact ⟨id, fun v => (Option.map_id_apply).symm⟩

theorem get?_joinLabels {a b : Nat} (ha : labels.get? u = some a) (hb : labels.get? v = some b)
    (w : Variable) :
    (joinLabels labels (u, v)).get? w =
      (labels.get? w).map fun c => if c = a then b else c := by
  simp only [joinLabels, ha, hb]
  exact SortedMap.get?_mapValues _ labels w

theorem joinLabels_keeps_shared (h : labels.get? u = labels.get? v) (e : Variable × Variable) :
    (joinLabels labels e).get? u = (joinLabels labels e).get? v := by
  obtain ⟨f, hf⟩ := joinLabels_renames labels e
  rw [hf, hf, h]

theorem isSome_get?_joinLabels (labels : Labelling) (e : Variable × Variable) (v : Variable) :
    ((joinLabels labels e).get? v).isSome = (labels.get? v).isSome := by
  obtain ⟨f, hf⟩ := joinLabels_renames labels e
  rw [hf, Option.isSome_map]

theorem joinLabels_joins (hu : (labels.get? u).isSome) (hv : (labels.get? v).isSome) :
    (joinLabels labels (u, v)).get? u = (joinLabels labels (u, v)).get? v := by
  obtain ⟨a, ha⟩ := Option.isSome_iff_exists.1 hu
  obtain ⟨b, hb⟩ := Option.isSome_iff_exists.1 hv
  rw [get?_joinLabels ha hb, get?_joinLabels ha hb, ha, hb]
  simp

def LabelsRelated (R : Variable → Variable → Prop) (labels : Labelling) : Prop :=
  ∀ u v a, labels.get? u = some a → labels.get? v = some a → R u v

theorem LabelsRelated.joinLabels (hR : Equivalence R) (h : LabelsRelated R labels)
    {e : Variable × Variable} (he : R e.1 e.2) : LabelsRelated R (joinLabels labels e) := by
  cases ha : labels.get? e.1 with
  | none => simpa [Graph.joinLabels, ha] using h
  | some a =>
    cases hb : labels.get? e.2 with
    | none => simpa [Graph.joinLabels, ha, hb] using h
    | some b =>
      have htarget : ∀ w k, labels.get? w = some k → (if k = a then b else k) = b → R w e.2 := by
        intro w k hk hjoined
        split_ifs at hjoined with hka
        · exact hR.trans (h w e.1 a (hka ▸ hk) ha) he
        · exact h w e.2 b (hjoined ▸ hk) hb
      intro u v c hu hv
      rw [get?_joinLabels ha hb] at hu hv
      obtain ⟨k, hk, hkc⟩ := Option.map_eq_some_iff.1 hu
      obtain ⟨m, hm, hmc⟩ := Option.map_eq_some_iff.1 hv
      by_cases hc : c = b
      · subst hc
        exact hR.trans (htarget u k hk hkc) (hR.symm (htarget v m hm hmc))
      · have hunchanged : ∀ x, (if x = a then b else x) = c → x = c := by
          intro x hx
          split_ifs at hx with hxa
          · exact absurd hx.symm hc
          · exact hx
        exact h u v c (hunchanged k hkc ▸ hk) (hunchanged m hmc ▸ hm)

theorem LabelsRelated.joinAll (hR : Equivalence R) {es : List (Variable × Variable)}
    (h : LabelsRelated R labels) (hes : ∀ e ∈ es, R e.1 e.2) :
    LabelsRelated R (es.foldl Graph.joinLabels labels) := by
  induction es generalizing labels with
  | nil => exact h
  | cons e es ih =>
    obtain ⟨he, hrest⟩ := List.forall_mem_cons.1 hes
    exact ih (h.joinLabels hR he) hrest

theorem joinAll_keeps_shared (es : List (Variable × Variable))
    (h : labels.get? u = labels.get? v) :
    (es.foldl joinLabels labels).get? u = (es.foldl joinLabels labels).get? v := by
  induction es generalizing labels with
  | nil => exact h
  | cons e es ih => exact ih (joinLabels_keeps_shared h e)

theorem isSome_get?_joinAll (es : List (Variable × Variable)) (labels : Labelling)
    (v : Variable) : ((es.foldl joinLabels labels).get? v).isSome = (labels.get? v).isSome := by
  induction es generalizing labels with
  | nil => rfl
  | cons e es ih => rw [List.foldl_cons, ih, isSome_get?_joinLabels]

theorem joinAll_joins {es : List (Variable × Variable)} (he : (u, v) ∈ es)
    (hu : (labels.get? u).isSome) (hv : (labels.get? v).isSome) :
    (es.foldl joinLabels labels).get? u = (es.foldl joinLabels labels).get? v := by
  induction es generalizing labels with
  | nil => cases he
  | cons e es ih =>
    rcases List.mem_cons.1 he with rfl | hrest
    · exact joinAll_keeps_shared es (joinLabels_joins hu hv)
    · apply ih hrest
      · rwa [isSome_get?_joinLabels]
      · rwa [isSome_get?_joinLabels]

theorem get?_ownLabels (hg : g.WellFormed) {a : Nat} :
    g.ownLabels.get? v = some a ↔ g.order[a]? = some v := by
  have hnodup : (g.order.zipIdx.map Prod.fst).Nodup := by
    rw [List.zipIdx_map_fst]
    exact hg.nodup_order
  rw [ownLabels, SortedMap.get?_ofList_iff hnodup, List.mem_zipIdx_iff_getElem?]

theorem labelsRelated_ownLabels (hg : g.WellFormed) (hR : Equivalence R) :
    LabelsRelated R g.ownLabels := by
  intro u v a hu hv
  rw [get?_ownLabels hg] at hu hv
  obtain rfl := Option.some.inj (hu.symm.trans hv)
  exact hR.refl u

theorem isSome_ownLabels (hg : g.WellFormed) (hv : g.contains v = true) :
    (g.ownLabels.get? v).isSome := by
  obtain ⟨a, ha⟩ := List.mem_iff_getElem?.1 ((hg.mem_order v).2 hv)
  exact Option.isSome_iff_exists.2 ⟨a, (get?_ownLabels hg).2 ha⟩

theorem isSome_clusterLabels (hg : g.WellFormed) (hv : g.contains v = true) :
    (g.clusterLabels.get? v).isSome := by
  rw [clusterLabels, isSome_get?_joinAll]
  exact isSome_ownLabels hg hv

theorem clusterLabels_joins (hg : g.WellFormed) (hu : u.isReturnValue = false)
    (h : g.StaticEdge u v) : g.clusterLabels.get? u = g.clusterLabels.get? v := by
  apply joinAll_joins ((mem_staticEdges hg).2 ⟨hu, h⟩)
  · exact isSome_ownLabels hg (hg.contains_source u v _ h)
  · exact isSome_ownLabels hg (hg.contains_target u v _ h)

theorem labelsRelated_clusterLabels (hg : g.Built) : LabelsRelated g.Mutual g.clusterLabels := by
  apply (labelsRelated_ownLabels hg.wellFormed g.equivalence_mutual).joinAll g.equivalence_mutual
  rintro ⟨u, v⟩ he
  obtain ⟨hu, hl⟩ := (mem_staticEdges hg.wellFormed).1 he
  exact ⟨.single hl, .single (hg.static_back hu hl)⟩

/-- Labels tell where static assignments lead. -/
theorem clusterLabels_eq_iff (hg : g.Built) (hu : g.contains u = true)
    (hreturn : u.isReturnValue = false) :
    g.clusterLabels.get? v = g.clusterLabels.get? u ↔ g.Reaches u v := by
  have hwf := hg.wellFormed
  constructor
  · intro h
    obtain ⟨a, ha⟩ := Option.isSome_iff_exists.1 (isSome_clusterLabels hwf hu)
    exact (labelsRelated_clusterLabels hg u v a ha (h.trans ha)).1
  · intro h
    induction h with
    | refl => rfl
    | tail ha hl ih => rw [← ih, clusterLabels_joins hwf (Reaches.not_return hwf hreturn ha) hl]

end Labels

section Groups

open SortedMap (lookupIn)

variable {label : Variable → Option Nat} {c : Cluster} {r : Variable}

theorem lookupIn_groupInto (k l : Option Nat) (v : Variable)
    (groups : List (Option Nat × Cluster)) :
    lookupIn k (groupInto l v groups) =
      if k = l then some ((lookupIn l groups).getD [] ++ [v]) else lookupIn k groups := by
  induction groups with
  | nil => rfl
  | cons x rest ih =>
    by_cases hx : x.1 = l
    · by_cases hk : k = l <;> simp [groupInto, lookupIn, hx, hk]
    · by_cases hk : k = x.1
      · simp [groupInto, lookupIn, hx, hk]
      · simp [groupInto, lookupIn, hx, hk, ih, Ne.symm hx]

theorem map_fst_groupInto (l : Option Nat) (v : Variable)
    (groups : List (Option Nat × Cluster)) :
    (groupInto l v groups).map Prod.fst =
      if l ∈ groups.map Prod.fst then groups.map Prod.fst else groups.map Prod.fst ++ [l] := by
  induction groups with
  | nil => rfl
  | cons x rest ih =>
    by_cases hx : x.1 = l
    · simp [groupInto, hx]
    · simp only [groupInto, if_neg hx, List.map_cons, ih, List.mem_cons, Ne.symm hx, false_or]
      split_ifs <;> rfl

theorem nodup_groupInto (l : Option Nat) (v : Variable) {groups : List (Option Nat × Cluster)}
    (h : (groups.map Prod.fst).Nodup) : ((groupInto l v groups).map Prod.fst).Nodup := by
  rw [map_fst_groupInto]
  split_ifs with hl
  · exact h
  · refine List.nodup_append.2 ⟨h, List.nodup_singleton l, ?_⟩
    rintro k hk m hm rfl
    exact hl (List.mem_singleton.1 hm ▸ hk)

theorem nodup_groupAll (vs : List Variable) {groups : List (Option Nat × Cluster)}
    (h : (groups.map Prod.fst).Nodup) :
    ((vs.foldl (fun groups v => groupInto (label v) v groups) groups).map Prod.fst).Nodup := by
  induction vs generalizing groups with
  | nil => exact h
  | cons v vs ih => exact ih (nodup_groupInto (label v) v h)

theorem lookupIn_groupAll (k : Option Nat) (vs : List Variable)
    (groups : List (Option Nat × Cluster)) :
    (lookupIn k (vs.foldl (fun groups v => groupInto (label v) v groups) groups)).getD [] =
      (lookupIn k groups).getD [] ++ vs.filter (label · = k) := by
  induction vs generalizing groups with
  | nil => simp
  | cons v vs ih =>
    rw [List.foldl_cons, ih, lookupIn_groupInto, List.filter_cons]
    by_cases hk : label v = k
    · simp [hk]
    · simp [hk, Ne.symm hk]

def clusterOf (g : Graph) (v : Variable) : Cluster :=
  (g.order.filter (!·.isReturnValue)).filter fun w =>
    g.clusterLabels.get? w = g.clusterLabels.get? v

theorem lookupIn_clusterGroups (g : Graph) (k : Option Nat) :
    (lookupIn k g.clusterGroups).getD [] =
      (g.order.filter (!·.isReturnValue)).filter (g.clusterLabels.get? · = k) :=
  lookupIn_groupAll k _ []

theorem mem_clusterGroups (g : Graph) (k : Option Nat) (c : Cluster) :
    (k, c) ∈ g.clusterGroups ↔ lookupIn k g.clusterGroups = some c := by
  have hnodup : (g.clusterGroups.map Prod.fst).Nodup := nodup_groupAll _ List.nodup_nil
  exact SortedMap.mem_iff_lookupIn (List.pairwise_map.1 hnodup)

theorem mem_clusters_iff (hg : g.WellFormed) (hv : g.contains v = true)
    (hreturn : v.isReturnValue = false) :
    c ∈ g.clusters.clusters ∧ v ∈ c ↔ c = g.clusterOf v := by
  have hself : v ∈ g.clusterOf v := by
    simp [clusterOf, hreturn, (hg.mem_order v).2 hv]
  constructor
  · rintro ⟨hc, hvc⟩
    obtain ⟨⟨k, _⟩, hk, rfl⟩ := List.mem_map.1 hc
    have hlookup := lookupIn_clusterGroups g k
    rw [(mem_clusterGroups g k _).1 hk, Option.getD_some] at hlookup
    rw [hlookup] at hvc ⊢
    obtain rfl := of_decide_eq_true (List.mem_filter.1 hvc).2
    rfl
  · rintro rfl
    refine ⟨List.mem_map.2 ⟨(g.clusterLabels.get? v, g.clusterOf v), ?_, rfl⟩, hself⟩
    rw [mem_clusterGroups]
    have hlookup : (lookupIn _ g.clusterGroups).getD [] = g.clusterOf v :=
      lookupIn_clusterGroups g (g.clusterLabels.get? v)
    cases hgroup : lookupIn (g.clusterLabels.get? v) g.clusterGroups with
    | none =>
      rw [hgroup] at hlookup
      rw [← hlookup] at hself
      cases hself
    | some d =>
      rw [hgroup] at hlookup
      rw [← hlookup, Option.getD_some]

theorem mem_clusterOf (hg : g.Built) (hv : g.contains v = true)
    (hreturn : v.isReturnValue = false) : w ∈ g.clusterOf v ↔ g.Reaches v w := by
  have hwf := hg.wellFormed
  simp only [clusterOf, List.mem_filter, decide_eq_true_eq, Bool.not_eq_true',
    clusterLabels_eq_iff hg hv hreturn]
  refine ⟨And.right, fun h => ⟨⟨?_, h.not_return hwf hreturn⟩, h⟩⟩
  exact (hwf.mem_order w).2 (h.contains hwf hv)

theorem mem_foldl_addMissing (vs : List Variable) (c : Cluster) :
    w ∈ vs.foldl addMissing c ↔ w ∈ c ∨ w ∈ vs := by
  induction vs generalizing c with
  | nil => simp
  | cons v vs ih =>
    rw [List.foldl_cons, ih, addMissing]
    split_ifs with hv
    · rw [List.mem_cons]
      constructor
      · rintro (h | h)
        · exact .inl h
        · exact .inr (.inr h)
      · rintro (h | rfl | h)
        · exact .inl h
        · exact .inl hv
        · exact .inr h
    · simp [or_assoc]

theorem find?_clusters (hg : g.WellFormed) (hv : g.contains v = true)
    (hreturn : v.isReturnValue = false) :
    g.clusters.clusters.find? (fun c => v ∈ c) = some (g.clusterOf v) := by
  cases hfind : g.clusters.clusters.find? fun c => v ∈ c with
  | none =>
    obtain ⟨hmem, hself⟩ := (mem_clusters_iff hg hv hreturn).2 rfl
    exact absurd (decide_eq_true hself) (List.find?_eq_none.1 hfind _ hmem)
  | some c =>
    have hself : v ∈ c := by simpa using List.find?_some hfind
    rw [(mem_clusters_iff hg hv hreturn).1 ⟨List.mem_of_find?_eq_some hfind, hself⟩]

theorem mem_clusterOfReturnValue (hg : g.Built) :
    w ∈ g.clusterOfReturnValue g.clusters.clusters r ↔ g.Reaches r w := by
  have hwf := hg.wellFormed
  have hcluster : ∀ v, g.StaticEdge r v →
      (w ∈ (g.clusters.clusters.find? fun c => v ∈ c).getD [] ↔ g.Reaches v w) := by
    intro v hl
    have hv := hwf.contains_target r v _ hl
    have hreturn := hwf.target_not_return r v _ hl
    rw [find?_clusters hwf hv hreturn, Option.getD_some, mem_clusterOf hg hv hreturn]
  rw [clusterOfReturnValue, mem_foldl_addMissing, List.mem_singleton, List.mem_flatMap]
  simp only [mem_staticNeighbours]
  constructor
  · rintro (rfl | ⟨v, hl, hw⟩)
    · exact .refl
    · exact .head hl ((hcluster v hl).1 hw)
  · intro h
    rcases h.cases_head with rfl | ⟨v, hl, hw⟩
    · exact .inl rfl
    · exact .inr ⟨v, hl, (hcluster v hl).2 hw⟩

end Groups

end Graph

end LinkClosure
