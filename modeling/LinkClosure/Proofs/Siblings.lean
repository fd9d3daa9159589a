import LinkClosure.Proofs.CheckedLinkages
import LinkClosure.Proofs.Floors
import LinkClosure.Proofs.InsertionOrder
import LinkClosure.Proofs.PhantomDelays

/-!
# Siblings below a common parent

Every edge has a way back, so any two leaves of a star are two edges apart. That
path is refused where the leaves are linked to different coordinates of the hub
and no modification reaches both: all links are dead then, and dead links are a
conflict. The low pass follows the path nevertheless, but it finds no delay and
so brings nothing back. What is left of a row are the direct edges.
-/

set_option autoImplicit false

namespace LinkClosure

namespace Linkage

variable {m n : Linkage} {t : CoordinateSet}

theorem continuation_dead (ht : t ∉ n.links.keys) (hwildcard : .wildcard ∉ n.links.keys)
    (hconcrete : t.isWildcard = false) : n.continuation t = .dead := by
  have hnone : ∀ {k}, k ∉ n.links.keys → n.get? k = none := by
    intro k hk
    rw [SortedMap.mem_keys_iff] at hk
    exact Option.not_isSome_iff_eq_none.1 hk
  simp [continuation, hnone ht, hnone hwildcard, hconcrete]

/-- Two linkages to different coordinates of one variable, whose areas there do not
intersect, cannot be joined through it. -/
theorem compose_reverse_rejected (hm : m.isEmpty = false) (hn : n.isEmpty = false)
    (hmw : ∀ t ∈ m.targets, t.isWildcard = false) (hnw : ∀ t ∈ n.targets, t.isWildcard = false)
    (hdisjoint : ∀ t ∈ m.targets, t ∉ n.targets)
    (hapart : m.targetArea.intersects n.targetArea = false) :
    m.compose n.reverse = .rejected := by
  have hdead : ∀ e ∈ m.entries, n.reverse.continuation e.2.target = .dead := by
    intro e he
    have htarget : e.2.target ∈ m.targets := by
      rw [targets_eq]
      exact List.mem_map.2 ⟨e, he, rfl⟩
    apply continuation_dead
    · rw [mem_keys_reverse]
      exact hdisjoint _ htarget
    · rw [mem_keys_reverse]
      intro hwildcard
      cases hnw _ hwildcard
    · exact hmw _ htarget
  have hconflicts : m.conflicts n.reverse = true := by
    obtain ⟨k, hk⟩ := isEmpty_eq_false.1 hm
    obtain ⟨e, he, rfl⟩ := List.mem_map.1 hk
    have hany : (m.continuations n.reverse).any (· == .dead) = true := by
      rw [List.any_eq_true]
      exact ⟨.dead, List.mem_map.2 ⟨e, he, hdead e he⟩, rfl⟩
    have hareas : m.targetArea.intersects n.reverse.sourceArea = false := hapart
    simp [conflicts, hany, hareas]
  simp [compose, hm, isEmpty_reverse hn, hconflicts]

end Linkage

namespace Level

variable {l e : Level} {m n : Linkage}

theorem extend_rejected (hl : l.linkage? = some m) (he : e.linkage? = some n)
    (h : m.compose n = .rejected) : l.extend e = none := by
  rcases linkage?_eq_some.1 hl with rfl | rfl
  all_goals
    rcases linkage?_eq_some.1 he with rfl | rfl
    all_goals simp [extend, extend.throughHidden, h, Composition.linkage?]

theorem isDelayed_of_linkage? (h : l.linkage? = some m) : l.isDelayed = false := by
  rcases linkage?_eq_some.1 h with rfl | rfl <;> rfl

theorem ne_independent (h : ∃ m, l.linkage? = some m) : l ≠ .independent := by
  rintro rfl
  simp [linkage?] at h

theorem static_extend_eq_some {x : Level} :
    staticallyAssigned.extend e = some x ↔ e ≠ independent ∧ x = e := by
  cases e <;> simp [extend, eq_comm]

theorem minAll_eq_some {ls : List Level} (hls : ∀ a ∈ ls, ∀ b ∈ ls, a = b) :
    minAll ls = some l ↔ l ∈ ls := by
  cases ls with
  | nil => simp [minAll]
  | cons a ls =>
    have hsub : a :: ls ⊆ [a] := by
      intro b hb
      rw [hls b hb a List.mem_cons_self]
      exact List.mem_cons_self
    have hsub' : [a] ⊆ a :: ls := by simp
    have hmin : minAll (a :: ls) = some a := minAll_congr hsub hsub'
    rw [hmin, Option.some.injEq]
    constructor
    · rintro rfl
      exact List.mem_cons_self
    · intro hl
      exact hls a List.mem_cons_self l hl

end Level

namespace Graph

variable {g : Graph} {s : Variable}

def LinkagesOnly (g : Graph) : Prop := ∀ u v l, g.level? u v = some l → ∃ m, l.linkage? = some m

theorem LinkagesOnly.undelayed (h : g.LinkagesOnly) : g.Undelayed := by
  intro u v l hl
  obtain ⟨m, hm⟩ := h u v l hl
  exact Level.isDelayed_of_linkage? hm

theorem LinkagesOnly.not_far (h : g.LinkagesOnly) (u v : Variable) : ¬ g.FarStatically u v := by
  intro hfar
  obtain ⟨ls, hls, _⟩ := hfar.bounded
  have hlong := hfar.far ls hls
  cases ls with
  | nil => simp at hlong
  | cons l ls =>
    obtain ⟨a, b, hstored⟩ := hls.leads.stored l List.mem_cons_self
    obtain ⟨m, hm⟩ := h a b l hstored
    rw [hls.static l List.mem_cons_self] at hm
    cases hm

/-- No path from `s` gets further than one edge. -/
def EndsNextTo (g : Graph) (s : Variable) : Prop :=
  ∀ u v l e, g.level? s u = some l → g.level? u v = some e → v ≠ s → l.extend e = none

end Graph

namespace Frame

variable {g : Graph} {i j : Fin (ofGraph g).nodes.size}

theorem levelAt?_of_high (hg : g.WellFormed) (hno : g.Undelayed) (hj : j ≠ i)
    (hnear : ¬ g.FarStatically ((ofGraph g).node i) ((ofGraph g).node j)) {l : Level} :
    (ofGraph g).edges.levelAt? i none j = some l ↔
      ∃ d, ((ofGraph g).edges.highSearch i none).best? j = some (d, l) := by
  constructor
  · intro h
    have hl : l.isDelayed = false := by
      cases l with
      | delayed c => exact absurd ((levelAt?_delayed_iff hg hno).1 h).2 hnear
      | _ => rfl
    rw [Adjacency.levelAt?, if_neg hj, levelOfPasses?_eq_some hl] at h
    obtain ⟨_, d, _, _, hhigh⟩ := h
    exact ⟨d, hhigh⟩
  · rintro ⟨d, hhigh⟩
    have hl : l.isDelayed = false := (known_of_undelayed hg hno hhigh).2
    obtain ⟨b, hlow⟩ : ∃ b, ((ofGraph g).edges.lowSearch i none).best? j = some b :=
      Search.low_reaches (proper_ofGraph hg) (fun k _ _ => Weight.low_le_top k) hhigh
    rw [Adjacency.levelAt?, if_neg hj, levelOfPasses?_eq_some hl]
    refine ⟨b, d, hlow, ?_, hhigh⟩
    rw [← Bool.not_eq_true]
    intro hdelay
    exact hnear ((delayDistance_iff hg hno none).1 ⟨b, hlow, hdelay⟩)

theorem level?_of_label (h : g.EndsNextTo ((ofGraph g).node i)) {a : Nat × Level}
    (ha : ((ofGraph g).edges.highSearch i none).best? j = some a) :
    (j = i ∧ a.2 = .staticallyAssigned) ∨
      j ≠ i ∧ g.level? ((ofGraph g).node i) ((ofGraph g).node j) = some a.2 := by
  apply Search.run_labels (P := fun v a => (v = i ∧ a.2 = .staticallyAssigned) ∨
    v ≠ i ∧ g.level? ((ofGraph g).node i) ((ofGraph g).node v) = some a.2)
    Pass.high_lawful (.inl ⟨rfl, rfl⟩) _ _ ha
  · rintro u ⟨d, l⟩ v e x _ hu hv he _ hext
    rw [mem_edges_ofGraph] at he
    rcases hu with ⟨rfl, hl⟩ | ⟨_, hu⟩
    · refine .inr ⟨hv, ?_⟩
      obtain rfl : l = .staticallyAssigned := hl
      rwa [(Level.static_extend_eq_some.1 hext).2]
    · have hvs : (ofGraph g).node v ≠ (ofGraph g).node i :=
        fun heq => hv (node_inj (distinct_ofGraph g) heq)
      have hnone : Pass.high.extend l e = none := h _ _ _ _ hu he hvs
      rw [hnone] at hext
      cases hext
  · rintro v d x y (⟨hv, rfl⟩ | ⟨hv, hx⟩) (⟨hv', rfl⟩ | ⟨hv', hy⟩)
    · exact .inl ⟨hv, rfl⟩
    · exact absurd hv hv'
    · exact absurd hv' hv
    · obtain rfl : x = y := Option.some.inj (hx.symm.trans hy)
      refine .inr ⟨hv, ?_⟩
      have hself : Pass.high.merge x x = x := Level.min_self x
      rwa [hself]

theorem best?_next (hg : g.WellFormed) (h : g.EndsNextTo ((ofGraph g).node i)) (hj : j ≠ i)
    {l : Level} :
    (∃ d, ((ofGraph g).edges.highSearch i none).best? j = some (d, l)) ↔
      g.level? ((ofGraph g).node i) ((ofGraph g).node j) = some l := by
  constructor
  · rintro ⟨d, hd⟩
    rcases level?_of_label h hd with ⟨hi, _⟩ | ⟨_, hl⟩
    · exact absurd hi hj
    · exact hl
  · intro hl
    have hstart : ((ofGraph g).edges.highSearch i none).best? i = some (0, .staticallyAssigned) :=
      Search.run_start Pass.high_lawful
    have hext := Level.static_extend_eq_some.2 ⟨hg.ne_independent _ _ _ hl, rfl⟩
    obtain ⟨⟨d, k⟩, hk, _⟩ := Search.run_relaxed Pass.high_lawful hstart (mem_edges_ofGraph.2 hl)
      (Weight.high_le_top l) hext
    rcases level?_of_label h hk with ⟨hi, _⟩ | ⟨_, hkl⟩
    · exact absurd hi hj
    · obtain rfl : l = k := Option.some.inj (hl.symm.trans hkl)
      exact ⟨d, hk⟩

theorem levelAt?_next (hg : g.WellFormed) (honly : g.LinkagesOnly)
    (h : g.EndsNextTo ((ofGraph g).node i)) {l : Level} :
    (ofGraph g).edges.levelAt? i none j = some l ↔
      j = i ∧ l = .staticallyAssigned ∨
        j ≠ i ∧ g.level? ((ofGraph g).node i) ((ofGraph g).node j) = some l := by
  by_cases hj : j = i
  · simp [Adjacency.levelAt?, hj, eq_comm]
  · rw [levelAt?_of_high hg honly.undelayed hj (honly.not_far _ _), best?_next hg h hj]
    simp [hj]

theorem links_next (hg : g.WellFormed) (honly : g.LinkagesOnly) {s : Variable}
    (hs : g.contains s = true) (h : g.EndsNextTo s) {es : List (Variable × Level)}
    (hes : ∀ v l, g.level? s v = some l ↔ (v, l) ∈ es) (hnodup : (s :: es.map Prod.fst).Nodup) :
    (ofGraph g).links s none = .ok (.ofList ((s, .staticallyAssigned) :: es)) := by
  obtain ⟨i, row, rfl, hrow, hentry, hinside⟩ := exists_row hs none
  obtain ⟨hnew, _⟩ := List.nodup_cons.1 hnodup
  rw [hrow]
  congr 1
  refine SortedMap.eq_ofList (by rwa [List.map_cons]) ?_
  intro v l
  rw [List.mem_cons, Prod.mk.injEq]
  constructor
  · intro hl
    obtain ⟨j, rfl⟩ := exists_node (hinside v l hl)
    rw [hentry, levelAt?_next hg honly h] at hl
    rcases hl with ⟨rfl, rfl⟩ | ⟨_, hl⟩
    · exact .inl ⟨rfl, rfl⟩
    · exact .inr ((hes _ _).1 hl)
  · rintro (⟨rfl, rfl⟩ | hl)
    · rw [hentry, levelAt?_next hg honly h]
      exact .inl ⟨rfl, rfl⟩
    · have hstored := (hes v l).2 hl
      obtain ⟨j, rfl⟩ := exists_node (hg.contains_target _ v l hstored)
      rw [hentry, levelAt?_next hg honly h]
      refine .inr ⟨?_, hstored⟩
      rintro rfl
      exact hnew (List.mem_map.2 ⟨_, hl, rfl⟩)

end Frame

/-- An edge from a leaf to the hub, with the links of a dependency or of shared hidden
content. -/
structure Spoke where
  leaf : Variable
  linkage : Linkage
  isHidden : Bool

def Spoke.level (p : Spoke) : Level :=
  if p.isHidden then .commonHidden p.linkage else .dependent p.linkage

/-- The additions of a star: its leaves, each with its one edge, and the hub alone any
number of times. -/
def Spoke.additions (hub : Variable) (times : Nat) (spokes : List Spoke) :
    List (Variable × List (Variable × Level)) :=
  List.replicate times (hub, []) ++ spokes.map fun p => (p.leaf, [(hub, p.level)])

/-- Leaves that are linked to the hub each in its own place. -/
structure Star (hub : Variable) (spokes : List Spoke) : Prop where
  hub_not_return : hub.isReturnValue = false
  leaf_not_return : ∀ p ∈ spokes, p.leaf.isReturnValue = false
  leaf_ne_hub : ∀ p ∈ spokes, p.leaf ≠ hub
  nodup : (spokes.map Spoke.leaf).Nodup
  checked : ∀ p ∈ spokes, Linkage.check p.linkage.links = .ok ()
  nonempty : ∀ p ∈ spokes, p.linkage.isEmpty = false
  concrete : ∀ p ∈ spokes, ∀ t ∈ p.linkage.targets, t.isWildcard = false
  disjoint : ∀ p ∈ spokes, ∀ q ∈ spokes, p.leaf ≠ q.leaf →
    ∀ t ∈ p.linkage.targets, t ∉ q.linkage.targets
  apart : ∀ p ∈ spokes, ∀ q ∈ spokes, p.leaf ≠ q.leaf →
    p.linkage.targetArea.intersects q.linkage.targetArea = false

namespace Spoke

variable {hub : Variable} {spokes : List Spoke} {times : Nat}
  {as : List (Variable × List (Variable × Level))}

theorem linkage?_level (p : Spoke) : p.level.linkage? = some p.linkage := by
  rw [level]
  split_ifs <;> rfl

theorem level_ne_independent (p : Spoke) : p.level ≠ .independent := by
  intro h
  have := p.linkage?_level
  rw [h] at this
  cases this

theorem mem_ofAdditions (has : as.Perm (additions hub times spokes)) {i : Insertion} :
    i ∈ Insertion.ofAdditions as ↔ ∃ p ∈ spokes, i = ⟨p.leaf, hub, p.level⟩ := by
  simp only [Insertion.ofAdditions, List.mem_flatMap, has.mem_iff, additions, List.mem_append,
    List.mem_replicate, List.mem_map]
  constructor
  · rintro ⟨a, ⟨_, rfl⟩ | ⟨p, hp, rfl⟩, hi⟩
    · cases hi
    · exact ⟨p, hp, List.mem_singleton.1 hi⟩
  · rintro ⟨p, hp, rfl⟩
    exact ⟨_, .inr ⟨p, hp, rfl⟩, List.mem_singleton.2 rfl⟩

theorem mem_nodes (has : as.Perm (additions hub times spokes)) {v : Variable} :
    v ∈ as.map Prod.fst ↔ (times ≠ 0 ∧ v = hub) ∨ ∃ p ∈ spokes, v = p.leaf := by
  rw [(has.map Prod.fst).mem_iff, additions]
  simp [List.mem_replicate, eq_comm]

end Spoke

namespace Star

variable {hub : Variable} {spokes : List Spoke} {times : Nat}
  {as : List (Variable × List (Variable × Level))} {g : Graph} {p q : Spoke}

theorem eq_of_leaf (h : Star hub spokes) (hp : p ∈ spokes) (hq : q ∈ spokes)
    (hleaf : p.leaf = q.leaf) : p = q := List.inj_on_of_nodup_map h.nodup hp hq hleaf

theorem concordant (h : Star hub spokes) (hp : p ∈ spokes) : p.level.Concordant p.level := by
  have hlinkage := (Linkage.check_eq_ok_iff.1 (h.checked p hp)).concordant
  rw [Spoke.level]
  split_ifs
  · exact hlinkage
  · exact hlinkage

theorem agreeing (h : Star hub spokes) (has : as.Perm (Spoke.additions hub times spokes)) :
    Insertion.Agreeing (Insertion.ofAdditions as) := by
  intro i hi j hj
  obtain ⟨p, hp, rfl⟩ := (Spoke.mem_ofAdditions has).1 hi
  obtain ⟨q, hq, rfl⟩ := (Spoke.mem_ofAdditions has).1 hj
  constructor
  · intro hsource _
    obtain rfl := h.eq_of_leaf hp hq hsource
    exact h.concordant hp
  · intro hsource _
    exact absurd hsource (h.leaf_ne_hub p hp)

theorem exists_graph (h : Star hub spokes) (has : as.Perm (Spoke.additions hub times spokes)) :
    ∃ g, Graph.ofAdditions as = .ok g := by
  apply Graph.additions_succeed rfl
  intro i hi
  obtain ⟨p, _, rfl⟩ := (Spoke.mem_ofAdditions has).1 hi
  exact ⟨p.level_ne_independent, h.hub_not_return⟩

theorem extend_reverse (h : Star hub spokes) (hp : p ∈ spokes) (hq : q ∈ spokes)
    (hleaf : p.leaf ≠ q.leaf) : p.level.extend q.level.reverse = none := by
  apply Level.extend_rejected p.linkage?_level (n := q.linkage.reverse)
  · exact Level.linkage?_reverse_of q.linkage?_level
  · exact Linkage.compose_reverse_rejected (h.nonempty p hp) (h.nonempty q hq) (h.concrete p hp)
      (h.concrete q hq) (h.disjoint p hp q hq hleaf) (h.apart p hp q hq hleaf)

section

variable (h : Star hub spokes) (has : as.Perm (Spoke.additions hub times spokes))
  (hg : Graph.ofAdditions as = .ok g)

include h has hg

theorem level?_eq_some {u v : Variable} {l : Level} :
    g.level? u v = some l ↔
      ∃ p ∈ spokes, u = p.leaf ∧ v = hub ∧ l = p.level ∨
        u = hub ∧ v = p.leaf ∧ l = p.level.reverse := by
  have hdemands : ∀ l, l ∈ Insertion.demands (Insertion.ofAdditions as) u v ↔
      ∃ p ∈ spokes, u = p.leaf ∧ v = hub ∧ l = p.level ∨
        u = hub ∧ v = p.leaf ∧ l = p.level.reverse := by
    intro l
    rw [Insertion.mem_demands]
    constructor
    · rintro ⟨i, hi, hl⟩
      obtain ⟨p, hp, rfl⟩ := (Spoke.mem_ofAdditions has).1 hi
      exact ⟨p, hp, hl.imp_right And.right⟩
    · rintro ⟨p, hp, hl⟩
      exact ⟨_, (Spoke.mem_ofAdditions has).2 ⟨p, hp, rfl⟩,
        hl.imp_right (And.intro (h.leaf_not_return p hp))⟩
  rw [Graph.meets_empty.additions (h.agreeing has) hg, List.nil_append, Level.minAll_eq_some,
    hdemands]
  intro a ha b hb
  obtain ⟨p, hp, hpa⟩ := (hdemands a).1 ha
  obtain ⟨q, hq, hqb⟩ := (hdemands b).1 hb
  rcases hpa with ⟨rfl, rfl, rfl⟩ | ⟨rfl, rfl, rfl⟩
  · rcases hqb with ⟨hleaf, _, rfl⟩ | ⟨hhub, _, _⟩
    · rw [h.eq_of_leaf hp hq hleaf]
    · exact absurd hhub (h.leaf_ne_hub p hp)
  · rcases hqb with ⟨_, hhub, _⟩ | ⟨_, hleaf, rfl⟩
    · exact absurd hhub (h.leaf_ne_hub p hp)
    · rw [h.eq_of_leaf hp hq hleaf]

theorem level?_leaf (hp : p ∈ spokes) {v : Variable} {l : Level} :
    g.level? p.leaf v = some l ↔ v = hub ∧ l = p.level := by
  rw [h.level?_eq_some has hg]
  constructor
  · rintro ⟨q, hq, ⟨hleaf, hv, hl⟩ | ⟨hhub, _, _⟩⟩
    · rw [h.eq_of_leaf hp hq hleaf]
      exact ⟨hv, hl⟩
    · exact absurd hhub (h.leaf_ne_hub p hp)
  · intro hl
    exact ⟨p, hp, .inl ⟨rfl, hl⟩⟩

theorem level?_hub {v : Variable} {l : Level} :
    g.level? hub v = some l ↔ ∃ p ∈ spokes, v = p.leaf ∧ l = p.level.reverse := by
  rw [h.level?_eq_some has hg]
  constructor
  · rintro ⟨p, hp, ⟨hhub, _, _⟩ | ⟨_, hl⟩⟩
    · exact absurd hhub.symm (h.leaf_ne_hub p hp)
    · exact ⟨p, hp, hl⟩
  · rintro ⟨p, hp, hl⟩
    exact ⟨p, hp, .inr ⟨rfl, hl⟩⟩

theorem linkagesOnly : g.LinkagesOnly := by
  intro u v l hl
  obtain ⟨p, _, ⟨_, _, rfl⟩ | ⟨_, _, rfl⟩⟩ := (h.level?_eq_some has hg).1 hl
  · exact ⟨p.linkage, p.linkage?_level⟩
  · exact ⟨p.linkage.reverse, Level.linkage?_reverse_of p.linkage?_level⟩

theorem leaf_endsNextTo (hp : p ∈ spokes) : g.EndsNextTo p.leaf := by
  intro u v l e hl he hv
  obtain ⟨rfl, rfl⟩ := (h.level?_leaf has hg hp).1 hl
  obtain ⟨q, hq, rfl, rfl⟩ := (h.level?_hub has hg).1 he
  exact h.extend_reverse hp hq hv.symm

theorem hub_endsNextTo : g.EndsNextTo hub := by
  intro u v l e hl he hv
  obtain ⟨p, hp, rfl, _⟩ := (h.level?_hub has hg).1 hl
  exact absurd ((h.level?_leaf has hg hp).1 he).1 hv

omit h in
theorem contains_leaf (hp : p ∈ spokes) : g.contains p.leaf = true := by
  rw [Graph.contains_additions hg, Spoke.mem_nodes has]
  exact .inr (.inl (.inr ⟨p, hp, rfl⟩))

omit h in
theorem contains_hub (hne : as ≠ []) : g.contains hub = true := by
  rw [Graph.contains_additions hg, Spoke.mem_nodes has]
  right
  by_cases htimes : times = 0
  · right
    cases spokes with
    | nil =>
      rw [htimes] at has
      exact absurd has.eq_nil hne
    | cons p spokes => exact ⟨_, (Spoke.mem_ofAdditions has).2 ⟨p, List.mem_cons_self, rfl⟩, rfl⟩
  · exact .inl (.inl ⟨htimes, rfl⟩)

theorem links_leaf (hp : p ∈ spokes) :
    (Frame.ofGraph g).links p.leaf none =
      .ok (.ofList [(p.leaf, .staticallyAssigned), (hub, p.level)]) := by
  apply Frame.links_next (Graph.Built.of_additions hg).wellFormed (h.linkagesOnly has hg)
    (contains_leaf has hg hp) (h.leaf_endsNextTo has hg hp)
  · intro v l
    rw [h.level?_leaf has hg hp, List.mem_singleton, Prod.mk.injEq]
  · simpa using h.leaf_ne_hub p hp

theorem links_hub (hne : as ≠ []) :
    (Frame.ofGraph g).links hub none =
      .ok (.ofList ((hub, .staticallyAssigned) ::
        spokes.map fun p => (p.leaf, p.level.reverse))) := by
  apply Frame.links_next (Graph.Built.of_additions hg).wellFormed (h.linkagesOnly has hg)
    (contains_hub has hg hne) (h.hub_endsNextTo has hg)
  · intro v l
    rw [h.level?_hub has hg, List.mem_map]
    simp only [Prod.mk.injEq, eq_comm]
  · simpa [Function.comp_def] using ⟨h.leaf_ne_hub, h.nodup⟩

end

end Star

/-- The leaves of a star that are linked to the hub each in its own place are not linked to
each other: the row of a leaf has the hub only, and the row of the hub has every leaf. -/
theorem siblings_stay_apart {hub : Variable} {spokes : List Spoke} (h : Star hub spokes)
    {times : Nat} {as : List (Variable × List (Variable × Level))}
    (has : as.Perm (Spoke.additions hub times spokes)) (hne : as ≠ []) :
    ∃ g, Graph.ofAdditions as = .ok g ∧
      (∀ p ∈ spokes, (Frame.ofGraph g).links p.leaf none =
        .ok (.ofList [(p.leaf, .staticallyAssigned), (hub, p.level)])) ∧
      (Frame.ofGraph g).links hub none =
        .ok (.ofList ((hub, .staticallyAssigned) ::
          spokes.map fun p => (p.leaf, p.level.reverse))) := by
  obtain ⟨g, hg⟩ := h.exists_graph has
  exact ⟨g, hg, fun p hp => h.links_leaf has hg hp, h.links_hub has hg hne⟩

namespace Record

def hub : Variable := ⟨"record", "record", .local⟩

def spokes : List Spoke :=
  [⟨⟨"left", "left", .field⟩,
      ⟨.ofList [(.single 0, ⟨.single 0, false⟩), (.single 1, ⟨.single 4, true⟩)],
        .wildcard, .single 0⟩, false⟩,
    ⟨⟨"right", "right", .field⟩,
      ⟨.singleton .wildcard ⟨.single 1, true⟩, .wildcard, .single 1⟩, true⟩,
    ⟨⟨"view", "view", .local⟩, (Linkage.single 2 2 false).barModification, false⟩]

def additions : List (Variable × List (Variable × Level)) :=
  (Spoke.additions hub 1 spokes).rotate 2

theorem star : Star hub spokes where
  hub_not_return := rfl
  leaf_not_return := by decide
  leaf_ne_hub := by decide
  nodup := by decide
  checked := by
    simp only [spokes, List.forall_mem_cons]
    exact ⟨rfl, rfl, rfl, List.forall_mem_nil _⟩
  nonempty := by decide
  concrete := by decide
  disjoint := by decide
  apart := by decide

end Record

theorem siblings_stay_apart_record :
    Star Record.hub Record.spokes ∧
      Record.additions.Perm (Spoke.additions Record.hub 1 Record.spokes) ∧ Record.additions ≠ [] ∧
      ∃ g, Graph.ofAdditions Record.additions = .ok g ∧
        (∀ p ∈ Record.spokes, (Frame.ofGraph g).links p.leaf none =
          .ok (.ofList [(p.leaf, .staticallyAssigned), (Record.hub, p.level)])) ∧
        (Frame.ofGraph g).links Record.hub none =
          .ok (.ofList ((Record.hub, .staticallyAssigned) ::
            Record.spokes.map fun p => (p.leaf, p.level.reverse))) := by
  have hperm : Record.additions.Perm (Spoke.additions Record.hub 1 Record.spokes) :=
    List.rotate_perm _ 2
  have hne : Record.additions ≠ [] := List.cons_ne_nil _ _
  exact ⟨Record.star, hperm, hne, siblings_stay_apart Record.star hperm hne⟩

end LinkClosure
