import LinkClosure.Proofs.Coordinates
import LinkClosure.Proofs.Search.Traits
import LinkClosure.Proofs.SourceCoordinates

/-!
# Rows hold well-formed levels

Composed linkages are checked against no rule. They need no check: a composition
links sources of its first part to targets of its second, its areas are areas of
the two parts or one nested in the other, and without links it is the empty
linkage. So whatever rule the coordinate sets of the edges keep, those of a row
keep as well; and a row has no cause of delay but those of the edges.
-/

set_option autoImplicit false

namespace LinkClosure

open CoordinateSet

namespace Linkage

variable {P : CoordinateSet → Prop} {e f m : Linkage}

theorem target_of_arrival {x : CoordinateSet × Link} (h : x ∈ e.arrivals f) :
    ∃ y ∈ f.entries, x.2.target = y.2.target := by
  obtain ⟨y, _, hx⟩ := List.mem_flatMap.1 h
  obtain ⟨l, hl, rfl⟩ := List.mem_map.1 hx
  rw [continuation] at hl
  split at hl
  · next k hk =>
    obtain rfl := List.mem_singleton.1 hl
    exact ⟨(y.2.target, k), mem_entries.2 hk, rfl⟩
  · split at hl
    · next k hk =>
      obtain rfl := List.mem_singleton.1 hl
      exact ⟨(.wildcard, k), mem_entries.2 hk, rfl⟩
    · split_ifs at hl
      · obtain ⟨k, hk, rfl⟩ := List.mem_map.1 hl
        obtain ⟨z, hz, rfl⟩ := List.mem_map.1 hk
        exact ⟨z, hz, rfl⟩
      · cases hl

theorem Over.composedSourceArea (hP : Stable P) (he : e.Over P) (hf : f.Over P) :
    P (e.composedSourceArea f) := by
  rw [Linkage.composedSourceArea]
  split_ifs
  · exact hP.under _ _ he.source hf.source
  · exact he.source

theorem Over.composedTargetArea (hP : Stable P) (he : e.Over P) (hf : f.Over P) :
    P (e.composedTargetArea f) := by
  rw [Linkage.composedTargetArea]
  split_ifs
  · exact hP.under _ _ hf.target he.target
  · exact hf.target

theorem Over.compose (hP : Stable P) (he : e.Over P) (hf : f.Over P)
    (h : (e.compose f).linkage? = some m) : m.Over P := by
  rcases compose_cases h with rfl | ⟨_, rfl⟩ | rfl
  · exact .empty hP
  · exact hf
  · refine ⟨?_, he.composedSourceArea hP hf, he.composedTargetArea hP hf⟩
    apply SortedMap.forall_ofListWith (Q := fun k (l : Link) => P k ∧ P l.target)
      (over_merge_links hP)
    intro x hx
    obtain ⟨y, hy, hsource⟩ := List.mem_map.1 (mem_keys_of_arrival hx)
    obtain ⟨z, hz, htarget⟩ := target_of_arrival hx
    rw [← hsource, htarget]
    exact ⟨(he.links y hy).1, (hf.links z hz).2⟩

end Linkage

namespace Level

variable {P : CoordinateSet → Prop} {l e m : Level} {x : String}

theorem Over.extend (hP : Stable P) (hl : l.Over P) (he : e.Over P) (h : l.extend e = some m) :
    m.Over P := by
  rcases extend_cases h with ⟨c, rfl⟩ | ⟨_, _, hm⟩ | ⟨_, _, rfl⟩ | ⟨_, _, rfl⟩ |
    ⟨o, n, k, ho, hn, hk, hm⟩
  · rintro _ ⟨⟩
  · intro k hk
    cases m <;> simp_all [linkage?, isAssignment]
  · exact he
  · exact hl
  · have hover : k.Over P := (hl o ho).compose hP (he n hn) hk
    rcases hm with rfl | ⟨rfl, _⟩
    · rintro _ ⟨⟩
      exact hover
    · rintro _ ⟨⟩
      exact hover

/-- Shared hidden content has a link, and all coordinate sets keep the rules. -/
structure Sound (l : Level) : Prop where
  hidden : l.HasHiddenLink
  coordinates : l.Over CoordinateSet.Sound

instance : DecidablePred HasHiddenLink := fun l =>
  decidable_of_iff (l.isCommonHidden = true → l.hasLinks = true) <| by
    cases l <;> simp [HasHiddenLink, isCommonHidden, hasLinks, linkage?]

instance : DecidablePred Sound := fun l =>
  decidable_of_iff (l.HasHiddenLink ∧ l.Over CoordinateSet.Sound)
    ⟨fun h => ⟨h.1, h.2⟩, fun h => ⟨h.hidden, h.coordinates⟩⟩

theorem HasHiddenLink.reverse (h : l.HasHiddenLink) : l.reverse.HasHiddenLink := by
  cases l
  case commonHidden m =>
    rintro _ ⟨⟩
    exact Linkage.isEmpty_reverse (h m rfl)
  all_goals rintro _ ⟨⟩

theorem lasting_sound : Graph.Lasting Sound where
  min a b ha hb := ⟨ha.hidden.min hb.hidden,
    (Graph.lasting_over stable_sound).min a b ha.coordinates hb.coordinates⟩
  reverse a ha := ⟨ha.hidden.reverse,
    (Graph.lasting_over stable_sound).reverse a ha.coordinates⟩

theorem Sound.extend (hl : l.Sound) (he : e.Sound) (h : l.extend e = some m) : m.Sound :=
  ⟨hl.hidden.extend he.hidden h, hl.coordinates.extend stable_sound he.coordinates h⟩

theorem on_of_extend (h : l.extend e = some m) (hm : Causes.On x m) :
    Causes.On x l ∨ Causes.On x e := by
  obtain ⟨c, rfl, hx⟩ := hm
  cases l <;> cases e <;> simp_all [Level.extend, Level.extend.throughHidden, Causes.On]
  rw [← h] at hx
  exact Causes.mem_merge.1 hx

theorem on_of_min (h : Causes.On x (l.min e)) : Causes.On x l ∨ Causes.On x e := by
  cases l <;> cases e <;> simp_all [min, rank, Causes.On, Causes.mem_merge]

end Level

namespace Graph

variable {g : Graph} {l e m : Level}

def HasCause (g : Graph) (x : String) : Prop := ∃ u v l, g.level? u v = some l ∧ Causes.On x l

/-- A level that a row of the graph may hold: well-formed, and delayed for causes of its
edges only. -/
structure Supports (g : Graph) (l : Level) : Prop where
  related : l ≠ .independent
  sound : l.Sound
  causes : ∀ x, Causes.On x l → g.HasCause x

theorem supports_static (g : Graph) : g.Supports .staticallyAssigned where
  related := Level.noConfusion
  sound := by decide
  causes x hx := by
    obtain ⟨c, hc, _⟩ := hx
    cases hc

theorem supports_delayed {c : Causes} (h : ∀ x ∈ c.labels, g.HasCause x) :
    g.Supports (.delayed c) where
  related := Level.noConfusion
  sound := by
    constructor
    · rintro _ ⟨⟩
    · rintro _ ⟨⟩
  causes x hx := by
    obtain ⟨d, hd, hx⟩ := hx
    obtain rfl := Level.delayed.inj hd
    exact h x hx

theorem Stores.supports (hg : g.WellFormed) (h : g.Stores Level.Sound) {u v : Variable}
    (hl : g.level? u v = some l) : g.Supports l where
  related := hg.ne_independent u v l hl
  sound := h u v l hl
  causes _ hx := ⟨u, v, l, hl, hx⟩

theorem Supports.extend (hl : g.Supports l) (he : g.Supports e) (h : l.extend e = some m) :
    g.Supports m where
  related := (Level.high_extend hl.related he.related h).1
  sound := hl.sound.extend he.sound h
  causes x hx := (Level.on_of_extend h hx).elim (hl.causes x) (he.causes x)

theorem Supports.min (hl : g.Supports l) (he : g.Supports e) : g.Supports (l.min e) where
  related := Level.min_ne_independent hl.related he.related
  sound := Level.lasting_sound.min l e hl.sound he.sound
  causes x hx := (Level.on_of_min hx).elim (hl.causes x) (he.causes x)

end Graph

namespace Frame

variable {g : Graph} {i j : Fin (ofGraph g).nodes.size} {limit : Nat} {floor : Option Level}

theorem supports_high (hg : g.WellFormed) (h : g.Stores Level.Sound) {a : Nat × Level}
    (ha : (Search.run .high limit (ofGraph g).edges i).best? j = some a) : g.Supports a.2 := by
  apply Search.run_states (P := g.Supports) Pass.high_lawful g.supports_static _ _ ha
  · intro l m u e he hl hext
    exact hl.extend (h.supports hg (mem_edges_ofGraph.1 he)) hext
  · intro l m hl hm
    exact hl.min hm

theorem hasCause_low {a : Nat × Causes}
    (ha : (Search.run .low limit (ofGraph g).edges i).best? j = some a) :
    ∀ x ∈ a.2.labels, g.HasCause x := by
  apply Search.run_states (P := fun c => ∀ x ∈ c.labels, g.HasCause x) Pass.low_lawful _ _ _ ha
  · intro x hx
    cases hx
  · intro c d u e he hc hext x hx
    rcases (Causes.mem_extend hext).1 hx with hedge | hbefore
    · exact ⟨_, _, e.2, mem_edges_ofGraph.1 he, hedge⟩
    · exact hc x hbefore
  · intro c d hc hd x hx
    exact (Causes.mem_merge.1 hx).elim (hc x) (hd x)

theorem supports_levelAt? (hg : g.WellFormed) (h : g.Stores Level.Sound) {l : Level}
    (hl : (ofGraph g).edges.levelAt? i floor j = some l) : g.Supports l := by
  rw [Adjacency.levelAt?] at hl
  split_ifs at hl
  · rw [← Option.some.inj hl]
    exact g.supports_static
  · rcases levelOfPasses?_cases hl with ⟨x, hx, rfl⟩ | ⟨y, hy, rfl⟩
    · exact Graph.supports_delayed (hasCause_low hx)
    · exact supports_high hg h hy

end Frame

/-- Where the given levels are well-formed, so are all levels of all rows, and these have no
causes but those of delayed edges. -/
theorem rows_are_well_formed {g : Graph} {as : List (Variable × List (Variable × Level))}
    (hg : Graph.ofAdditions as = .ok g) (hgiven : ∀ a ∈ as, ∀ e ∈ a.2, e.2.Sound)
    {s : Variable} (hs : g.contains s = true) (floor : Option Level) :
    ∃ row, (Frame.ofGraph g).links s floor = .ok row ∧
      ∀ v l, row.get? v = some l →
        l ≠ .independent ∧ l.Sound ∧ ∀ c, l = .delayed c → ∀ x ∈ c.labels,
          ∃ u w d, g.level? u w = some (.delayed d) ∧ x ∈ d.labels := by
  have hwf := (Graph.Built.of_additions hg).wellFormed
  have hstores := Graph.stores_of_given Level.lasting_sound hg hgiven
  obtain ⟨i, row, rfl, hrow, hentry, hinside⟩ := Frame.exists_row hs floor
  refine ⟨row, hrow, ?_⟩
  intro v l hv
  obtain ⟨j, rfl⟩ := Frame.exists_node (hinside v l hv)
  rw [hentry] at hv
  have hsupports := Frame.supports_levelAt? hwf hstores hv
  refine ⟨hsupports.related, hsupports.sound, ?_⟩
  rintro c rfl x hx
  obtain ⟨u, w, _, hlevel, d, rfl, hd⟩ := hsupports.causes x ⟨c, rfl, hx⟩
  exact ⟨u, w, d, hlevel, hd⟩

namespace Nested

def start : Variable := ⟨"a", "a", .local⟩
def inner : Variable := ⟨"b", "b", .local⟩
def outer : Variable := ⟨"c", "c", .local⟩
def pending : Variable := ⟨"d", "d", .local⟩

def additions : List (Variable × List (Variable × Level)) :=
  [(start, [(inner, .commonHidden ((Linkage.single 0 1 false).withAreas .wildcard (.single 2)))]),
    (inner, [(outer, .commonHidden
      ⟨.singleton .wildcard ⟨.single 4, true⟩, .wildcard, .single 3⟩)]),
    (outer, [(pending, .delayed (.single "cycle"))])]

def graph : Graph := (Graph.ofAdditions additions).toOption.getD .empty

theorem ofAdditions_eq : Graph.ofAdditions additions = .ok graph := rfl

example : ((Frame.ofGraph graph).links start none).toOption.bind (·.get? outer) =
    some (.commonHidden ⟨.singleton (.single 0) ⟨.single 4, true⟩, .wildcard,
      .ofCoordinate ⟨[3, 2]⟩⟩) := by
  decide +kernel

end Nested

theorem rows_are_well_formed_nested :
    Graph.ofAdditions Nested.additions = .ok Nested.graph ∧
      (∀ a ∈ Nested.additions, ∀ e ∈ a.2, e.2.Sound) ∧
      Nested.graph.contains Nested.start = true ∧
      ∃ row, (Frame.ofGraph Nested.graph).links Nested.start none = .ok row ∧
        ∀ v l, row.get? v = some l →
          l ≠ .independent ∧ l.Sound ∧ ∀ c, l = .delayed c → ∀ x ∈ c.labels,
            ∃ u w d, Nested.graph.level? u w = some (.delayed d) ∧ x ∈ d.labels :=
  have hgiven : ∀ a ∈ Nested.additions, ∀ e ∈ a.2, e.2.Sound := by decide
  have hstart : Nested.graph.contains Nested.start = true := by decide
  ⟨Nested.ofAdditions_eq, hgiven, hstart,
    rows_are_well_formed Nested.ofAdditions_eq hgiven hstart none⟩

end LinkClosure
