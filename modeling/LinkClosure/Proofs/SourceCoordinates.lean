import LinkClosure.Proofs.Graph.Paths
import LinkClosure.Proofs.Graph.Rows
import LinkClosure.Proofs.Search.Labels

/-!
# Where the source coordinates of a row come from

Composing and merging make up no source coordinates, and assignments are
transparent. So the sources of an entry are sources of an edge that leaves the
start or a variable it is assigned to, with one exception. Where no link survives
a composition that is accepted nevertheless, the path goes on with an empty
linkage, and the next edge brings in the coordinates of a variable in the middle.
-/

set_option autoImplicit false

namespace LinkClosure

namespace Linkage

variable {e f m : Linkage} {k : CoordinateSet}

theorem mem_keys_of_arrival {x : CoordinateSet × Link} (h : x ∈ e.arrivals f) :
    x.1 ∈ e.links.keys := by
  obtain ⟨y, hy, hx⟩ := List.mem_flatMap.1 h
  obtain ⟨_, _, rfl⟩ := List.mem_map.1 hx
  exact List.mem_map.2 ⟨y, hy, rfl⟩

/-- What an accepted composition comes to: nothing, the second linkage as it is, or the
arrivals of the first. -/
theorem compose_cases (h : (e.compose f).linkage? = some m) :
    m = .empty ∨ (e.isEmpty = true ∧ m = f) ∨
      m = ⟨.ofListWith Link.merge (e.arrivals f), e.composedSourceArea f,
        e.composedTargetArea f⟩ := by
  simp only [compose] at h
  split_ifs at h
  · exact .inl (Option.some.inj h).symm
  · next he _ => exact .inr (.inl ⟨he, (Option.some.inj h).symm⟩)
  · exact .inl (Option.some.inj h).symm
  · cases h
  · cases h
  · exact .inl (Option.some.inj h).symm
  · exact .inr (.inr (Option.some.inj h).symm)

theorem mem_keys_compose (h : (e.compose f).linkage? = some m) (hk : k ∈ m.links.keys) :
    k ∈ e.links.keys ∨ e.isEmpty = true ∧ k ∈ f.links.keys := by
  rcases compose_cases h with rfl | ⟨he, rfl⟩ | rfl
  · cases hk
  · exact .inr ⟨he, hk⟩
  · rw [SortedMap.mem_keys_ofListWith] at hk
    obtain ⟨x, hx, rfl⟩ := List.mem_map.1 hk
    exact .inl (mem_keys_of_arrival hx)

end Linkage

namespace Level

variable {a b l e m : Level} {k : CoordinateSet}

def sources (l : Level) : List CoordinateSet := l.linkage?.elim [] fun m => m.links.keys

def IsEdgeless (l : Level) : Prop := ∃ m, l = .dependent m ∧ m.isEmpty = true

def HasHiddenLink (l : Level) : Prop := ∀ m, l = .commonHidden m → m.isEmpty = false

theorem mem_sources : k ∈ l.sources ↔ ∃ m, l.linkage? = some m ∧ k ∈ m.links.keys := by
  rw [sources]
  cases l.linkage? <;> simp

theorem HasHiddenLink.isEdgeless (h : l.HasHiddenLink) {m : Linkage} (hm : l.linkage? = some m)
    (hempty : m.isEmpty = true) : l.IsEdgeless := by
  cases l <;> simp only [linkage?, Option.some.injEq, reduceCtorEq] at hm
  case dependent => exact ⟨m, congrArg dependent hm, hempty⟩
  case commonHidden =>
    rw [h m (congrArg commonHidden hm)] at hempty
    cases hempty

theorem isAssignment_min (h : (a.min b).isAssignment = true) :
    a.isAssignment = true ∨ b.isAssignment = true := by
  cases a <;> cases b <;> simp_all [min, rank, isAssignment]

theorem mem_sources_min (h : k ∈ (a.min b).sources) : k ∈ a.sources ∨ k ∈ b.sources := by
  cases a <;> cases b
  case dependent.dependent m n => exact (Linkage.mem_keys_merge m n k).1 h
  case commonHidden.commonHidden m n => exact (Linkage.mem_keys_merge m n k).1 h
  all_goals simp_all [min, rank, sources, linkage?]

theorem HasHiddenLink.min (ha : a.HasHiddenLink) (hb : b.HasHiddenLink) :
    (a.min b).HasHiddenLink := by
  cases a <;> cases b
  case commonHidden.commonHidden m n =>
    intro o ho
    obtain rfl := commonHidden.inj ho
    obtain ⟨k, hk⟩ := Linkage.isEmpty_eq_false.1 (ha m rfl)
    exact Linkage.isEmpty_eq_false.2 ⟨k, (Linkage.mem_keys_merge m n k).2 (.inl hk)⟩
  all_goals simp_all [Level.min, rank, HasHiddenLink]

theorem extend_cases (h : l.extend e = some m) :
    (∃ c, m = .delayed c) ∨
      (l.isAssignment = true ∧ e.isAssignment = true ∧ m.isAssignment = true) ∨
      (l.isAssignment = true ∧ e.linkage?.isSome ∧ m = e) ∨
      (l.linkage?.isSome ∧ e.isAssignment = true ∧ m = l) ∨
      ∃ o n k, l.linkage? = some o ∧ e.linkage? = some n ∧ (o.compose n).linkage? = some k ∧
        (m = .dependent k ∨ m = .commonHidden k ∧ k.isEmpty = false) := by
  have hhidden : ∀ {o n : Linkage}, extend.throughHidden o n = some m →
      ∃ k, (o.compose n).linkage? = some k ∧
        (m = .dependent k ∨ m = .commonHidden k ∧ k.isEmpty = false) := by
    intro o n ho
    obtain ⟨k, hk, rfl⟩ := Option.map_eq_some_iff.1 ho
    obtain ⟨hk, hlink⟩ := Option.filter_eq_some_iff.1 hk
    exact ⟨k, hk, .inr ⟨rfl, by simpa using hlink⟩⟩
  cases l <;> cases e
  case dependent.dependent o n =>
    obtain ⟨k, hk, rfl⟩ := Option.map_eq_some_iff.1 h
    exact .inr (.inr (.inr (.inr ⟨o, n, k, rfl, rfl, hk, .inl rfl⟩)))
  case dependent.commonHidden o n =>
    obtain ⟨k, hk⟩ := hhidden h
    exact .inr (.inr (.inr (.inr ⟨o, n, k, rfl, rfl, hk⟩)))
  case commonHidden.dependent o n =>
    obtain ⟨k, hk⟩ := hhidden h
    exact .inr (.inr (.inr (.inr ⟨o, n, k, rfl, rfl, hk⟩)))
  case commonHidden.commonHidden o n =>
    obtain ⟨k, hk⟩ := hhidden h
    exact .inr (.inr (.inr (.inr ⟨o, n, k, rfl, rfl, hk⟩)))
  all_goals simp only [extend, Option.some.injEq, reduceCtorEq] at h
  all_goals
    subst h
    simp [isAssignment, linkage?]

theorem isAssignment_extend (h : l.extend e = some m) (hm : m.isAssignment = true) :
    l.isAssignment = true ∧ e.isAssignment = true := by
  rcases extend_cases h with ⟨c, rfl⟩ | ⟨hl, he, _⟩ | ⟨_, hlinks, rfl⟩ | ⟨hlinks, _, rfl⟩ |
    ⟨o, n, k, _, _, _, rfl | ⟨rfl, _⟩⟩
  · cases hm
  · exact ⟨hl, he⟩
  · cases m <;> simp_all [linkage?, isAssignment]
  · cases m <;> simp_all [linkage?, isAssignment]
  · cases hm
  · cases hm

theorem mem_sources_extend (h : l.extend e = some m) (hk : k ∈ m.sources) :
    k ∈ l.sources ∨ k ∈ e.sources ∧
      (l.isAssignment = true ∨ ∃ o, l.linkage? = some o ∧ o.isEmpty = true) := by
  rcases extend_cases h with ⟨c, rfl⟩ | ⟨_, _, hm⟩ | ⟨hl, _, rfl⟩ | ⟨_, _, rfl⟩ |
    ⟨o, n, i, ho, hn, hi, hm⟩
  · cases hk
  · cases m <;> simp_all [sources, linkage?, isAssignment]
  · exact .inr ⟨hk, .inl hl⟩
  · exact .inl hk
  · have hkeys : k ∈ i.links.keys := by rcases hm with rfl | ⟨rfl, _⟩ <;> exact hk
    rcases Linkage.mem_keys_compose hi hkeys with hx | ⟨hempty, hx⟩
    · exact .inl (mem_sources.2 ⟨o, ho, hx⟩)
    · exact .inr ⟨mem_sources.2 ⟨n, hn, hx⟩, .inr ⟨o, ho, hempty⟩⟩

theorem HasHiddenLink.extend (hl : l.HasHiddenLink) (he : e.HasHiddenLink)
    (h : l.extend e = some m) : m.HasHiddenLink := by
  rcases extend_cases h with ⟨c, rfl⟩ | ⟨_, _, hm⟩ | ⟨_, _, rfl⟩ | ⟨_, _, rfl⟩ |
    ⟨o, n, i, _, _, _, rfl | ⟨rfl, hlink⟩⟩
  · rintro o ho
    cases ho
  · rintro o rfl
    cases hm
  · exact he
  · exact hl
  · rintro o ho
    cases ho
  · rintro o ho
    rwa [← commonHidden.inj ho]

end Level

namespace Graph

def Linked (g : Graph) : Prop :=
  ∀ u v l m, g.level? u v = some l → l.linkage? = some m → m.isEmpty = false

theorem linked_iff {g : Graph} :
    g.Linked ↔ ∀ n ∈ g.adjacency.entries, ∀ e ∈ n.2.entries,
      e.2.linkage?.all (fun m => !m.isEmpty) = true := by
  simp only [Linked, level?_eq_some, Option.all_eq_true, Bool.not_eq_true']
  constructor
  · intro h n hn e he m hm
    exact h n.1 e.1 e.2 m ⟨n.2, hn, he⟩ hm
  · rintro h u v l m ⟨es, hes, he⟩ hm
    exact h (u, es) hes (v, l) he m hm

instance (g : Graph) : Decidable g.Linked := decidable_of_iff _ linked_iff.symm

def Assigns (g : Graph) (s v : Variable) : Prop :=
  ∃ ls, g.Leads s v ls ∧ ∀ l ∈ ls, l.isAssignment = true

def SourceAt (g : Graph) (w : Variable) (k : CoordinateSet) : Prop :=
  ∃ x l, g.level? w x = some l ∧ k ∈ l.sources

/-- What the level of a path from `s` to `v` owes to the edges: it is an assignment only
along assignments, and its sources are sources of edges that leave a variable of
assignments, or one of those in `edgeless`. -/
structure Grounded (g : Graph) (s : Variable) (edgeless : Variable → Prop) (v : Variable)
    (l : Level) : Prop where
  assigned : l.isAssignment = true → g.Assigns s v
  hidden : l.HasHiddenLink
  sources : ∀ k ∈ l.sources, ∃ w, g.SourceAt w k ∧ (g.Assigns s w ∨ edgeless w)

variable {g : Graph} {s u v : Variable} {edgeless : Variable → Prop} {l e m : Level}

theorem assigns_self (g : Graph) (s : Variable) : g.Assigns s s :=
  ⟨[], leads_self g s, fun _ hl => by cases hl⟩

theorem Assigns.step (h : g.Assigns s u) (he : g.level? u v = some e)
    (hassign : e.isAssignment = true) : g.Assigns s v := by
  obtain ⟨ls, hleads, hls⟩ := h
  exact ⟨e :: ls, hleads.step he, List.forall_mem_cons.2 ⟨hassign, hls⟩⟩

theorem Assigns.eq_start (hno : ∀ x e, g.level? s x = some e → e.isAssignment = false)
    (h : g.Assigns s v) : v = s := by
  obtain ⟨ls, hleads, hls⟩ := h
  induction hleads using Leads.induction with
  | start => rfl
  | step u v ls e _ he ih =>
    obtain ⟨hassign, hrest⟩ := List.forall_mem_cons.1 hls
    rw [ih hrest] at he
    rw [hno v e he] at hassign
    cases hassign

theorem Grounded.start : g.Grounded s edgeless s .staticallyAssigned where
  assigned _ := assigns_self g s
  hidden m hm := by cases hm
  sources k hk := by cases hk

theorem Grounded.min (h : g.Grounded s edgeless v l) (h' : g.Grounded s edgeless v m) :
    g.Grounded s edgeless v (l.min m) where
  assigned hmin := (Level.isAssignment_min hmin).elim h.assigned h'.assigned
  hidden := h.hidden.min h'.hidden
  sources k hk := (Level.mem_sources_min hk).elim (h.sources k) (h'.sources k)

/-- One stored edge further. Only an edgeless level lets the sources of an edge in that
leaves no variable of assignments. -/
theorem Grounded.extend (hg : g.Linked) (h : g.Grounded s edgeless u l)
    (he : g.level? u v = some e) (hedgeless : l.IsEdgeless → edgeless u)
    (hext : l.extend e = some m) : g.Grounded s edgeless v m where
  assigned hm := by
    obtain ⟨hl, hassign⟩ := Level.isAssignment_extend hext hm
    exact (h.assigned hl).step he hassign
  hidden := by
    apply h.hidden.extend _ hext
    rintro n rfl
    exact hg u v _ n he rfl
  sources k hk := by
    rcases Level.mem_sources_extend hext hk with hk | ⟨hk, hl | ⟨o, ho, hempty⟩⟩
    · exact h.sources k hk
    · exact ⟨u, ⟨v, e, he, hk⟩, .inl (h.assigned hl)⟩
    · exact ⟨u, ⟨v, e, he, hk⟩, .inr (hedgeless (h.hidden.isEdgeless ho hempty))⟩

end Graph

namespace Frame

variable {g : Graph} {i j : Fin (ofGraph g).nodes.size} {floor : Option Level}

/-- The high pass from `s` keeps an edgeless level for `w`. -/
def KeepsEdgeless (f : Frame) (s : Variable) (floor : Option Level) (w : Variable) : Prop :=
  ∃ i j a, f.node i = s ∧ f.node j = w ∧ (f.edges.highSearch i floor).best? j = some a ∧
    a.2.IsEdgeless

theorem grounded_of_high (hg : g.Linked) {a : Nat × Level}
    (ha : ((ofGraph g).edges.highSearch i floor).best? j = some a) :
    g.Grounded ((ofGraph g).node i) ((ofGraph g).KeepsEdgeless ((ofGraph g).node i) floor)
      ((ofGraph g).node j) a.2 := by
  apply Search.run_labels (P := fun v a => g.Grounded ((ofGraph g).node i)
    ((ofGraph g).KeepsEdgeless ((ofGraph g).node i) floor) ((ofGraph g).node v) a.2)
    Pass.high_lawful .start _ _ ha
  · intro u b v e x hb hu _ he _ hext
    apply hu.extend hg (mem_edges_ofGraph.1 he) _ hext
    intro hedgeless
    exact ⟨i, u, b, rfl, rfl, hb, hedgeless⟩
  · intro v d x y hx hy
    exact hx.min hy

end Frame

namespace Gap

def start : Variable := ⟨"a", "a", .local⟩
def near : Variable := ⟨"b", "b", .local⟩
def middle : Variable := ⟨"c", "c", .local⟩
def far : Variable := ⟨"d", "d", .local⟩

def additions : List (Variable × List (Variable × Level)) :=
  [(start, [(near, .dependent (.single 0 1 false))]),
    (near, [(middle, .dependent (.single 2 3 false))]),
    (middle, [(far, .dependent (.single 4 5 false))])]

def graph : Graph := (Graph.ofAdditions additions).toOption.getD .empty

theorem ofAdditions_eq : Graph.ofAdditions additions = .ok graph := rfl

theorem level?_start {v : Variable} {l : Level} (h : graph.level? start v = some l) :
    l = .dependent (.single 0 1 false) := by
  have hedges : graph.edges start = .singleton near (.dependent (.single 0 1 false)) := by decide
  rw [Graph.level?, hedges, SortedMap.get?_singleton] at h
  split_ifs at h
  exact (Option.some.inj h).symm

end Gap

/-- The sources of an entry are sources of edges that leave the start or a variable it is
assigned to, or a variable for which the high pass keeps an edgeless level. -/
theorem row_sources_leave_edges {g : Graph} (hg : g.Linked) {s : Variable}
    (hs : g.contains s = true) (floor : Option Level) :
    ∃ row, (Frame.ofGraph g).links s floor = .ok row ∧
      ∀ v l, row.get? v = some l → ∀ k ∈ l.sources,
        ∃ w, g.SourceAt w k ∧ (g.Assigns s w ∨ (Frame.ofGraph g).KeepsEdgeless s floor w) := by
  obtain ⟨i, row, rfl, hrow, hentry, hinside⟩ := Frame.exists_row hs floor
  refine ⟨row, hrow, ?_⟩
  intro v l hv k hk
  obtain ⟨j, rfl⟩ := Frame.exists_node (hinside v l hv)
  rw [hentry, Adjacency.levelAt?] at hv
  split_ifs at hv with hj
  · obtain rfl := Option.some.inj hv
    cases hk
  · have hdelayed : l.isDelayed = false := by
      cases l <;> simp_all [Level.sources, Level.linkage?, Level.isDelayed]
    obtain ⟨x, d, _, _, hhigh⟩ := (levelOfPasses?_eq_some hdelayed).1 hv
    exact (Frame.grounded_of_high hg hhigh).sources k hk

theorem row_sources_leave_edges_gap :
    Gap.graph.Linked ∧ Gap.graph.contains Gap.start = true ∧
      ∃ row, (Frame.ofGraph Gap.graph).links Gap.start (some (.dependent .empty)) = .ok row ∧
        ∀ v l, row.get? v = some l → ∀ k ∈ l.sources,
          ∃ w, Gap.graph.SourceAt w k ∧
            (Gap.graph.Assigns Gap.start w ∨
              (Frame.ofGraph Gap.graph).KeepsEdgeless Gap.start (some (.dependent .empty)) w) :=
  have hlinked : Gap.graph.Linked := by decide
  have hstart : Gap.graph.contains Gap.start = true := by decide
  ⟨hlinked, hstart, row_sources_leave_edges hlinked hstart _⟩

/-- A coordinate of the middle is a source of the far end, though no edge of the start, or
of a variable it is assigned to, has it. -/
theorem middle_coordinate_in_row :
    Gap.graph.Built ∧ Gap.graph.Linked ∧ Gap.graph.contains Gap.start = true ∧
      ∃ row, (Frame.ofGraph Gap.graph).links Gap.start none = .ok row ∧
        row.get? Gap.far = some (.dependent (.single 4 5 false)) ∧
        CoordinateSet.single 4 ∈ (Level.dependent (.single 4 5 false)).sources ∧
        ∀ w, Gap.graph.Assigns Gap.start w → ¬ Gap.graph.SourceAt w (.single 4) := by
  have hfar : ((Frame.ofGraph Gap.graph).links Gap.start none).toOption.bind (·.get? Gap.far) =
      some (.dependent (.single 4 5 false)) := by
    decide +kernel
  refine ⟨.of_additions Gap.ofAdditions_eq, by decide, by decide, ?_⟩
  cases hlinks : (Frame.ofGraph Gap.graph).links Gap.start none with
  | error err =>
    rw [hlinks] at hfar
    cases hfar
  | ok row =>
    rw [hlinks] at hfar
    refine ⟨row, rfl, hfar, by decide, ?_⟩
    intro w hw hsource
    have hwstart : w = Gap.start := hw.eq_start fun x e he => by
      rw [Gap.level?_start he]
      rfl
    obtain ⟨x, l, hl, hk⟩ := hsource
    rw [hwstart] at hl
    rw [Gap.level?_start hl] at hk
    revert hk
    decide

end LinkClosure
