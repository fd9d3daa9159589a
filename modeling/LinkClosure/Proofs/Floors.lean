import LinkClosure.Proofs.Graph.Rows
import LinkClosure.Proofs.Search.Kinds

/-!
# Rows with a floor

A floor does not filter the finished row. It takes edges away from both passes,
whose weights are scaled differently. With at most 1024 variables the row with a
floor still has exactly those known levels of the full row that are at least as
strong as the floor, and a weaker floor never loses a variable.
-/

set_option autoImplicit false

namespace LinkClosure

namespace Level

variable {a b : Level}

theorem low_le_of_rank_le (ha : a.isDelayed = false) (hb : b.isDelayed = false)
    (h : a.rank ≤ b.rank) : Weight.low a ≤ Weight.low b := by
  cases a <;> cases b <;> simp_all [isDelayed, rank, Weight.low, Weight.lowStaticallyAssigned,
    Weight.lowAssigned, Weight.lowDependent, Weight.lowCommonHidden, Distance.top]

theorem high_le_iff_rank_le (ha : a.isDelayed = false) (hb : b.isDelayed = false) :
    Weight.high a ≤ Weight.high b ↔ a.rank ≤ b.rank := by
  cases a <;> cases b <;> simp_all [isDelayed, rank, Weight.high, Weight.highStaticallyAssigned,
    Weight.highAssigned, Weight.highDependent, Weight.highCommonHidden, Distance.top]

theorem rank_nonneg (ha : a.isDelayed = false) : 0 ≤ a.rank := by
  cases a <;> simp_all [isDelayed, rank]

theorem rank_le_five (l : Level) : l.rank ≤ 5 := by
  cases l <;> simp [rank]

theorem eq_independent_of_rank (h : 5 ≤ a.rank) : a = .independent := by
  cases a <;> simp_all [rank]

theorem low_le_of_high_le (hb : b.isDelayed = false) (hbi : b ≠ .independent)
    (h : Weight.high a ≤ Weight.high b) : Weight.low a ≤ Weight.low b := by
  cases a <;> cases b <;> simp_all [isDelayed, Weight.high, Weight.low, Weight.highStaticallyAssigned,
    Weight.highAssigned, Weight.highDependent, Weight.highCommonHidden, Weight.highDelayed,
    Weight.lowStaticallyAssigned, Weight.lowAssigned, Weight.lowDependent, Weight.lowCommonHidden,
    Distance.top]

/-- A floor lets through at least what `f` lets through. -/
def Within (f : Level) : Option Level → Prop
  | none => True
  | some h => h.isDelayed = false ∧ f.rank ≤ h.rank

theorem within_none (f : Level) : f.Within none := trivial

theorem within_self {f : Level} (hf : f.isDelayed = false) : f.Within (some f) :=
  ⟨hf, Int.le_refl _⟩

end Level

namespace Adjacency

variable {n : Nat} {edges : Adjacency n} {i v : Fin n} {f l : Level} {floor : Option Level}

theorem levelAt?_of_within_independent (h : Level.independent.Within floor) :
    edges.levelAt? i floor v = edges.levelAt? i none v := by
  cases floor with
  | none => rfl
  | some h' =>
    rw [Level.eq_independent_of_rank h.2]
    rfl

theorem low_le_floorLimit (hf : f.isDelayed = false) (h : f.Within floor) :
    Weight.low f ≤ floorLimit Weight.low floor := by
  cases floor with
  | none => exact Weight.low_le_top f
  | some h' => exact Level.low_le_of_rank_le hf h.1 h.2

theorem high_le_floorLimit (hf : f.isDelayed = false) (h : f.Within floor) :
    Weight.high f ≤ floorLimit Weight.high floor := by
  cases floor with
  | none => exact Weight.high_le_top f
  | some h' => exact (Level.high_le_iff_rank_le hf h.1).2 h.2

theorem best?_lowSearch_widen (hn : n ≤ 1024) (hedges : edges.Proper) (hf : f.isDelayed = false)
    (hfi : f ≠ .independent) (h : f.Within floor) {a : Nat × Causes}
    (ha : (edges.lowSearch i (some f)).best? v = some a) :
    (edges.lowSearch i floor).best? v = some a :=
  ((Search.run_limited_iff Pass.low_graded hn hedges hfi (low_le_floorLimit hf h)).1 ha).1

theorem best?_highSearch_widen (hn : n ≤ 1024) (hedges : edges.Proper) (hf : f.isDelayed = false)
    (hfi : f ≠ .independent) (h : f.Within floor) {a : Nat × Level}
    (ha : (edges.highSearch i (some f)).best? v = some a) :
    (edges.highSearch i floor).best? v = some a :=
  ((Search.run_limited_iff Pass.high_graded hn hedges hfi (high_le_floorLimit hf h)).1 ha).1

theorem best?_highSearch_floor (hn : n ≤ 1024) (hedges : edges.Proper) (hf : f.isDelayed = false)
    (hfi : f ≠ .independent) (hl : l.isDelayed = false) (hv : v ≠ i) {d : Nat} :
    (edges.highSearch i (some f)).best? v = some (d, l) ↔
      (edges.highSearch i none).best? v = some (d, l) ∧ l.rank ≤ f.rank := by
  have hlimited : (edges.highSearch i (some f)).best? v = some (d, l) ↔
      (edges.highSearch i none).best? v = some (d, l) ∧ d < 1024 * Weight.high f :=
    Search.run_limited_iff Pass.high_graded hn hedges hfi (high_le_floorLimit hf f.within_none)
  rw [hlimited]
  refine and_congr_right fun hbest => ?_
  have htelling := Search.run_high_telling hn hedges hbest hv
  rw [← Level.high_le_iff_rank_le hl hf]
  constructor
  · intro hlt
    exact Pass.high_graded.gap f l hfi htelling.proper (Nat.lt_of_le_of_lt htelling.le hlt)
  · intro hle
    exact Nat.lt_of_lt_of_le htelling.lt (Nat.mul_le_mul_left _ hle)

theorem best?_lowSearch_of_high (hedges : edges.Proper) (hf : f.isDelayed = false)
    (hfi : f ≠ .independent) {a : Nat × Level}
    (ha : (edges.highSearch i (some f)).best? v = some a) :
    ∃ b, (edges.lowSearch i (some f)).best? v = some b :=
  Search.low_reaches hedges (fun _ _ h => Level.low_le_of_high_le hf hfi h) ha

/-- The known levels of a row with a floor are those of the full row that are at least
as strong as the floor. -/
theorem levelAt?_floor (hn : n ≤ 1024) (hedges : edges.Proper) (hf : f.isDelayed = false)
    (hl : l.isDelayed = false) :
    edges.levelAt? i (some f) v = some l ↔ edges.levelAt? i none v = some l ∧ l.rank ≤ f.rank := by
  by_cases hfi : f = .independent
  · subst hfi
    rw [levelAt?_of_within_independent (Level.within_self hf)]
    exact ⟨fun h => ⟨h, l.rank_le_five⟩, And.left⟩
  by_cases hv : v = i
  · simp only [levelAt?, hv, if_true, Option.some.injEq]
    constructor
    · rintro rfl
      exact ⟨rfl, Level.rank_nonneg hf⟩
    · exact And.left
  simp only [levelAt?, hv, if_false, levelOfPasses?_eq_some hl]
  constructor
  · rintro ⟨x, d, hlow, hdist, hhigh⟩
    obtain ⟨hfull, hrank⟩ := (best?_highSearch_floor hn hedges hf hfi hl hv).1 hhigh
    exact ⟨⟨x, d, best?_lowSearch_widen hn hedges hf hfi f.within_none hlow, hdist, hfull⟩, hrank⟩
  · rintro ⟨⟨x, d, hlow, hdist, hfull⟩, hrank⟩
    have hhigh := (best?_highSearch_floor hn hedges hf hfi hl hv).2 ⟨hfull, hrank⟩
    obtain ⟨b, hb⟩ := best?_lowSearch_of_high hedges hf hfi hhigh
    have hwide := best?_lowSearch_widen hn hedges hf hfi f.within_none hb
    obtain rfl : b = x := Option.some.inj (hwide.symm.trans hlow)
    exact ⟨b, d, hb, hdist, hhigh⟩

theorem levelAt?_widen (hn : n ≤ 1024) (hedges : edges.Proper) (hf : f.isDelayed = false)
    (h : f.Within floor) (hreached : (edges.levelAt? i (some f) v).isSome) :
    (edges.levelAt? i floor v).isSome := by
  by_cases hfi : f = .independent
  · subst hfi
    rw [levelAt?_of_within_independent h]
    rwa [levelAt?_of_within_independent (Level.within_self hf)] at hreached
  by_cases hv : v = i
  · simp [levelAt?, hv]
  simp only [levelAt?, hv, if_false, levelOfPasses?_isSome] at hreached ⊢
  obtain ⟨x, hlow, hcases⟩ := hreached
  refine ⟨x, best?_lowSearch_widen hn hedges hf hfi h hlow, ?_⟩
  rcases hcases with hdist | hhigh | hcauses
  · exact .inl hdist
  · obtain ⟨a, ha⟩ := Option.isSome_iff_exists.1 hhigh
    rw [best?_highSearch_widen hn hedges hf hfi h ha]
    exact .inr (.inl rfl)
  · exact .inr (.inr hcauses)

end Adjacency

theorem Frame.proper_ofGraph {g : Graph} (hg : g.WellFormed) : (ofGraph g).edges.Proper := by
  intro u e he
  exact hg.ne_independent _ _ _ (mem_edges_ofGraph.1 he)

theorem Frame.mem_keys_widen {f : Frame} (hd : f.Distinct) (hn : f.nodes.size ≤ 1024)
    (hedges : f.edges.Proper) {i : Fin f.nodes.size} {l : Level} {floor : Option Level}
    (hl : l.isDelayed = false) (h : l.Within floor) {v : Variable}
    (hv : v ∈ (f.named (f.edges.row i (some l))).keys) :
    v ∈ (f.named (f.edges.row i floor)).keys := by
  rw [mem_keys_named_row hd] at hv ⊢
  obtain ⟨j, hj, hreached⟩ := hv
  exact ⟨j, hj, Adjacency.levelAt?_widen hn hedges hl h hreached⟩

/-- A row with the floor `l` has the known levels of the full row that are at least as
strong as `l`, and neither the full row nor a wider floor lacks one of its variables. -/
structure Frame.FloorRow (f : Frame) (s : Variable) (full : SortedMap Variable Level) (l : Level)
    (row : SortedMap Variable Level) : Prop where
  known : ∀ v m, m.isDelayed = false →
    (row.get? v = some m ↔ full.get? v = some m ∧ m.rank ≤ l.rank)
  le_full : ∀ v ∈ row.keys, v ∈ full.keys
  le_wider : ∀ h : Level, h.isDelayed = false → l.rank ≤ h.rank →
    ∃ wider, f.links s (some h) = .ok wider ∧ ∀ v ∈ row.keys, v ∈ wider.keys

/-- With at most 1024 variables, queries with a floor agree with the full row. -/
theorem floor_rows_agree {g : Graph} (hg : g.Built) (hsize : g.size ≤ 1024) {s : Variable}
    (hs : g.contains s = true) :
    ∃ full, (Frame.ofGraph g).links s none = .ok full ∧
      ∀ l : Level, l.isDelayed = false →
        ∃ row, (Frame.ofGraph g).links s (some l) = .ok row ∧
          (Frame.ofGraph g).FloorRow s full l row := by
  have hdistinct := Frame.distinct_ofGraph g
  have hproper := Frame.proper_ofGraph hg.wellFormed
  have hn : (Frame.ofGraph g).nodes.size ≤ 1024 := by
    rw [Frame.size_ofGraph hg.wellFormed]
    exact hsize
  obtain ⟨i, hi⟩ := Frame.exists_position? hs
  refine ⟨_, Frame.links_eq hi none, fun l hl => ⟨_, Frame.links_eq hi (some l), ?_⟩⟩
  constructor
  · intro v m hm
    rw [Frame.get?_named_row hdistinct, Frame.get?_named_row hdistinct]
    cases (Frame.ofGraph g).position? v with
    | none => simp
    | some j => exact Adjacency.levelAt?_floor hn hproper hl hm
  · intro v hv
    exact Frame.mem_keys_widen hdistinct hn hproper hl l.within_none hv
  · intro h hh hrank
    have hwithin : l.Within (some h) := ⟨hh, hrank⟩
    refine ⟨_, Frame.links_eq hi (some h), fun v hv => ?_⟩
    exact Frame.mem_keys_widen hdistinct hn hproper hl hwithin hv

def hub : Variable := ⟨"hub", "hub", .local⟩

def hubEdges : List (Variable × Level) :=
  [(⟨"alias", "alias", .local⟩, .assigned),
    (⟨"member", "member", .field⟩, .dependent (.single 0 1 false)),
    (⟨"later", "later", .local⟩, .delayed (.single "late"))]

def hubGraph : Graph :=
  hubEdges.foldl (fun g e => g.insertEdge hub e.1 e.2) (Graph.empty.insertNode hub)

theorem floor_rows_agree_hub :
    hubGraph.Built ∧ hubGraph.size ≤ 1024 ∧ hubGraph.contains hub = true ∧
      ∃ full, (Frame.ofGraph hubGraph).links hub none = .ok full ∧
        ∀ l : Level, l.isDelayed = false →
          ∃ row, (Frame.ofGraph hubGraph).links hub (some l) = .ok row ∧
            (Frame.ofGraph hubGraph).FloorRow hub full l row := by
  have hadd : Graph.empty.add hub hubEdges = .ok hubGraph := rfl
  have hbuilt : hubGraph.Built := .add .empty hadd
  have hsize : hubGraph.size ≤ 1024 := by decide
  have hcontains : hubGraph.contains hub = true := by decide
  exact ⟨hbuilt, hsize, hcontains, floor_rows_agree hbuilt hsize hcontains⟩

end LinkClosure
