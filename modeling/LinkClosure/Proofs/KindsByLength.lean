import LinkClosure.Proofs.Floors

/-!
# Kinds by length

The weights of the high pass are 1024 apart, except that shared hidden content is
farther from a dependency. A way has the kind of its heaviest edge, so with fewer than
1024 edges its length lies below the weight of the next kind, and no sum comes near
the end of a word. With at most 1024 variables the length of a label alone tells the
kind of its level, at the end of the run and at every moment before. Ties are merged
within one kind only.
-/

set_option autoImplicit false

namespace LinkClosure

namespace Level

variable {k d : Nat} {a b e l m : Level}

/-- The kind of the level, told by the length of its way in the high pass. -/
structure KindByLength (l : Level) (d : Nat) : Prop where
  static : l = .staticallyAssigned ↔ d < 2 ^ 10
  assigned : l = .assigned ↔ 2 ^ 10 ≤ d ∧ d < 2 ^ 20
  dependent : l.isDependent = true ↔ 2 ^ 20 ≤ d ∧ d < 2 ^ 40
  commonHidden : l.isCommonHidden = true ↔ 2 ^ 40 ≤ d ∧ d < 2 ^ 50
  delayed : l.isDelayed = true ↔ 2 ^ 50 ≤ d

theorem rank_eq_of_high_eq (h : Weight.high a = Weight.high b) : a.rank = b.rank := by
  cases a <;> cases b <;> simp_all [rank, Weight.high, Weight.highStaticallyAssigned,
    Weight.highAssigned, Weight.highDependent, Weight.highCommonHidden, Weight.highDelayed,
    Distance.top]

theorem Spans.kindByLength (h : l.Spans k d) (hk : k < 1024) : l.KindByLength d := by
  have hleast := h.least
  have hlt := h.lt hk
  generalize hw : Weight.high l = w at hleast hlt
  cases l with
  | independent => exact absurd rfl h.proper
  | _ =>
    simp only [Weight.high, Weight.highStaticallyAssigned, Weight.highAssigned,
      Weight.highDependent, Weight.highCommonHidden, Weight.highDelayed] at hw
    constructor <;> simp [isDependent, isCommonHidden, isDelayed] <;> omega

end Level

/-- What lengths are worth in a high pass: sums are exact, the label of a node tells its
kind by the length, and what is merged is of one kind. -/
structure Adjacency.LengthsTell {n : Nat} (edges : Adjacency n) (i : Fin n) (floor : Option Level) :
    Prop where
  exact : ∀ u l s e x, Search.Follows .high (floorLimit Weight.high floor) edges i u l s e x →
    l.distance + Weight.high e.2 ≤ Distance.top ∧
      Search.walk .high (floorLimit Weight.high floor) u l s e =
        s.offer .high e.1 (l.distance + Weight.high e.2) x
  kinds : ∀ v d l, (edges.highSearch i floor).best? v = some (d, l) → l.KindByLength d
  tied : ∀ u l s e x m, Search.Follows .high (floorLimit Weight.high floor) edges i u l s e x →
    s.labels.get e.1 = some m → m.distance = Distance.add l.distance (Weight.high e.2) →
    Search.walk .high (floorLimit Weight.high floor) u l s e =
        s.setLabel e.1 { m with state := m.state.min x } ∧
      m.state.rank = x.rank

theorem Adjacency.lengthsTell {n : Nat} {edges : Adjacency n} (hn : n ≤ 1024)
    (hedges : edges.Proper) (i : Fin n) (floor : Option Level) : edges.LengthsTell i floor where
  exact u l s e x h := by
    obtain ⟨_, k, hk, _, hl⟩ := h.visits.counted (Search.counts_high hn hedges)
    have hsum := hl.add_le_top (by omega) (hedges u e h.visits.mem)
    refine ⟨hsum, ?_⟩
    rw [h.walk_eq]
    exact congrArg (s.offer .high e.1 · x) (Nat.min_eq_left hsum)
  kinds v d l h := by
    obtain ⟨k, hk, hl⟩ := Search.run_counted (Search.counts_high hn hedges) h
    exact hl.kindByLength (by omega)
  tied u l s e x m h hm htied := by
    have hcounts := Search.counts_high hn hedges
    obtain ⟨hlabels, k, hk, hcard, hl⟩ := h.visits.counted hcounts
    have hroom := Search.card_settledSet_lt h.unsettled
    have hlabel := hlabels e.1 _ (Search.best?_of_label hm)
    rw [Search.edgeBound_of_unsettled h.unsettled, hcard] at hlabel
    have hoffer := hcounts.extend k _ u e x (by omega) hl h.visits.mem h.continues
    refine ⟨h.walk_of_tied hm htied, Level.rank_eq_of_high_eq ?_⟩
    exact hlabel.high_eq (htied ▸ hoffer) (by omega)

/-- With at most 1024 variables, the lengths of the high pass tell the kinds of its levels,
from every start and under every floor. -/
theorem lengths_tell_kinds {g : Graph} (hg : g.Built) (hsize : g.size ≤ 1024)
    (i : Fin (Frame.ofGraph g).nodes.size) (floor : Option Level) :
    (Frame.ofGraph g).edges.LengthsTell i floor := by
  have hn : (Frame.ofGraph g).nodes.size ≤ 1024 := by
    rw [Frame.size_ofGraph hg.wellFormed]
    exact hsize
  exact Adjacency.lengthsTell hn (Frame.proper_ofGraph hg.wellFormed) i floor

namespace Crossing

def home : Variable := ⟨"home", "home", .local⟩
def left : Variable := ⟨"left", "left", .local⟩
def right : Variable := ⟨"right", "right", .local⟩
def far : Variable := ⟨"far", "far", .local⟩
def store : Variable := ⟨"store", "store", .field⟩

def additions : List (Variable × List (Variable × Level)) :=
  [(home, [(left, .dependent (.single 0 1 false)), (right, .dependent (.single 1 0 false)),
      (store, .delayed (.single "late"))]),
    (left, [(far, .dependent (.single 1 2 true))]),
    (right, [(far, .dependent (.single 0 3 false))]),
    (far, [(store, .commonHidden (.single 2 0 false))])]

def graph : Graph := (Graph.ofAdditions additions).toOption.getD .empty

theorem ofAdditions_eq : Graph.ofAdditions additions = .ok graph := rfl

end Crossing

theorem lengths_tell_kinds_crossing :
    Crossing.graph.Built ∧ Crossing.graph.size ≤ 1024 ∧
      ∃ i, (Frame.ofGraph Crossing.graph).node i = Crossing.home ∧
        (Frame.ofGraph Crossing.graph).edges.LengthsTell i (some .assigned) ∧
        (Frame.ofGraph Crossing.graph).edges.LengthsTell i none := by
  have hbuilt : Crossing.graph.Built := .of_additions Crossing.ofAdditions_eq
  have hsize : Crossing.graph.size ≤ 1024 := by decide
  have hcontains : Crossing.graph.contains Crossing.home = true := by decide
  obtain ⟨i, hi⟩ := Frame.exists_node hcontains
  exact ⟨hbuilt, hsize, i, hi, lengths_tell_kinds hbuilt hsize i _,
    lengths_tell_kinds hbuilt hsize i none⟩

example :
    (((Frame.ofGraph Crossing.graph).position? Crossing.home).bind fun i =>
      ((Frame.ofGraph Crossing.graph).position? Crossing.store).bind fun j =>
        (((Frame.ofGraph Crossing.graph).edges.highSearch i none).best? j).map Prod.fst) =
      some (2 * 2 ^ 20 + 2 ^ 40) := by
  decide +kernel

end LinkClosure
