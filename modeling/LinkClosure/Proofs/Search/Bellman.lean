import LinkClosure.Proofs.Search.Run

/-!
# The equation that the search solves

The label of a node is the best of all arrivals: of the ways that reach one of
its predecessors by that predecessor's own label and then take one edge. The
invariant is this equation with the settled predecessors only. A settled node
has its equation for good, because whatever arrives later comes from a node at
least as far away and takes a further edge.

Lengths are exact as long as they fit a word. A run over `n` nodes with weights
up to `bound` needs `(n - 1) * bound` at most.
-/

set_option autoImplicit false

namespace LinkClosure

namespace Pass

variable {σ : Type} {n : Nat} (p : Pass σ) (limit : Nat) (edges : Adjacency n)

/-- The arrivals at `v`: every edge to `v` within the limit that starts at a reached
node and continues the state there. -/
def arrivals (best : Fin n → Option (Nat × σ)) (v : Fin n) : List (Nat × σ) :=
  (List.finRange n).flatMap fun u =>
    (best u).elim [] fun b => p.offers limit (edges.get u) v (b.1 + ·) b.2

variable {p limit edges}

theorem mem_arrivals {best : Fin n → Option (Nat × σ)} {v : Fin n} {a : Nat × σ} :
    a ∈ p.arrivals limit edges best v ↔
      ∃ u b l, best u = some b ∧ (v, l) ∈ edges.get u ∧ p.weight l ≤ limit ∧
        p.extend b.2 l = some a.2 ∧ a.1 = b.1 + p.weight l := by
  simp only [arrivals, List.mem_flatMap, List.mem_finRange, true_and]
  constructor
  · rintro ⟨u, h⟩
    cases hb : best u with
    | none => simp [hb] at h
    | some b =>
      rw [hb, Option.elim_some, mem_offers] at h
      obtain ⟨l, hl⟩ := h
      exact ⟨u, b, l, hb, hl⟩
  · rintro ⟨u, b, l, hb, hl⟩
    refine ⟨u, ?_⟩
    rw [hb, Option.elim_some, mem_offers]
    exact ⟨l, hl⟩

theorem arrivals_update {best best' : Fin n → Option (Nat × σ)} {u : Fin n} {b : Nat × σ}
    (hu : best u = none) (hu' : best' u = some b) (h : ∀ w, w ≠ u → best' w = best w)
    (v : Fin n) :
    (p.arrivals limit edges best' v).Perm
      (p.arrivals limit edges best v ++ p.offers limit (edges.get u) v (b.1 + ·) b.2) := by
  obtain ⟨before, after, hsplit⟩ := List.append_of_mem (List.mem_finRange u)
  have hnodup : (before ++ u :: after).Nodup := hsplit ▸ List.nodup_finRange n
  have hbefore : u ∉ before := fun hmem =>
    (List.nodup_append.1 hnodup).2.2 u hmem u (by simp) rfl
  have hafter : u ∉ after := (List.nodup_cons.1 (List.nodup_append.1 hnodup).2.1).1
  have hsame : ∀ l : List (Fin n), u ∉ l →
      (l.flatMap fun w => (best' w).elim [] fun b => p.offers limit (edges.get w) v (b.1 + ·) b.2) =
        l.flatMap fun w => (best w).elim [] fun b => p.offers limit (edges.get w) v (b.1 + ·) b.2 := by
    intro l hl
    refine List.flatMap_congr fun w hw => ?_
    rw [h w (fun hwu => hl (hwu ▸ hw))]
  simp only [arrivals, hsplit, List.flatMap_append, List.flatMap_cons, hu, hu', Option.elim_none,
    Option.elim_some, List.nil_append, hsame before hbefore, hsame after hafter, List.append_assoc]
  exact List.Perm.append_left _ List.perm_append_comm

end Pass

namespace Search

variable {σ : Type} {n : Nat} {p : Pass σ} {limit : Nat} {edges : Adjacency n} {i : Fin n}

theorem labels_start (v : Fin n) :
    (start p i).labels.get v = if v = i then some ⟨0, p.initial, false⟩ else none := by
  change ((Vector.replicate n none).set i (some (NodeLabel.mk 0 p.initial false)))[v.val] = _
  rw [Vector.getElem_set, Vector.getElem_replicate]
  simp only [Fin.val_inj, eq_comm]

theorem best?_start (v : Fin n) :
    (start p i).best? v = if v = i then some (0, p.initial) else none := by
  rw [best?_eq, labels_start]
  split_ifs <;> rfl

theorem isSettled_start (v : Fin n) : (start p i).isSettled v = false := by
  rw [isSettled_eq, labels_start]
  split_ifs <;> rfl

/-- Settled nodes are at most as far away as the others. -/
structure Frontier (s : Search σ n) : Prop where
  ordered : ∀ u v a b, s.isSettled u = true → s.isSettled v = false →
    s.best? u = some a → s.best? v = some b → a.1 ≤ b.1
  capped : ∀ v a, s.best? v = some a → a.1 ≤ Distance.top

theorem Frontier.start : (start p i).Frontier where
  ordered u v a b hu := by
    rw [isSettled_start] at hu
    cases hu
  capped v a ha := by
    rw [best?_start] at ha
    split_ifs at ha
    rw [← Option.some.inj ha]
    exact Nat.zero_le _

theorem le_add_of_le_top {d w : Nat} (h : d ≤ Distance.top) : d ≤ Distance.add d w :=
  Nat.le_min.2 ⟨Nat.le_add_right d w, h⟩

theorem best?_settle_cases (hp : p.Lawful) {s : Search σ n} {u w : Fin n} {l : NodeLabel σ}
    (h : s.nearest? = some (u, l)) (hwu : w ≠ u) (hw : s.isSettled w = false) {b : Nat × σ}
    (hb : (s.settle p limit edges).best? w = some b) :
    (∃ a, s.best? w = some a ∧ a.1 = b.1) ∨
      ∃ m, (w, m) ∈ edges.get u ∧ p.weight m ≤ limit ∧ b.1 = Distance.add l.distance (p.weight m) := by
  rw [best?_settle hp h hwu hw, Pass.merge_joinAll] at hb
  obtain ⟨a, ha, hab⟩ := p.joinAll_attained hb
  rcases List.mem_append.1 ha with ha | ha
  · exact .inl ⟨a, Option.mem_toList.1 ha, hab⟩
  · obtain ⟨m, hm, hlimit, _, hlen⟩ := Pass.mem_offers.1 ha
    exact .inr ⟨m, hm, hlimit, hab ▸ hlen⟩

theorem Frontier.settle (hp : p.Lawful) {s : Search σ n} (hs : s.Frontier) :
    (s.settle p limit edges).Frontier := by
  cases hnear : s.nearest? with
  | none => rwa [settle_of_nearest?_none hnear]
  | some c =>
    obtain ⟨u, l⟩ := c
    have near := nearest_of_nearest? hnear
    have hcap : l.distance ≤ Distance.top := hs.capped u _ near.best?
    constructor
    · intro v w a b hv hw ha hb
      rw [isSettled_settle hnear, Bool.or_eq_true, decide_eq_true_eq] at hv
      rw [isSettled_settle hnear, Bool.or_eq_false_iff, decide_eq_false_iff_not] at hw
      rw [best?_settle_of_settled hnear hv] at ha
      have hal : a.1 ≤ l.distance := by
        rcases hv with rfl | hv
        · rw [near.best?] at ha
          rw [← Option.some.inj ha]
        · exact hs.ordered v u a _ hv near.unsettled ha near.best?
      refine Nat.le_trans hal ?_
      rcases best?_settle_cases hp hnear hw.1 hw.2 hb with ⟨a', ha', hab⟩ | ⟨m, _, _, hlen⟩
      · rw [← hab]
        exact near.least w a' hw.2 ha'
      · rw [hlen]
        exact le_add_of_le_top hcap
    · intro w b hb
      by_cases hw : w = u ∨ s.isSettled w = true
      · rw [best?_settle_of_settled hnear hw] at hb
        exact hs.capped w b hb
      · rw [not_or, Bool.not_eq_true] at hw
        rcases best?_settle_cases hp hnear hw.1 hw.2 hb with ⟨a', ha', hab⟩ | ⟨m, _, _, hlen⟩
        · rw [← hab]
          exact hs.capped w a' ha'
        · rw [hlen]
          exact Nat.min_le_right _ _

/-- Every accepted edge of a settled node has been offered. -/
def Relaxed (p : Pass σ) (limit : Nat) (edges : Adjacency n) (s : Search σ n) : Prop :=
  ∀ u a v l x, s.isSettled u = true → s.best? u = some a → (v, l) ∈ edges.get u →
    p.weight l ≤ limit → p.extend a.2 l = some x →
    ∃ b, s.best? v = some b ∧ b.1 ≤ a.1 + p.weight l

theorem Relaxed.start : Relaxed p limit edges (start p i) := by
  intro u a v l x hu
  rw [isSettled_start] at hu
  cases hu

theorem Relaxed.settle (hp : p.Lawful) {s : Search σ n} (hf : s.Frontier)
    (hr : Relaxed p limit edges s) : Relaxed p limit edges (s.settle p limit edges) := by
  cases hnear : s.nearest? with
  | none => rwa [settle_of_nearest?_none hnear]
  | some c =>
    obtain ⟨u₀, l₀⟩ := c
    have near := nearest_of_nearest? hnear
    intro u a v l x hu ha hv hlimit hext
    rw [isSettled_settle hnear, Bool.or_eq_true, decide_eq_true_eq] at hu
    rw [best?_settle_of_settled hnear hu] at ha
    by_cases hvs : v = u₀ ∨ s.isSettled v = true
    · rw [best?_settle_of_settled hnear hvs]
      rcases hu with rfl | hu
      · obtain rfl : a = (l₀.distance, l₀.state) := Option.some.inj (ha.symm.trans near.best?)
        rcases hvs with rfl | hvs
        · exact ⟨_, ha, Nat.le_add_right _ _⟩
        · obtain ⟨b, hb⟩ := best?_isSome_of_isSettled hvs
          have hle := hf.ordered v u b _ hvs near.unsettled hb ha
          exact ⟨b, hb, Nat.le_trans hle (Nat.le_add_right _ _)⟩
      · exact hr u a v l x hu ha hv hlimit hext
    · rw [not_or, Bool.not_eq_true] at hvs
      rw [best?_settle hp hnear hvs.1 hvs.2, Pass.merge_joinAll]
      rcases hu with rfl | hu
      · obtain rfl : a = (l₀.distance, l₀.state) := Option.some.inj (ha.symm.trans near.best?)
        have hoffer : (Distance.add l₀.distance (p.weight l), x) ∈
            (s.best? v).toList ++ p.offers limit (edges.get u) v (Distance.add l₀.distance) l₀.state :=
          List.mem_append_right _ (Pass.mem_offers.2 ⟨l, hv, hlimit, hext, rfl⟩)
        obtain ⟨b, hb, hle⟩ := p.joinAll_of_mem hoffer
        exact ⟨b, hb, Nat.le_trans hle (Nat.min_le_left _ _)⟩
      · obtain ⟨b, hb, hle⟩ := hr u a v l x hu ha hv hlimit hext
        obtain ⟨b', hb', hle'⟩ := p.joinAll_of_mem (List.mem_append_left
          (p.offers limit (edges.get u₀) v (Distance.add l₀.distance) l₀.state)
          (Option.mem_toList.2 hb))
        exact ⟨b', hb', Nat.le_trans hle' hle⟩

theorem run_relaxed (hp : p.Lawful) {u v : Fin n} {a : Nat × σ} {l : Level} {x : σ}
    (ha : (run p limit edges i).best? u = some a) (hv : (v, l) ∈ edges.get u)
    (hlimit : p.weight l ≤ limit) (hext : p.extend a.2 l = some x) :
    ∃ b, (run p limit edges i).best? v = some b ∧ b.1 ≤ a.1 + p.weight l := by
  have hrun : (run p limit edges i).Frontier ∧ Relaxed p limit edges (run p limit edges i) :=
    run_induction (motive := fun s => s.Frontier ∧ Relaxed p limit edges s)
      ⟨.start, .start⟩ fun _ hs => ⟨hs.1.settle hp, hs.2.settle hp hs.1⟩
  exact hrun.2 u a v l x (settled_of_run ha) ha hv hlimit hext

theorem run_start (hp : p.Lawful) : (run p limit edges i).best? i = some (0, p.initial) := by
  refine run_induction (motive := fun s => s.best? i = some (0, p.initial)) ?_ fun s hs => ?_
  · rw [best?_start, if_pos rfl]
  · cases hnear : s.nearest? with
    | none => rwa [settle_of_nearest?_none hnear]
    | some c =>
      obtain ⟨u, l⟩ := c
      by_cases hi : i = u ∨ s.isSettled i = true
      · rwa [best?_settle_of_settled hnear hi]
      · rw [not_or, Bool.not_eq_true] at hi
        rw [best?_settle hp hnear hi.1 hi.2, hs]
        refine Pass.merge_joinAll_of_lt fun a ha => ?_
        obtain ⟨m, _, _, _, hlen⟩ := Pass.mem_offers.1 ha
        have hpos := hp.weight_pos m
        rw [hlen]
        exact Nat.lt_min.2 ⟨by omega, by simp [Distance.top]⟩

def settledBest (s : Search σ n) (v : Fin n) : Option (Nat × σ) :=
  if s.isSettled v then s.best? v else none

theorem settledBest_settle {s : Search σ n} {u : Fin n} {l : NodeLabel σ}
    (h : s.nearest? = some (u, l)) {w : Fin n} (hw : w ≠ u) :
    (s.settle p limit edges).settledBest w = s.settledBest w := by
  simp only [settledBest, isSettled_settle h, hw, decide_false, Bool.false_or]
  split_ifs with hs
  · rw [best?_settle_of_settled h (.inr hs)]
  · rfl

theorem arrivals_settle {s : Search σ n} {u : Fin n} {l : NodeLabel σ}
    (h : s.nearest? = some (u, l)) (v : Fin n) :
    (p.arrivals limit edges (s.settle p limit edges).settledBest v).Perm
      (p.arrivals limit edges s.settledBest v ++
        p.offers limit (edges.get u) v (l.distance + ·) l.state) := by
  have near := nearest_of_nearest? h
  refine Pass.arrivals_update (b := (l.distance, l.state)) ?_ ?_
    (fun w hw => settledBest_settle h hw) v
  · rw [settledBest, near.unsettled]
    rfl
  · rw [settledBest, isSettled_settle h, best?_settle_of_settled h (.inl rfl), near.best?]
    simp

def seed (p : Pass σ) (i v : Fin n) : List (Nat × σ) := if v = i then [(0, p.initial)] else []

/-- Weights that the search walks are at most `bound`, and so many of them fit a word. -/
structure Fits (p : Pass σ) (limit : Nat) (edges : Adjacency n) (bound : Nat) : Prop where
  weight_le : ∀ u : Fin n, ∀ e ∈ edges.get u, p.weight e.2 ≤ limit → p.weight e.2 ≤ bound
  room : (n - 1) * bound ≤ Distance.top

/-- The equation, over the settled nodes, and how far the labels can have got. -/
structure Balanced (p : Pass σ) (limit : Nat) (edges : Adjacency n) (i : Fin n) (bound : Nat)
    (s : Search σ n) : Prop where
  equation : ∀ v, s.best? v = p.joinAll (seed p i v ++ p.arrivals limit edges s.settledBest v)
  waiting_le : ∀ v a, s.isSettled v = false → s.best? v = some a →
    a.1 ≤ s.settledSet.card * bound
  settled_le : ∀ v a, s.isSettled v = true → s.best? v = some a →
    a.1 + bound ≤ s.settledSet.card * bound

theorem Balanced.start {bound : Nat} : Balanced p limit edges i bound (start p i) where
  equation v := by
    have hnone : (Search.start p i).settledBest = fun _ => none := by
      funext w
      rw [settledBest, isSettled_start]
      rfl
    have hnil : p.arrivals limit edges (fun _ => none) v = [] := by
      simp [Pass.arrivals]
    rw [hnone, hnil, List.append_nil, best?_start, seed]
    split_ifs <;> rfl
  waiting_le v a _ ha := by
    rw [best?_start] at ha
    split_ifs at ha
    rw [← Option.some.inj ha]
    exact Nat.zero_le _
  settled_le v a hv := by
    rw [isSettled_start] at hv
    cases hv

theorem Balanced.add_eq {bound : Nat} (hfit : Fits p limit edges bound) {s : Search σ n}
    (hs : Balanced p limit edges i bound s) {u v : Fin n} {l : NodeLabel σ}
    (h : s.nearest? = some (u, l)) (hvu : v ≠ u) (hv : s.isSettled v = false) {w : Nat}
    (hw : w ≤ bound) : Distance.add l.distance w = l.distance + w := by
  have near := nearest_of_nearest? h
  have hdist := hs.waiting_le u _ near.unsettled near.best?
  have hopen : (s.settle p limit edges).isSettled v = false := by
    rw [isSettled_settle h, hv, Bool.or_false, decide_eq_false hvu]
  have hcard : s.settledSet.card + 1 ≤ n - 1 := by
    have := card_settledSet_lt hopen
    rw [card_settledSet_settle h] at this
    omega
  have hroom : (s.settledSet.card + 1) * bound ≤ Distance.top :=
    Nat.le_trans (Nat.mul_le_mul_right bound hcard) hfit.room
  have hsum : l.distance + w ≤ Distance.top := by
    rw [Nat.add_mul, Nat.one_mul] at hroom
    simp only [] at hdist
    omega
  exact Nat.min_eq_left hsum

/-- A node that is settled already keeps its equation: what the new node offers comes
from at least as far away. -/
theorem Balanced.equation_of_settled (hp : p.Lawful) {bound : Nat} {s : Search σ n}
    (hf : s.Frontier) (hs : Balanced p limit edges i bound s) {u v : Fin n} {l : NodeLabel σ}
    (h : s.nearest? = some (u, l)) (hv : v = u ∨ s.isSettled v = true) :
    s.best? v = p.joinAll ((seed p i v ++ p.arrivals limit edges s.settledBest v) ++
      p.offers limit (edges.get u) v (l.distance + ·) l.state) := by
  have near := nearest_of_nearest? h
  obtain ⟨b, hb, hle⟩ : ∃ b, s.best? v = some b ∧ b.1 ≤ l.distance := by
    rcases hv with rfl | hv
    · exact ⟨_, near.best?, Nat.le_refl _⟩
    · obtain ⟨b, hb⟩ := best?_isSome_of_isSettled hv
      exact ⟨b, hb, hf.ordered v u b _ hv near.unsettled hb near.best?⟩
  rw [hp.joinAll_append, ← hs.equation, hb]
  refine (Pass.merge_joinAll_of_lt fun a ha => ?_).symm
  obtain ⟨m, _, _, _, hlen⟩ := Pass.mem_offers.1 ha
  have := hp.weight_pos m
  omega

theorem Balanced.equation_of_open (hp : p.Lawful) {bound : Nat} (hfit : Fits p limit edges bound)
    {s : Search σ n} (hs : Balanced p limit edges i bound s) {u v : Fin n} {l : NodeLabel σ}
    (h : s.nearest? = some (u, l)) (hvu : v ≠ u) (hv : s.isSettled v = false) :
    (s.settle p limit edges).best? v =
      p.joinAll ((seed p i v ++ p.arrivals limit edges s.settledBest v) ++
        p.offers limit (edges.get u) v (l.distance + ·) l.state) := by
  have hexact : p.offers limit (edges.get u) v (Distance.add l.distance) l.state =
      p.offers limit (edges.get u) v (l.distance + ·) l.state :=
    Pass.offers_congr fun m hm hlimit =>
      hs.add_eq hfit h hvu hv (hfit.weight_le u (v, m) hm hlimit)
  rw [best?_settle hp h hvu hv, hexact, hs.equation, ← hp.joinAll_append]

theorem Balanced.waiting_le_settle (hp : p.Lawful) {bound : Nat} (hfit : Fits p limit edges bound)
    {s : Search σ n} (hs : Balanced p limit edges i bound s) {u v : Fin n} {l : NodeLabel σ}
    (h : s.nearest? = some (u, l)) (hvu : v ≠ u) (hv : s.isSettled v = false) {b : Nat × σ}
    (hb : (s.settle p limit edges).best? v = some b) :
    b.1 ≤ s.settledSet.card * bound + bound := by
  have near := nearest_of_nearest? h
  have hdist : l.distance ≤ s.settledSet.card * bound :=
    hs.waiting_le u _ near.unsettled near.best?
  rcases best?_settle_cases hp h hvu hv hb with ⟨a, ha, hab⟩ | ⟨m, hm, hlimit, hlen⟩
  · have := hs.waiting_le v a hv ha
    omega
  · have hweight : p.weight m ≤ bound := hfit.weight_le u (v, m) hm hlimit
    have hcut : Distance.add l.distance (p.weight m) ≤ l.distance + p.weight m :=
      Nat.min_le_left _ _
    omega

theorem Balanced.settle (hp : p.Lawful) {bound : Nat} (hfit : Fits p limit edges bound)
    {s : Search σ n} (hf : s.Frontier) (hs : Balanced p limit edges i bound s) :
    Balanced p limit edges i bound (s.settle p limit edges) := by
  cases hnear : s.nearest? with
  | none => rwa [settle_of_nearest?_none hnear]
  | some c =>
    obtain ⟨u, l⟩ := c
    have near := nearest_of_nearest? hnear
    have hcard : (s.settle p limit edges).settledSet.card * bound =
        s.settledSet.card * bound + bound := by
      rw [card_settledSet_settle hnear, Nat.add_mul, Nat.one_mul]
    constructor
    · intro v
      rw [hp.joinAll_perm ((arrivals_settle hnear v).append_left (seed p i v)),
        ← List.append_assoc]
      by_cases hv : v = u ∨ s.isSettled v = true
      · rw [best?_settle_of_settled hnear hv]
        exact hs.equation_of_settled hp hf hnear hv
      · rw [not_or, Bool.not_eq_true] at hv
        exact hs.equation_of_open hp hfit hnear hv.1 hv.2
    · intro v b hv hb
      rw [isSettled_settle hnear, Bool.or_eq_false_iff, decide_eq_false_iff_not] at hv
      rw [hcard]
      exact hs.waiting_le_settle hp hfit hnear hv.1 hv.2 hb
    · intro v a hv ha
      rw [isSettled_settle hnear, Bool.or_eq_true, decide_eq_true_eq] at hv
      rw [best?_settle_of_settled hnear hv] at ha
      rw [hcard]
      rcases hv with rfl | hv
      · have := hs.waiting_le v a near.unsettled ha
        omega
      · have := hs.settled_le v a hv ha
        omega

theorem run_balanced (hp : p.Lawful) {bound : Nat} (hfit : Fits p limit edges bound) :
    Balanced p limit edges i bound (run p limit edges i) :=
  (run_induction (motive := fun s => s.Frontier ∧ Balanced p limit edges i bound s)
    ⟨.start, .start⟩ fun _ hs => ⟨hs.1.settle hp, hs.2.settle hp hfit hs.1⟩).2

theorem settledBest_run (v : Fin n) :
    (run p limit edges i).settledBest v = (run p limit edges i).best? v := by
  rw [settledBest]
  split_ifs with hv
  · rfl
  · cases hb : (run p limit edges i).best? v with
    | none => rfl
    | some a => exact absurd (settled_of_run hb) hv

/-- The labels of a run are the best of their arrivals. -/
theorem run_equation (hp : p.Lawful) {bound : Nat} (hfit : Fits p limit edges bound) (v : Fin n) :
    (run p limit edges i).best? v =
      p.joinAll (seed p i v ++ p.arrivals limit edges (run p limit edges i).best? v) := by
  have hequation := (run_balanced (i := i) hp hfit).equation v
  rwa [funext settledBest_run] at hequation

theorem run_le (hp : p.Lawful) {bound : Nat} (hfit : Fits p limit edges bound) {v : Fin n}
    {a : Nat × σ} (ha : (run p limit edges i).best? v = some a) : a.1 ≤ (n - 1) * bound := by
  have hle := (run_balanced hp hfit).settled_le v a (settled_of_run ha) ha
  have hcard := Nat.mul_le_mul_right bound (card_settledSet_le (run p limit edges i))
  rw [Nat.sub_mul, Nat.one_mul]
  omega

theorem run_equation_of_ne (hp : p.Lawful) {bound : Nat} (hfit : Fits p limit edges bound)
    {v : Fin n} (hv : v ≠ i) :
    (run p limit edges i).best? v =
      p.joinAll (p.arrivals limit edges (run p limit edges i).best? v) := by
  rw [run_equation hp hfit, seed, if_neg hv, List.nil_append]

end Search

/-- The equation in full. The start has the empty path. Any other node is unreached if
nothing arrives there; else its label has the least length of all arrivals, and as
state the merge, in any order, of the states of all arrivals of that length. -/
structure Pass.Solves {σ : Type} {n : Nat} (p : Pass σ) (limit : Nat) (edges : Adjacency n)
    (i : Fin n) (best : Fin n → Option (Nat × σ)) : Prop where
  origin : best i = some (0, p.initial)
  unreached : ∀ v, v ≠ i → (best v = none ↔ p.arrivals limit edges best v = [])
  least : ∀ v d x, v ≠ i → best v = some (d, x) →
    (∀ a ∈ p.arrivals limit edges best v, d ≤ a.1) ∧
      ∃ a ∈ p.arrivals limit edges best v, a.1 = d
  merged : ∀ v d x, v ≠ i → best v = some (d, x) →
    ∀ y ys, (y :: ys).Perm (tied d (p.arrivals limit edges best v)) → ys.foldl p.merge y = x

theorem Search.run_solves {σ : Type} {n : Nat} {p : Pass σ} {limit : Nat} {edges : Adjacency n}
    (hp : p.Lawful) {bound : Nat} (hfit : Fits p limit edges bound) (i : Fin n) :
    p.Solves limit edges i (run p limit edges i).best? where
  origin := run_start hp
  unreached v hv := by
    have hequation := run_equation_of_ne hp hfit hv
    constructor
    · intro hnone
      exact p.joinAll_eq_none.1 (hequation.symm.trans hnone)
    · intro hnil
      exact hequation.trans (p.joinAll_eq_none.2 hnil)
  least v d x hv hbest := by
    have hall := (run_equation_of_ne hp hfit hv).symm.trans hbest
    exact ⟨p.joinAll_le hall, p.joinAll_attained hall⟩
  merged v d x hv hbest y ys hperm := by
    have hall := (run_equation_of_ne hp hfit hv).symm.trans hbest
    have hmerge := (p.least_of_joinAll hall).2
    rw [← hp.mergeAll_perm hperm, hp.mergeAll_eq_foldl] at hmerge
    exact Option.some.inj hmerge

namespace Weight

theorem low_le {l : Level} (h : l ≠ .independent) : low l ≤ highDelayed := by
  cases l <;> simp_all [low, lowStaticallyAssigned, lowDelayed, lowAssigned, lowDependent,
    lowCommonHidden, highDelayed]

theorem high_le {l : Level} (h : l ≠ .independent) : high l ≤ highDelayed := by
  cases l <;> simp_all [high, highStaticallyAssigned, highDelayed, highAssigned, highDependent,
    highCommonHidden]

theorem low_le_top (l : Level) : low l ≤ Distance.top := by
  cases l <;> simp [low, lowStaticallyAssigned, lowDelayed, lowAssigned, lowDependent,
    lowCommonHidden, Distance.top]

theorem high_le_top (l : Level) : high l ≤ Distance.top := by
  cases l <;> simp [high, highStaticallyAssigned, highDelayed, highAssigned, highDependent,
    highCommonHidden, Distance.top]

theorem room_of_size {n : Nat} (h : n ≤ 2 ^ 14) : (n - 1) * highDelayed ≤ Distance.top := by
  simp only [highDelayed, Distance.top]
  omega

end Weight

/-- Both passes solve their equations exactly on graphs of up to `2 ^ 14` nodes. -/
theorem passes_solve_bellman {n : Nat} (edges : Adjacency n) (hsize : n ≤ 2 ^ 14)
    (hedges : ∀ u : Fin n, ∀ e ∈ edges.get u, e.2 ≠ .independent) (i : Fin n) (limit : Nat) :
    Pass.low.Solves limit edges i (Search.run .low limit edges i).best? ∧
      Pass.high.Solves limit edges i (Search.run .high limit edges i).best? := by
  have hlow : Search.Fits .low limit edges Weight.highDelayed :=
    ⟨fun u e he _ => Weight.low_le (hedges u e he), Weight.room_of_size hsize⟩
  have hhigh : Search.Fits .high limit edges Weight.highDelayed :=
    ⟨fun u e he _ => Weight.high_le (hedges u e he), Weight.room_of_size hsize⟩
  exact ⟨Search.run_solves Pass.low_lawful hlow i, Search.run_solves Pass.high_lawful hhigh i⟩

def diamond : Adjacency 4 :=
  #v[[(1, .dependent (.single 0 1 false)), (2, .dependent (.single 1 0 false)),
      (3, .delayed (.single "late"))],
    [(3, .dependent (.single 1 2 false))],
    [(3, .dependent (.single 0 3 false))],
    []]

theorem passes_solve_bellman_diamond :
    (∀ u : Fin 4, ∀ e ∈ diamond.get u, e.2 ≠ .independent) ∧
      Pass.low.Solves Distance.top diamond 0 (Search.run .low Distance.top diamond 0).best? ∧
      Pass.high.Solves Distance.top diamond 0 (Search.run .high Distance.top diamond 0).best? :=
  have hedges : ∀ u : Fin 4, ∀ e ∈ diamond.get u, e.2 ≠ .independent := by decide
  ⟨hedges, passes_solve_bellman diamond (by decide) hedges 0 Distance.top⟩

end LinkClosure
