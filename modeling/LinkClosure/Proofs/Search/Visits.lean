import LinkClosure.Proofs.Search.Bellman

/-!
# The moments of a run

Inside of a round the edges of one node are walked one after the other. What the run
adds up and what it merges it does at these moments, and with labels that later ones
may still replace; so a statement about its additions is one about all moments, and
not about the labels at its end.

A property of labels may depend on the number of edges that have led to them. That
number is bounded by the number of nodes settled so far, since only settled nodes
offer, and by one less than the number of nodes, since they offer to others only.
-/

set_option autoImplicit false

namespace LinkClosure

namespace Search

variable {σ : Type} {n : Nat} {p : Pass σ} {limit : Nat} {edges : Adjacency n} {i u : Fin n}
  {l : NodeLabel σ} {s : Search σ n} {e : Fin n × Level} {x : σ}

section Moments

variable (p limit edges i)

/-- At some moment of the run, when it has come to `s`, the next edge to be walked is the
edge `e` of the node `u`, whose label is `l`. -/
def Visits (u : Fin n) (l : NodeLabel σ) (s : Search σ n) (e : Fin n × Level) : Prop :=
  ∃ k before after, (rounds p limit edges k (start p i)).nearest? = some (u, l) ∧
    (edges.get u).reverse = before ++ e :: after ∧
      s = before.foldl (walk p limit u l)
        ((rounds p limit edges k (start p i)).setLabel u { l with settled := true })

/-- Then the edge is followed, and comes to its target with the state `x`. -/
structure Follows (u : Fin n) (l : NodeLabel σ) (s : Search σ n) (e : Fin n × Level) (x : σ) :
    Prop where
  visits : Visits p limit edges i u l s e
  within : p.weight e.2 ≤ limit
  unsettled : s.isSettled e.1 = false
  continues : p.extend l.state e.2 = some x

end Moments

theorem Visits.mem (h : Visits p limit edges i u l s e) : e ∈ edges.get u := by
  obtain ⟨_, before, after, _, hsplit, _⟩ := h
  rw [← List.mem_reverse, hsplit]
  simp

theorem Follows.walk_eq (h : Follows p limit edges i u l s e x) :
    walk p limit u l s e = s.offer p e.1 (Distance.add l.distance (p.weight e.2)) x := by
  have hopen : ¬ (limit < p.weight e.2 ∨ s.isSettled e.1 = true) := by
    rw [h.unsettled]
    have := h.within
    simp only [Bool.false_eq_true, or_false]
    omega
  simp [walk, h.continues, hopen]

theorem Follows.walk_of_tied (h : Follows p limit edges i u l s e x) {m : NodeLabel σ}
    (hm : s.labels.get e.1 = some m)
    (htied : m.distance = Distance.add l.distance (p.weight e.2)) :
    walk p limit u l s e = s.setLabel e.1 { m with state := p.merge m.state x } := by
  have hlabel : s.labels[e.1] = some m := hm
  simp [h.walk_eq, offer, hlabel, htied]

section Counting

variable {P : Nat → Nat × σ → Prop}

/-- A property that labels have by the number of edges behind them. Numbers that reach
the number of nodes do not occur. -/
structure Counts (p : Pass σ) (edges : Adjacency n) (P : Nat → Nat × σ → Prop) : Prop where
  start : P 0 (0, p.initial)
  widen : ∀ k a, P k a → P (k + 1) a
  extend : ∀ k a (u : Fin n) e x, k + 1 < n → P k a → e ∈ edges.get u →
    p.extend a.2 e.2 = some x → P (k + 1) (Distance.add a.1 (p.weight e.2), x)
  merge : ∀ k d x y, k < n → P k (d, x) → P k (d, y) → P k (d, p.merge x y)

theorem Counts.mono (hP : Counts p edges P) {k k' : Nat} (hk : k ≤ k') {a : Nat × σ} (h : P k a) :
    P k' a := by
  induction hk with
  | refl => exact h
  | step _ ih => exact hP.widen _ _ ih

def edgeBound (s : Search σ n) : Nat := min s.settledSet.card (n - 1)

theorem edgeBound_lt (s : Search σ n) (v : Fin n) : s.edgeBound < n := by
  have := v.isLt
  simp only [edgeBound]
  omega

theorem edgeBound_of_unsettled {v : Fin n} (hv : s.isSettled v = false) :
    s.edgeBound = s.settledSet.card := by
  have := card_settledSet_lt hv
  simp only [edgeBound]
  omega

def Labelled (P : Nat → Nat × σ → Prop) (s : Search σ n) : Prop :=
  ∀ v a, s.best? v = some a → P s.edgeBound a

theorem settledSet_congr {s' : Search σ n} (h : ∀ v, s'.isSettled v = s.isSettled v) :
    s'.settledSet = s.settledSet := by
  ext v
  rw [mem_settledSet, mem_settledSet, h]

theorem settledSet_walk : (walk p limit u l s e).settledSet = s.settledSet :=
  settledSet_congr fun v => isSettled_walk s u v l e

theorem card_settledSet_mark (h : s.nearest? = some (u, l)) :
    (s.setLabel u { l with settled := true }).settledSet.card = s.settledSet.card + 1 := by
  have hinsert : (s.setLabel u { l with settled := true }).settledSet = insert u s.settledSet := by
    ext v
    rw [mem_settledSet, isSettled_setLabel, Finset.mem_insert, mem_settledSet]
    split_ifs with hv <;> simp [hv]
  rw [hinsert, Finset.card_insert_of_notMem (notMem_settledSet (nearest_of_nearest? h).unsettled)]

theorem best?_mark (h : s.nearest? = some (u, l)) (v : Fin n) :
    (s.setLabel u { l with settled := true }).best? v = s.best? v := by
  rw [best?_setLabel]
  split_ifs with hv
  · rw [hv, (nearest_of_nearest? h).best?]
  · rfl

theorem labelled_start (hP : Counts p edges P) : Labelled P (start p i) := by
  intro v a ha
  rw [best?_start] at ha
  split_ifs at ha
  rw [← Option.some.inj ha]
  exact hP.mono (Nat.zero_le _) hP.start

theorem Labelled.mark (hP : Counts p edges P) (hs : Labelled P s) (h : s.nearest? = some (u, l)) :
    Labelled P (s.setLabel u { l with settled := true }) := by
  intro v a ha
  rw [best?_mark h] at ha
  refine hP.mono ?_ (hs v a ha)
  simp only [edgeBound, card_settledSet_mark h]
  omega

theorem Labelled.offer (hP : Counts p edges P) (hs : Labelled P s) {v : Fin n}
    (hv : s.isSettled v = false) {d : Nat} (hnew : P s.edgeBound (d, x)) :
    Labelled P (s.offer p v d x) := by
  intro w a ha
  rw [edgeBound, settledSet_congr fun w => isSettled_offer hv w d x]
  rw [best?_offer] at ha
  split_ifs at ha with hw
  · cases hold : s.best? v with
    | none =>
      rw [hold, Option.merge_none_left] at ha
      rwa [← Option.some.inj ha]
    | some b =>
      rw [hold, Option.merge_some_some] at ha
      rw [← Option.some.inj ha]
      rcases Nat.lt_trichotomy b.1 d with hlt | heq | hgt
      · rw [p.join_of_lt b (d, x) hlt]
        exact hs v b hold
      · rw [p.join_of_eq b (d, x) heq]
        exact hP.merge _ b.1 b.2 x (s.edgeBound_lt v) (hs v b hold) (heq ▸ hnew)
      · rw [p.join_of_gt b (d, x) hgt]
        exact hnew
  · exact hs w a ha

theorem Labelled.walk (hP : Counts p edges P) (hs : Labelled P s) {k : Nat}
    (hk : s.settledSet.card = k + 1) (hl : P k (l.distance, l.state)) (he : e ∈ edges.get u) :
    Labelled P (walk p limit u l s e) := by
  unfold Search.walk
  split
  · exact hs
  · next hopen =>
    simp only [Bool.or_eq_true, decide_eq_true_eq, not_or, Bool.not_eq_true] at hopen
    split
    · exact hs
    · next x hext =>
      have hcard := card_settledSet_lt hopen.2
      refine hs.offer hP hopen.2 ?_
      rw [edgeBound_of_unsettled hopen.2, hk]
      exact hP.extend k _ u e x (by omega) hl he hext

theorem Labelled.walks (limit : Nat) (hP : Counts p edges P) (hs : Labelled P s) {k : Nat}
    (hk : s.settledSet.card = k + 1) (hl : P k (l.distance, l.state))
    {es : List (Fin n × Level)} (hes : ∀ e ∈ es, e ∈ edges.get u) :
    Labelled P (es.foldl (Search.walk p limit u l) s) ∧
      (es.foldl (Search.walk p limit u l) s).settledSet.card = k + 1 := by
  induction es generalizing s with
  | nil => exact ⟨hs, hk⟩
  | cons e es ih =>
    obtain ⟨he, hrest⟩ := List.forall_mem_cons.1 hes
    have hstep : Labelled P (Search.walk p limit u l s e) := hs.walk hP hk hl he
    exact ih hstep (by rw [settledSet_walk, hk]) hrest

theorem Labelled.nearest (hs : Labelled P s) (h : s.nearest? = some (u, l)) :
    P s.settledSet.card (l.distance, l.state) := by
  have near := nearest_of_nearest? h
  rw [← edgeBound_of_unsettled near.unsettled]
  exact hs u _ near.best?

theorem Labelled.settle (hP : Counts p edges P) (hs : Labelled P s) :
    Labelled P (s.settle p limit edges) := by
  cases hnear : s.nearest? with
  | none => rwa [settle_of_nearest?_none hnear]
  | some c =>
    obtain ⟨u, l⟩ := c
    rw [settle_eq hnear]
    refine ((hs.mark hP hnear).walks limit hP (card_settledSet_mark hnear) (hs.nearest hnear) ?_).1
    intro e he
    exact List.mem_reverse.1 he

theorem labelled_rounds (hP : Counts p edges P) (k : Nat) :
    Labelled P (rounds p limit edges k (start p i)) :=
  rounds_induction (fun _ hs => hs.settle hP) k (labelled_start hP)

theorem run_counted (hP : Counts p edges P) {v : Fin n} {a : Nat × σ}
    (ha : (run p limit edges i).best? v = some a) : ∃ k < n, P k a :=
  ⟨_, edgeBound_lt _ i, labelled_rounds hP n v a ha⟩

/-- At each moment fewer edges than nodes are behind the label of the node whose edges are
walked, and behind all others. -/
theorem Visits.counted (hP : Counts p edges P) (h : Visits p limit edges i u l s e) :
    Labelled P s ∧ ∃ k < n, s.settledSet.card = k + 1 ∧ P k (l.distance, l.state) := by
  obtain ⟨k, before, after, hnear, hsplit, rfl⟩ := h
  have hrounds : Labelled P (rounds p limit edges k (start p i)) := labelled_rounds hP k
  have hbefore : ∀ e ∈ before, e ∈ edges.get u := by
    intro e he
    rw [← List.mem_reverse, hsplit]
    exact List.mem_append_left _ he
  have hlabel := hrounds.nearest hnear
  obtain ⟨hlabelled, hcard⟩ :=
    (hrounds.mark hP hnear).walks limit hP (card_settledSet_mark hnear) hlabel hbefore
  exact ⟨hlabelled, _, card_settledSet_lt (nearest_of_nearest? hnear).unsettled, hcard, hlabel⟩

end Counting

end Search

end LinkClosure
