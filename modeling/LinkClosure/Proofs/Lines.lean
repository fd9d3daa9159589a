import LinkClosure.Proofs.Siblings

/-!
# Rows along a line

In a line of variables, each is linked to the next one and to nothing else. There
are ways forth and back, but going back only makes a way longer. So the row of
the first variable follows the line: a variable has the level that extending by
the links up to it comes to, and where that is refused the row ends.
-/

set_option autoImplicit false

namespace LinkClosure

namespace Level

def alongLine? (s : Nat → Level) : Nat → Option Level
  | 0 => some .staticallyAssigned
  | k + 1 => (alongLine? s k).bind fun l => l.extend (s k)

theorem alongLine?_one {s : Nat → Level} (h : s 0 ≠ .independent) : alongLine? s 1 = some (s 0) :=
  static_extend_eq_some.2 ⟨h, rfl⟩

theorem alongLine?_two {s : Nat → Level} (h : s 0 ≠ .independent) :
    alongLine? s 2 = (s 0).extend (s 1) := by
  rw [alongLine?, alongLine?_one h, Option.bind_some]

end Level

namespace Graph

/-- The variables up to `n` are linked each to the next one, with the way back, and no other
edges are stored. The first one may be a return value, which no way leads back to. -/
structure Line (g : Graph) (n : Nat) (v : Nat → Variable) (s : Nat → Level) : Prop where
  distinct : ∀ i ≤ n, ∀ j ≤ n, v i = v j → i = j
  linked : ∀ k < n, ∃ m, (s k).linkage? = some m
  not_return : ∀ k < n, (v (k + 1)).isReturnValue = false
  stored : ∀ a b l, g.level? a b = some l ↔
    ∃ k < n, a = v k ∧ b = v (k + 1) ∧ l = s k ∨
      (v k).isReturnValue = false ∧ a = v (k + 1) ∧ b = v k ∧ l = (s k).reverse

variable {g : Graph} {n : Nat} {v : Nat → Variable} {s : Nat → Level}

theorem Line.linkagesOnly (h : g.Line n v s) : g.LinkagesOnly := by
  intro a b l hl
  obtain ⟨k, hk, ⟨_, _, rfl⟩ | ⟨_, _, _, rfl⟩⟩ := (h.stored a b l).1 hl
  · exact h.linked k hk
  · obtain ⟨m, hm⟩ := h.linked k hk
    exact ⟨m.reverse, Level.linkage?_reverse_of hm⟩

theorem Line.not_return_of_first (h : g.Line n v s) (h0 : (v 0).isReturnValue = false) {i : Nat}
    (hi : i ≤ n) : (v i).isReturnValue = false := by
  cases i with
  | zero => exact h0
  | succ i => exact h.not_return i hi

theorem Line.turned (h : g.Line n v s) (h0 : (v 0).isReturnValue = false)
    (hs : ∀ k < n, (s k).Concordant (s k)) :
    g.Line n (fun i => v (n - i)) (fun k => (s (n - 1 - k)).reverse) where
  distinct i hi j hj hv := by
    have := h.distinct (n - i) (by omega) (n - j) (by omega) hv
    omega
  linked k hk := by
    obtain ⟨m, hm⟩ := h.linked (n - 1 - k) (by omega)
    exact ⟨m.reverse, Level.linkage?_reverse_of hm⟩
  not_return k _ := h.not_return_of_first h0 (Nat.sub_le n (k + 1))
  stored a b l := by
    rw [h.stored]
    constructor
    · rintro ⟨k, hk, hl⟩
      refine ⟨n - 1 - k, by omega, ?_⟩
      have hk' : n - 1 - (n - 1 - k) = k := by omega
      have hnear : n - (n - 1 - k) = k + 1 := by omega
      have hfar : n - (n - 1 - k + 1) = k := by omega
      rw [hk', hnear, hfar, Level.reverse_reverse (hs k hk)]
      exact hl.symm.imp And.right (And.intro (h.not_return k hk))
    · rintro ⟨k, hk, hl⟩
      refine ⟨n - 1 - k, by omega, ?_⟩
      have hnear : n - 1 - k + 1 = n - k := by omega
      have hfar : n - 1 - k = n - (k + 1) := by omega
      rw [Level.reverse_reverse (hs (n - 1 - k) (by omega))] at hl
      rw [hnear, hfar]
      rw [hfar] at hl
      exact hl.symm.imp And.right
        (And.intro (h.not_return_of_first h0 (Nat.sub_le n (k + 1))))

def lineAdditions (n : Nat) (v : Nat → Variable) (s : Nat → Level) :
    List (Variable × List (Variable × Level)) :=
  (List.range n).map fun k => (v k, [(v (k + 1), s k)])

/-- The additions give the edges of a line, in whatever order and however often. -/
def GivesLine (as : List (Variable × List (Variable × Level))) (n : Nat) (v : Nat → Variable)
    (s : Nat → Level) : Prop :=
  ∀ i, i ∈ Insertion.ofAdditions as ↔ ∃ k < n, i = ⟨v k, v (k + 1), s k⟩

theorem givesLine_lineAdditions (n : Nat) (v : Nat → Variable) (s : Nat → Level) :
    GivesLine (lineAdditions n v s) n v s := by
  intro i
  simp [Insertion.ofAdditions, Insertion.ofNode, lineAdditions, eq_comm]

section Building

variable {as : List (Variable × List (Variable × Level))} (has : GivesLine as n v s)
  (hdistinct : ∀ i ≤ n, ∀ j ≤ n, v i = v j → i = j)
  (hreturn : ∀ k < n, (v (k + 1)).isReturnValue = false)
  (hlinked : ∀ k < n, ∃ m, (s k).linkage? = some m) (hs : ∀ k < n, (s k).Concordant (s k))

include has hreturn hlinked in
theorem GivesLine.succeeds : ∃ g, ofAdditions as = .ok g := by
  apply additions_succeed rfl
  intro i hi
  obtain ⟨k, hk, rfl⟩ := (has i).1 hi
  exact ⟨Level.ne_independent (hlinked k hk), hreturn k hk⟩

include has hdistinct hs in
theorem GivesLine.agreeing : Insertion.Agreeing (Insertion.ofAdditions as) := by
  intro i hi j hj
  obtain ⟨k, hk, rfl⟩ := (has i).1 hi
  obtain ⟨k', hk', rfl⟩ := (has j).1 hj
  constructor
  · intro hsource _
    obtain rfl := hdistinct k (by omega) k' (by omega) hsource
    exact hs k hk
  · intro hsource htarget
    have := hdistinct k (by omega) (k' + 1) hk' hsource
    have := hdistinct (k + 1) hk k' (by omega) htarget
    omega

include has hdistinct hreturn hlinked hs in
theorem GivesLine.line (hg : ofAdditions as = .ok g) : g.Line n v s where
  distinct := hdistinct
  linked := hlinked
  not_return := hreturn
  stored a b l := by
    have hdemands : ∀ l, l ∈ Insertion.demands (Insertion.ofAdditions as) a b ↔
        ∃ k < n, a = v k ∧ b = v (k + 1) ∧ l = s k ∨
          (v k).isReturnValue = false ∧ a = v (k + 1) ∧ b = v k ∧ l = (s k).reverse := by
      intro l
      rw [Insertion.mem_demands]
      constructor
      · rintro ⟨i, hi, hl⟩
        obtain ⟨k, hk, rfl⟩ := (has i).1 hi
        exact ⟨k, hk, hl⟩
      · rintro ⟨k, hk, hl⟩
        exact ⟨_, (has _).2 ⟨k, hk, rfl⟩, hl⟩
    rw [meets_empty.additions (has.agreeing hdistinct hs) hg, List.nil_append,
      Level.minAll_eq_some, hdemands]
    intro x hx y hy
    obtain ⟨k, hk, hkx⟩ := (hdemands x).1 hx
    obtain ⟨j, hj, hjy⟩ := (hdemands y).1 hy
    rcases hkx with ⟨rfl, rfl, rfl⟩ | ⟨_, rfl, rfl, rfl⟩
    · rcases hjy with ⟨hsource, _, rfl⟩ | ⟨_, hsource, htarget, _⟩
      · rw [hdistinct k (by omega) j (by omega) hsource]
      · have := hdistinct k (by omega) (j + 1) hj hsource
        have := hdistinct (k + 1) hk j (by omega) htarget
        omega
    · rcases hjy with ⟨hsource, htarget, _⟩ | ⟨_, hsource, _, rfl⟩
      · have := hdistinct (k + 1) hk j (by omega) hsource
        have := hdistinct k (by omega) (j + 1) hj htarget
        omega
      · have := hdistinct (k + 1) hk (j + 1) hj hsource
        rw [Nat.add_right_cancel this]

include hreturn hlinked in
theorem exists_line : ∃ g, ofAdditions (lineAdditions n v s) = .ok g :=
  (givesLine_lineAdditions n v s).succeeds hreturn hlinked

include hdistinct hreturn hlinked hs in
theorem line_of_additions (hg : ofAdditions (lineAdditions n v s) = .ok g) : g.Line n v s :=
  (givesLine_lineAdditions n v s).line hdistinct hreturn hlinked hs hg

end Building

end Graph

namespace Frame

variable {g : Graph} {n : Nat} {v : Nat → Variable} {s : Nat → Level}
  {i j : Fin (ofGraph g).nodes.size} {k : Nat}

def straightLength (s : Nat → Level) : Nat → Nat
  | 0 => 0
  | k + 1 => straightLength s k + Weight.high (s k)

theorem straightLength_le (s : Nat → Level) (h : k ≤ n) :
    straightLength s k ≤ straightLength s n := by
  induction h with
  | refl => exact Nat.le_refl _
  | step _ ih => exact Nat.le_trans ih (Nat.le_add_right _ _)

theorem weight_reverse (l : Level) : Weight.high l.reverse = Weight.high l := by cases l <;> rfl

theorem straightLength_step {d : Nat} (hn : straightLength s n < Distance.top) (hk : k < n)
    (hle : straightLength s k ≤ d) :
    straightLength s (k + 1) ≤ Distance.add d (Weight.high (s k)) ∧
      (Distance.add d (Weight.high (s k)) = straightLength s (k + 1) → d = straightLength s k) := by
  have hadd : Distance.add d (Weight.high (s k)) = min (d + Weight.high (s k)) Distance.top := rfl
  have hnext : straightLength s k + Weight.high (s k) ≤ straightLength s n := straightLength_le s hk
  rw [hadd, straightLength]
  omega

theorem straightLength_back {d : Nat} (hn : straightLength s n < Distance.top) (hk : k < n)
    (hle : straightLength s (k + 1) ≤ d) :
    straightLength s k < Distance.add d (Weight.high (s k).reverse) := by
  have hpos : 0 < Weight.high (s k) := Weight.high_pos (s k)
  have hshort : straightLength s k ≤ straightLength s n := straightLength_le s (Nat.le_of_lt hk)
  rw [straightLength] at hle
  rw [weight_reverse]
  exact Nat.lt_min.2 ⟨by omega, by omega⟩

/-- No way to the variable at `k` is shorter than the straight one, and a way of that length
has the level that is composed along the line. -/
def Straight (g : Graph) (n : Nat) (v : Nat → Variable) (s : Nat → Level)
    (j : Fin (ofGraph g).nodes.size) (a : Nat × Level) : Prop :=
  ∃ k ≤ n, (ofGraph g).node j = v k ∧ straightLength s k ≤ a.1 ∧
    (a.1 = straightLength s k → Level.alongLine? s k = some a.2)

section

variable (hg : g.WellFormed) (h : g.Line n v s) (hn : straightLength s n < Distance.top)
  (hi : (ofGraph g).node i = v 0)

include h hn hi

theorem straight_of_high {a : Nat × Level}
    (ha : ((ofGraph g).edges.highSearch i none).best? j = some a) : Straight g n v s j a := by
  apply Search.run_labels (P := Straight g n v s) Pass.high_lawful _ _ _ ha
  · exact ⟨0, Nat.zero_le n, hi, by simp [straightLength], fun _ => rfl⟩
  · rintro u ⟨d, l⟩ w e x _ ⟨k, hk, hu, hle, heq⟩ _ he _ hext
    have hstored := mem_edges_ofGraph.1 he
    rw [hu, h.stored] at hstored
    obtain ⟨k', hk', ⟨hv, hw, rfl⟩ | ⟨_, hv, hw, rfl⟩⟩ := hstored
    · obtain rfl := h.distinct k hk k' (by omega) hv
      obtain ⟨hfar, hshort⟩ := straightLength_step hn hk' hle
      refine ⟨k + 1, hk', hw, hfar, fun hlength => ?_⟩
      rw [Level.alongLine?, heq (hshort hlength), Option.bind_some]
      exact hext
    · obtain rfl := h.distinct k hk (k' + 1) hk' hv
      have hfar := straightLength_back hn hk' hle
      exact ⟨k', by omega, hw, Nat.le_of_lt hfar, fun hlength => absurd hlength (Nat.ne_of_gt hfar)⟩
  · rintro w d x y ⟨k, hk, hw, hle, hx⟩ ⟨k', hk', hw', _, hy⟩
    obtain rfl := h.distinct k hk k' hk' (hw.symm.trans hw')
    refine ⟨k, hk, hw, hle, fun hlength => ?_⟩
    obtain rfl : x = y := Option.some.inj ((hx hlength).symm.trans (hy hlength))
    have hself : Pass.high.merge x x = x := Level.min_self x
    rw [hself]
    exact hx hlength

include hg

theorem best?_of_alongLine (hk : k ≤ n) (hj : (ofGraph g).node j = v k) {l : Level}
    (hl : Level.alongLine? s k = some l) :
    ((ofGraph g).edges.highSearch i none).best? j = some (straightLength s k, l) := by
  induction k generalizing j l with
  | zero =>
    obtain rfl : j = i := node_inj (distinct_ofGraph g) (hj.trans hi.symm)
    rw [← Option.some.inj hl, straightLength]
    exact Search.run_start Pass.high_lawful
  | succ k ih =>
    obtain ⟨x, hx, hext⟩ := Option.bind_eq_some_iff.1 hl
    have hstored : g.level? (v k) (v (k + 1)) = some (s k) :=
      (h.stored _ _ _).2 ⟨k, hk, .inl ⟨rfl, rfl, rfl⟩⟩
    obtain ⟨u, hu⟩ := exists_node (hg.contains_source _ _ _ hstored)
    have hedge : (j, s k) ∈ (ofGraph g).edges.get u := by
      rw [mem_edges_ofGraph, hu, hj]
      exact hstored
    obtain ⟨⟨d, y⟩, hb, hle⟩ := Search.run_relaxed Pass.high_lawful (ih (by omega) hu hx) hedge
      (Weight.high_le_top (s k)) hext
    obtain ⟨k', hk', hv, hfar, heq⟩ := straight_of_high h hn hi hb
    obtain rfl := h.distinct (k + 1) hk k' hk' (hj.symm.trans hv)
    have hd : d = straightLength s (k + 1) := Nat.le_antisymm hle hfar
    rw [hd] at hb heq
    rw [hl] at heq
    rw [Option.some.inj (heq rfl)]
    exact hb

theorem isSome_of_high {a : Nat × Level}
    (ha : ((ofGraph g).edges.highSearch i none).best? j = some a) :
    ∃ k ≤ n, (ofGraph g).node j = v k ∧ (Level.alongLine? s k).isSome := by
  apply Search.run_labels (P := fun j _ => ∃ k ≤ n, (ofGraph g).node j = v k ∧
    (Level.alongLine? s k).isSome) Pass.high_lawful _ _ _ ha
  · exact ⟨0, Nat.zero_le n, hi, rfl⟩
  · rintro u ⟨d, l⟩ w e x hb ⟨k, hk, hu, hsome⟩ _ he _ hext
    have hstored := mem_edges_ofGraph.1 he
    rw [hu, h.stored] at hstored
    obtain ⟨k', hk', ⟨hv, hw, rfl⟩ | ⟨_, hv, hw, rfl⟩⟩ := hstored
    · obtain rfl := h.distinct k hk k' (by omega) hv
      obtain ⟨y, hy⟩ := Option.isSome_iff_exists.1 hsome
      have hkept := best?_of_alongLine hg h hn hi hk hu hy
      rw [Adjacency.highSearch] at hkept
      rw [hkept, Option.some.injEq, Prod.mk.injEq] at hb
      obtain ⟨_, rfl⟩ := hb
      refine ⟨k + 1, hk', hw, Option.isSome_iff_exists.2 ⟨x, ?_⟩⟩
      rw [Level.alongLine?, hy, Option.bind_some]
      exact hext
    · obtain rfl := h.distinct k hk (k' + 1) hk' hv
      obtain ⟨y, hy⟩ := Option.isSome_iff_exists.1 hsome
      obtain ⟨z, hz, _⟩ := Option.bind_eq_some_iff.1 hy
      exact ⟨k', by omega, hw, Option.isSome_iff_exists.2 ⟨z, hz⟩⟩
  · intro w d x y hx _
    exact hx

/-- The high pass reaches a variable of the line if and only if the straight way has a level
there, and then with that level. -/
theorem best?_line (hk : k ≤ n) (hj : (ofGraph g).node j = v k) {l : Level} :
    (∃ d, ((ofGraph g).edges.highSearch i none).best? j = some (d, l)) ↔
      Level.alongLine? s k = some l := by
  constructor
  · rintro ⟨d, hd⟩
    obtain ⟨k', hk', hv, hsome⟩ := isSome_of_high hg h hn hi hd
    obtain rfl := h.distinct k hk k' hk' (hj.symm.trans hv)
    obtain ⟨x, hx⟩ := Option.isSome_iff_exists.1 hsome
    rw [best?_of_alongLine hg h hn hi hk hj hx, Option.some.injEq, Prod.mk.injEq] at hd
    rw [hx, hd.2]
  · intro hl
    exact ⟨_, best?_of_alongLine hg h hn hi hk hj hl⟩

end

theorem links_line (hg : g.WellFormed) (h : g.Line n v s) (hn : straightLength s n < Distance.top)
    (h0 : g.contains (v 0) = true) :
    ∃ row, (ofGraph g).links (v 0) none = .ok row ∧
      ∀ k ≤ n, row.get? (v k) = Level.alongLine? s k := by
  obtain ⟨i, row, hi, hrow, hentry, hinside⟩ := exists_row h0 none
  refine ⟨row, hrow, ?_⟩
  intro k hk
  have hcontains : g.contains (v k) = true := by
    cases k with
    | zero => exact h0
    | succ k =>
      exact hg.contains_target _ _ _ ((h.stored _ _ _).2 ⟨k, hk, .inl ⟨rfl, rfl, rfl⟩⟩)
  obtain ⟨j, hj⟩ := exists_node hcontains
  rw [← hj, hentry]
  cases k with
  | zero =>
    obtain rfl : j = i := node_inj (distinct_ofGraph g) (hj.trans hi.symm)
    exact if_pos rfl
  | succ k =>
    have hji : j ≠ i := by
      rintro rfl
      have := h.distinct (k + 1) hk 0 (Nat.zero_le n) (hj.symm.trans hi)
      omega
    apply Option.ext
    intro l
    rw [levelAt?_of_high hg h.linkagesOnly.undelayed hji (h.linkagesOnly.not_far _ _)]
    exact best?_line hg h hn hi hk hj

end Frame

end LinkClosure
