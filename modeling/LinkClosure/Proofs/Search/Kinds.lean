import LinkClosure.Proofs.Search.Labels
import LinkClosure.Proofs.Search.Limits
import LinkClosure.Proofs.Search.Visits

/-!
# What a length tells

A path has the kind of its weakest edge, and with at most 1024 nodes its length
in the high pass lies between the weight of that kind and 1024 times as much.
All alternatives of one length are of one kind therefore, and merging them does
not change it. This is so at every moment of a run and under any limit.

The low pass refuses nothing. It reaches whatever the high pass reaches, as long
as it may walk the same edges.
-/

set_option autoImplicit false

namespace LinkClosure

theorem Weight.high_pos (l : Level) : 0 < Weight.high l := Pass.high_lawful.weight_pos l

theorem Causes.extend_accepts (c : Causes) (e : Level) : ∃ z, c.extend e = some z := by
  cases e with
  | delayed d => exact ⟨c.merge d, rfl⟩
  | _ => exact ⟨c, rfl⟩

namespace Level

theorem throughHidden_some {m n : Linkage} {l : Level} (h : extend.throughHidden m n = some l) :
    ∃ k, l = .commonHidden k := by
  obtain ⟨k, _, rfl⟩ := Option.map_eq_some_iff.1 h
  exact ⟨k, rfl⟩

theorem high_extend {l e m : Level} (hl : l ≠ .independent) (he : e ≠ .independent)
    (h : l.extend e = some m) :
    m ≠ .independent ∧ Weight.high l ≤ Weight.high m ∧ Weight.high e ≤ Weight.high m ∧
      (Weight.high m = Weight.high l ∨ Weight.high m = Weight.high e) := by
  cases l <;> cases e <;> simp only [extend, ne_eq, not_true_eq_false] at h hl he
  case dependent.dependent =>
    obtain ⟨k, _, rfl⟩ := Option.map_eq_some_iff.1 h
    simp [Weight.high]
  case dependent.commonHidden =>
    obtain ⟨k, rfl⟩ := throughHidden_some h
    simp [Weight.high, Weight.highDependent, Weight.highCommonHidden]
  case commonHidden.dependent =>
    obtain ⟨k, rfl⟩ := throughHidden_some h
    simp [Weight.high, Weight.highDependent, Weight.highCommonHidden]
  case commonHidden.commonHidden =>
    obtain ⟨k, rfl⟩ := throughHidden_some h
    simp [Weight.high]
  all_goals
    obtain rfl := Option.some.inj h
    simp [Weight.high, Weight.highStaticallyAssigned, Weight.highAssigned, Weight.highDependent,
      Weight.highCommonHidden, Weight.highDelayed]

theorem isDelayed_iff_high {l : Level} :
    l.isDelayed = true ↔ Weight.high l = Weight.highDelayed := by
  cases l <;> simp [isDelayed, Weight.high, Weight.highStaticallyAssigned, Weight.highAssigned,
    Weight.highDependent, Weight.highCommonHidden, Weight.highDelayed, Distance.top]

theorem high_min {a b : Level} (h : Weight.high a = Weight.high b) :
    Weight.high (a.min b) = Weight.high a := by
  cases a <;> cases b <;> simp_all [Level.min, Weight.high, rank]

variable {k d : Nat} {a b e l m : Level}

/-- Ways of at most `k` edges may have this length and be of this kind. Only static
assignments may do without an edge of their kind, on the way that has none at all. -/
structure Spans (l : Level) (k d : Nat) : Prop where
  proper : l ≠ .independent
  least : 1 < Weight.high l → Weight.high l ≤ d
  most : d ≤ k * Weight.high l

theorem spans_start : staticallyAssigned.Spans 0 0 :=
  ⟨Level.noConfusion, fun h => absurd h (Nat.lt_irrefl 1), Nat.zero_le _⟩

theorem Spans.widen (h : l.Spans k d) : l.Spans (k + 1) d :=
  ⟨h.proper, h.least, Nat.le_trans h.most (Nat.mul_le_mul_right _ (Nat.le_succ k))⟩

theorem Spans.extend (h : l.Spans k d) (he : e ≠ .independent) (hext : l.extend e = some m) :
    m.Spans (k + 1) (d + Weight.high e) := by
  obtain ⟨hm, hlm, hem, hcases⟩ := high_extend h.proper he hext
  have hpos := Weight.high_pos e
  refine ⟨hm, ?_, ?_⟩
  · have := h.least
    omega
  · calc d + Weight.high e
        ≤ k * Weight.high l + Weight.high e := Nat.add_le_add_right h.most _
      _ ≤ k * Weight.high m + Weight.high m := Nat.add_le_add (Nat.mul_le_mul_left k hlm) hem
      _ = (k + 1) * Weight.high m := (Nat.succ_mul k _).symm

theorem Spans.lt (h : l.Spans k d) (hk : k < 1024) : d < 1024 * Weight.high l := by
  have hpos := Weight.high_pos l
  have hmost : d ≤ 1023 * Weight.high l :=
    Nat.le_trans h.most (Nat.mul_le_mul_right _ (Nat.le_of_lt_succ hk))
  omega

theorem Spans.high_le (ha : a.Spans k d) (hb : b.Spans k d) (hk : k < 1024) :
    Weight.high a ≤ Weight.high b := by
  apply Pass.high_graded.gap b a hb.proper ha.proper
  have hpos := Weight.high_pos b
  have hleast := ha.least
  have hlt := hb.lt hk
  show Weight.high a < 1024 * Weight.high b
  omega

/-- With fewer than 1024 edges, the length leaves one weight only. -/
theorem Spans.high_eq (ha : a.Spans k d) (hb : b.Spans k d) (hk : k < 1024) :
    Weight.high a = Weight.high b :=
  Nat.le_antisymm (ha.high_le hb hk) (hb.high_le ha hk)

theorem Spans.min (ha : a.Spans k d) (hb : b.Spans k d) (hk : k < 1024) : (a.min b).Spans k d := by
  have hmin : Weight.high (a.min b) = Weight.high a := high_min (ha.high_eq hb hk)
  constructor
  · intro hind
    have hle := Weight.high_le ha.proper
    rw [hind] at hmin
    simp only [Weight.high, Distance.top, Weight.highDelayed] at hmin hle
    omega
  · rw [hmin]
    exact ha.least
  · rw [hmin]
    exact ha.most

theorem Spans.add_le_top (h : l.Spans k d) (hk : k < 1024) (he : e ≠ .independent) :
    d + Weight.high e ≤ Distance.top := by
  have hl := Weight.high_le h.proper
  have hle := Weight.high_le he
  have hlt := h.lt hk
  simp only [Weight.highDelayed, Distance.top] at *
  omega

end Level

namespace Search

variable {n : Nat} {edges : Adjacency n} {i : Fin n}

theorem counts_high (hn : n ≤ 1024) (hedges : edges.Proper) :
    Counts .high edges fun k a => a.2.Spans k a.1 where
  start := Level.spans_start
  widen _ _ h := h.widen
  extend k a u e x hk h he hext := by
    have hproper := hedges u e he
    have hexact : Distance.add a.1 (Weight.high e.2) = a.1 + Weight.high e.2 :=
      Nat.min_eq_left (h.add_le_top (by omega) hproper)
    show x.Spans (k + 1) (Distance.add a.1 (Weight.high e.2))
    rw [hexact]
    exact h.extend hproper hext
  merge k d x y hk hx hy := hx.min hy (by omega)

/-- A length is that of a path of this kind. -/
structure Telling (d : Nat) (l : Level) : Prop where
  proper : l ≠ .independent
  le : Weight.high l ≤ d
  lt : d < 1024 * Weight.high l

theorem run_high_telling (hn : n ≤ 1024) (hedges : edges.Proper) {limit : Nat} {v : Fin n}
    {a : Nat × Level} (ha : (run .high limit edges i).best? v = some a) (hv : v ≠ i) :
    Telling a.1 a.2 := by
  obtain ⟨k, hk, hspans⟩ := run_counted (counts_high hn hedges) ha
  refine ⟨hspans.proper, ?_, hspans.lt (by omega)⟩
  have hpos := run_pos Pass.high_lawful hv ha
  have hleast := hspans.least
  omega

theorem low_reaches (hedges : edges.Proper) {limit limit' : Nat}
    (hwalk : ∀ l : Level, l ≠ .independent → Weight.high l ≤ limit → Weight.low l ≤ limit')
    {v : Fin n} {a : Nat × Level} (ha : (run .high limit edges i).best? v = some a) :
    ∃ b, (run .low limit' edges i).best? v = some b := by
  apply run_labels (P := fun v _ => ∃ b, (run .low limit' edges i).best? v = some b)
    Pass.high_lawful ⟨_, run_start Pass.low_lawful⟩ _ _ ha
  · intro u c w e x _ hu _ he hlimit _
    obtain ⟨b, hb⟩ := hu
    obtain ⟨z, hz⟩ := Causes.extend_accepts b.2 e
    obtain ⟨b', hb', _⟩ := run_relaxed Pass.low_lawful hb he
      (hwalk e (hedges u (w, e) he) hlimit) hz
    exact ⟨b', hb'⟩
  · intro w d x y hx _
    exact hx

end Search

end LinkClosure
