import LinkClosure.Proofs.Search.Bellman

/-!
# Searches with a limit

A limit on the weights does not filter the labels of a finished run, it removes
edges from the search. Still the labels below some length are the same under
any two limits that leave the same edges below that length, since the equation
of a label speaks of shorter labels only.

The weights of a pass lie far apart: with at most 1024 nodes, a path over edges
of some weight and below is shorter than any heavier edge. So a limited run has
exactly the labels of the full run that are short enough.
-/

set_option autoImplicit false

namespace LinkClosure

namespace Pass

variable {σ : Type} {n : Nat} {p : Pass σ}

theorem joinAll_filter_le {as : List (Nat × σ)} {d : Nat} {x : σ} :
    p.joinAll (as.filter fun a => a.1 ≤ d) = some (d, x) ↔ p.joinAll as = some (d, x) := by
  have htied : tied d (as.filter fun a => a.1 ≤ d) = tied d as := by
    rw [tied, tied, List.filter_filter]
    congr 2
    funext a
    by_cases h : a.1 = d <;> simp [h]
  rw [joinAll_eq_some_iff, joinAll_eq_some_iff, htied]
  refine and_congr_left fun _ => ⟨fun h a ha => ?_, fun h a ha => h a (List.mem_filter.1 ha).1⟩
  by_cases had : a.1 ≤ d
  · exact h a (List.mem_filter.2 ⟨ha, by simpa using had⟩)
  · omega

theorem filter_offers_eq_nil (hp : p.Lawful) {limit d : Nat} {label : Option (Nat × σ)}
    (hfar : ∀ b, label = some b → d ≤ b.1) (es : List (Fin n × Level)) (v : Fin n) :
    (label.elim [] fun b =>
      (p.offers limit es v (b.1 + ·) b.2).filter fun a => a.1 ≤ d) = [] := by
  cases hlabel : label with
  | none => rfl
  | some b =>
    refine List.filter_eq_nil_iff.2 fun a ha => ?_
    obtain ⟨l, _, _, _, hlen⟩ := mem_offers.1 ha
    have := hp.weight_pos l
    have := hfar b hlabel
    simp only [decide_eq_true_eq]
    omega

theorem filter_offers_congr {limit limit' d k : Nat} {es : List (Fin n × Level)}
    (h : ∀ e ∈ es, p.weight e.2 ≤ d → (p.weight e.2 ≤ limit ↔ p.weight e.2 ≤ limit'))
    (v : Fin n) (x : σ) :
    (p.offers limit es v (k + ·) x).filter (fun a => a.1 ≤ d) =
      (p.offers limit' es v (k + ·) x).filter (fun a => a.1 ≤ d) := by
  rw [offers, offers, List.filter_filterMap, List.filter_filterMap]
  refine List.filterMap_congr fun e he => ?_
  by_cases hd : p.weight e.2 ≤ d
  · simp only [h e he hd]
  · have hlong : ¬ k + p.weight e.2 ≤ d := by omega
    split_ifs <;> cases p.extend x e.2 <;> simp [Option.filter, hlong]

theorem filter_arrivals (limit d : Nat) (edges : Adjacency n) (best : Fin n → Option (Nat × σ))
    (v : Fin n) :
    (p.arrivals limit edges best v).filter (fun a => a.1 ≤ d) =
      (List.finRange n).flatMap fun u => (best u).elim [] fun b =>
        (p.offers limit (edges.get u) v (b.1 + ·) b.2).filter (fun a => a.1 ≤ d) := by
  rw [arrivals, List.filter_flatMap]
  refine List.flatMap_congr fun u _ => ?_
  cases best u <;> rfl

structure Balances (p : Pass σ) (limit : Nat) (edges : Adjacency n) (i : Fin n)
    (best : Fin n → Option (Nat × σ)) : Prop where
  origin : best i = some (0, p.initial)
  equation : ∀ v, v ≠ i → best v = p.joinAll (p.arrivals limit edges best v)

/-- Below a length at which two limits leave the same edges, the equation leaves no
choice. -/
theorem Balances.agree_below (hp : p.Lawful) {limit limit' top : Nat} {edges : Adjacency n}
    {i : Fin n} {best best' : Fin n → Option (Nat × σ)} (h : p.Balances limit edges i best)
    (h' : p.Balances limit' edges i best')
    (hlight : ∀ u : Fin n, ∀ e ∈ edges.get u, p.weight e.2 < top →
      (p.weight e.2 ≤ limit ↔ p.weight e.2 ≤ limit'))
    (d : Nat) (hd : d < top) (v : Fin n) (x : σ) :
    best v = some (d, x) ↔ best' v = some (d, x) := by
  induction d using Nat.strong_induction_on generalizing v x with
  | _ d ih =>
    by_cases hv : v = i
    · rw [hv, h.origin, h'.origin]
    · have hshort : (p.arrivals limit edges best v).filter (fun a => a.1 ≤ d) =
          (p.arrivals limit' edges best' v).filter (fun a => a.1 ≤ d) := by
        rw [filter_arrivals, filter_arrivals]
        refine List.flatMap_congr fun u _ => ?_
        by_cases hnear : ∃ b, best u = some b ∧ b.1 < d
        · -- A nearer node has the same label on both sides, by induction.
          obtain ⟨b, hb, hbd⟩ := hnear
          rw [hb, (ih b.1 hbd (Nat.lt_trans hbd hd) u b.2).1 hb]
          refine filter_offers_congr (fun e he hed => ?_) v b.2
          exact hlight u e he (Nat.lt_of_le_of_lt hed hd)
        · rw [filter_offers_eq_nil hp, filter_offers_eq_nil hp]
          · intro b hb
            by_contra hlt
            have hbd : b.1 < d := by omega
            exact hnear ⟨b, (ih b.1 hbd (Nat.lt_trans hbd hd) u b.2).2 hb, hbd⟩
          · intro b hb
            by_contra hlt
            exact hnear ⟨b, hb, by omega⟩
      rw [h.equation v hv, h'.equation v hv, ← joinAll_filter_le, hshort, joinAll_filter_le]

theorem Balances.unique (hp : p.Lawful) {limit : Nat} {edges : Adjacency n} {i : Fin n}
    {best best' : Fin n → Option (Nat × σ)} (h : p.Balances limit edges i best)
    (h' : p.Balances limit edges i best') : best = best' := by
  funext v
  apply Option.ext
  intro a
  exact h.agree_below hp h' (fun _ _ _ _ => Iff.rfl) a.1 (Nat.lt_succ_self a.1) v a.2

end Pass

namespace Search

variable {σ : Type} {n : Nat} {p : Pass σ} {edges : Adjacency n} {i : Fin n}

theorem run_balances (hp : p.Lawful) {limit bound : Nat} (hfit : Fits p limit edges bound) :
    p.Balances limit edges i (run p limit edges i).best? where
  origin := run_start hp
  equation _ hv := run_equation_of_ne hp hfit hv

theorem run_agree_below (hp : p.Lawful) {limit limit' bound bound' top : Nat}
    (hfit : Fits p limit edges bound) (hfit' : Fits p limit' edges bound')
    (hlight : ∀ u : Fin n, ∀ e ∈ edges.get u, p.weight e.2 < top →
      (p.weight e.2 ≤ limit ↔ p.weight e.2 ≤ limit'))
    (d : Nat) (hd : d < top) (v : Fin n) (x : σ) :
    (run p limit edges i).best? v = some (d, x) ↔ (run p limit' edges i).best? v = some (d, x) :=
  (run_balances hp hfit).agree_below hp (run_balances hp hfit') hlight d hd v x

end Search

def Adjacency.Proper {n : Nat} (edges : Adjacency n) : Prop :=
  ∀ u : Fin n, ∀ e ∈ edges.get u, e.2 ≠ .independent

/-- Weights are a factor of 1024 apart, and 1024 of them fit a word. -/
structure Pass.Graded {σ : Type} (p : Pass σ) : Prop where
  lawful : p.Lawful
  gap : ∀ a b : Level, a ≠ .independent → b ≠ .independent →
    p.weight b < 1024 * p.weight a → p.weight b ≤ p.weight a
  weight_le : ∀ l : Level, l ≠ .independent → p.weight l ≤ Weight.highDelayed

namespace Weight

theorem low_cases {l : Level} (h : l ≠ .independent) :
    low l = 1 ∨ low l = 1024 ∨ low l = 1048576 ∨ low l = 1073741824 ∨ low l = 1099511627776 := by
  cases l with
  | staticallyAssigned => exact .inl rfl
  | delayed _ => exact .inr (.inl rfl)
  | assigned => exact .inr (.inr (.inl rfl))
  | dependent _ => exact .inr (.inr (.inr (.inl rfl)))
  | commonHidden _ => exact .inr (.inr (.inr (.inr rfl)))
  | independent => contradiction

theorem high_cases {l : Level} (h : l ≠ .independent) :
    high l = 1 ∨ high l = 1024 ∨ high l = 1048576 ∨ high l = 1099511627776 ∨
      high l = 1125899906842624 := by
  cases l with
  | staticallyAssigned => exact .inl rfl
  | assigned => exact .inr (.inl rfl)
  | dependent _ => exact .inr (.inr (.inl rfl))
  | commonHidden _ => exact .inr (.inr (.inr (.inl rfl)))
  | delayed _ => exact .inr (.inr (.inr (.inr rfl)))
  | independent => contradiction

end Weight

theorem Pass.low_graded : Pass.low.Graded where
  lawful := low_lawful
  gap a b ha hb h := by
    simp only [Pass.low] at h ⊢
    have := Weight.low_cases ha
    have := Weight.low_cases hb
    omega
  weight_le _ := Weight.low_le

theorem Pass.high_graded : Pass.high.Graded where
  lawful := high_lawful
  gap a b ha hb h := by
    simp only [Pass.high] at h ⊢
    have := Weight.high_cases ha
    have := Weight.high_cases hb
    omega
  weight_le _ := Weight.high_le

namespace Search

variable {σ : Type} {n : Nat} {p : Pass σ} {edges : Adjacency n} {i : Fin n}

theorem fits_of_size (hp : p.Graded) (hn : n ≤ 2 ^ 14) (hedges : edges.Proper) (limit : Nat) :
    Fits p limit edges Weight.highDelayed where
  weight_le u e he _ := hp.weight_le e.2 (hedges u e he)
  room := Weight.room_of_size hn

theorem fits_any_limit (hp : p.Graded) (hn : n ≤ 1024) (hedges : edges.Proper) (limit : Nat) :
    Fits p limit edges Weight.highDelayed := fits_of_size hp (by omega) hedges limit

theorem fits_level_limit (hp : p.Graded) (hn : n ≤ 1024) (edges : Adjacency n) {f : Level}
    (hf : f ≠ .independent) :
    Fits p (p.weight f) edges (p.weight f) where
  weight_le _ _ _ h := h
  room := by
    have hroom := Weight.room_of_size (n := n) (by omega)
    exact Nat.le_trans (Nat.mul_le_mul_left _ (hp.weight_le f hf)) hroom

/-- A run with the weight of a level as its limit has exactly the labels of any wider
run that are shorter than 1024 times that weight. -/
theorem run_limited_iff (hp : p.Graded) (hn : n ≤ 1024) (hedges : edges.Proper) {f : Level}
    (hf : f ≠ .independent) {limit : Nat} (hlimit : p.weight f ≤ limit) {v : Fin n} {a : Nat × σ} :
    (run p (p.weight f) edges i).best? v = some a ↔
      (run p limit edges i).best? v = some a ∧ a.1 < 1024 * p.weight f := by
  have hfit := fits_level_limit hp hn edges hf
  have hlight : ∀ u : Fin n, ∀ e ∈ edges.get u, p.weight e.2 < 1024 * p.weight f →
      (p.weight e.2 ≤ p.weight f ↔ p.weight e.2 ≤ limit) := by
    intro u e he hlt
    have hle := hp.gap f e.2 hf (hedges u e he) hlt
    exact ⟨fun h => Nat.le_trans h hlimit, fun _ => hle⟩
  have hagree := run_agree_below hp.lawful hfit (fits_any_limit hp hn hedges limit) hlight
    (i := i) a.1
  constructor
  · intro h
    have hle := run_le hp.lawful hfit h
    have hpos := hp.lawful.weight_pos f
    have hlt : a.1 < 1024 * p.weight f :=
      Nat.lt_of_le_of_lt hle (Nat.mul_lt_mul_of_pos_right (by have := i.isLt; omega) hpos)
    exact ⟨(hagree hlt v a.2).1 h, hlt⟩
  · rintro ⟨h, hlt⟩
    exact (hagree hlt v a.2).2 h

end Search

end LinkClosure
