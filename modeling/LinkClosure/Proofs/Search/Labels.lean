import LinkClosure.Proofs.Search.Bellman

/-!
# What all labels of a run have in common

A settled node keeps its label to the end of the run. So every label but that of
the start is put together from the final labels of nodes that were settled
before, one edge further on, and what survives the edges and the merging holds of
all labels at the end. This is so at any length, capped or not.
-/

set_option autoImplicit false

namespace LinkClosure

namespace Search

variable {σ : Type} {n : Nat} {p : Pass σ} {limit : Nat} {edges : Adjacency n} {i : Fin n}

theorem settle_keeps {s : Search σ n} {v : Fin n} (hv : s.isSettled v = true) :
    (s.settle p limit edges).isSettled v = true ∧
      (s.settle p limit edges).best? v = s.best? v := by
  cases hnear : s.nearest? with
  | none =>
    rw [settle_of_nearest?_none hnear]
    exact ⟨hv, rfl⟩
  | some c =>
    rw [isSettled_settle hnear, hv, Bool.or_true]
    exact ⟨rfl, best?_settle_of_settled hnear (.inr hv)⟩

theorem rounds_keep (k : Nat) {s : Search σ n} {v : Fin n} (hv : s.isSettled v = true) :
    (rounds p limit edges k s).best? v = s.best? v := by
  induction k generalizing s with
  | zero => rfl
  | succ k ih =>
    rw [rounds, ih (settle_keeps hv).1, (settle_keeps hv).2]

theorem labels_settle (hp : p.Lawful) {P : Fin n → Nat × σ → Prop} {s : Search σ n} {u : Fin n}
    {l : NodeLabel σ} (h : s.nearest? = some (u, l))
    (hoffer : ∀ v e x, v ≠ i → (v, e) ∈ edges.get u → p.weight e ≤ limit →
      p.extend l.state e = some x → P v (Distance.add l.distance (p.weight e), x))
    (hmerge : ∀ v d x y, P v (d, x) → P v (d, y) → P v (d, p.merge x y))
    (hs : ∀ v a, v ≠ i → s.best? v = some a → P v a) {v : Fin n} {a : Nat × σ} (hv : v ≠ i)
    (ha : (s.settle p limit edges).best? v = some a) : P v a := by
  by_cases hsettled : v = u ∨ s.isSettled v = true
  · rw [best?_settle_of_settled h hsettled] at ha
    exact hs v a hv ha
  · rw [not_or, Bool.not_eq_true] at hsettled
    rw [best?_settle hp h hsettled.1 hsettled.2, Pass.merge_joinAll] at ha
    obtain ⟨d, x⟩ := a
    apply p.mergeAll_induction (P := fun x => P v (d, x)) (hmerge v d) _ (p.least_of_joinAll ha).2
    intro y hy
    obtain ⟨⟨k, z⟩, hz, rfl⟩ := List.mem_map.1 hy
    obtain ⟨hmem, hk⟩ := List.mem_filter.1 hz
    obtain rfl : k = d := of_decide_eq_true hk
    rcases List.mem_append.1 hmem with hold | hnew
    · exact hs v (k, z) hv (Option.mem_toList.1 hold)
    · obtain ⟨e, he, hlimit, hext, hlen⟩ := Pass.mem_offers.1 hnew
      obtain rfl : k = Distance.add l.distance (p.weight e) := hlen
      exact hoffer v e z hv he hlimit hext

/-- What holds of the start, survives an edge that continues a final label, and survives
merging, holds of every label at the end of a run. -/
theorem run_labels (hp : p.Lawful) {P : Fin n → Nat × σ → Prop} (hstart : P i (0, p.initial))
    (hextend : ∀ u a v e x, (run p limit edges i).best? u = some a → P u a → v ≠ i →
      (v, e) ∈ edges.get u → p.weight e ≤ limit → p.extend a.2 e = some x →
      P v (Distance.add a.1 (p.weight e), x))
    (hmerge : ∀ v d x y, P v (d, x) → P v (d, y) → P v (d, p.merge x y)) {v : Fin n}
    {a : Nat × σ} (ha : (run p limit edges i).best? v = some a) : P v a := by
  have hinitial : ∀ b, (run p limit edges i).best? i = some b → P i b := by
    intro b hb
    rw [run_start hp] at hb
    rwa [← Option.some.inj hb]
  -- The induction is on the rounds that are left, so that the end of the run stays fixed.
  have hrounds : ∀ k s, rounds p limit edges k s = run p limit edges i →
      (∀ v a, v ≠ i → s.best? v = some a → P v a) →
      ∀ v a, v ≠ i → (run p limit edges i).best? v = some a → P v a := by
    intro k
    induction k with
    | zero =>
      intro s hend hs
      rwa [← hend]
    | succ k ih =>
      intro s hend hs
      apply ih (s.settle p limit edges) hend
      cases hnear : s.nearest? with
      | none => rwa [settle_of_nearest?_none hnear]
      | some c =>
        obtain ⟨u, l⟩ := c
        have near := nearest_of_nearest? hnear
        have hkept : (run p limit edges i).best? u = some (l.distance, l.state) := by
          rw [← hend, rounds, rounds_keep, best?_settle_of_settled hnear (.inl rfl), near.best?]
          rw [isSettled_settle hnear]
          simp
        have hu : P u (l.distance, l.state) := by
          by_cases hui : u = i
          · rw [hui] at hkept ⊢
            exact hinitial _ hkept
          · exact hs u _ hui near.best?
        intro v a hv ha
        exact labels_settle hp hnear (fun w e x => hextend u _ w e x hkept hu) hmerge hs hv ha
  by_cases hv : v = i
  · rw [hv] at ha ⊢
    exact hinitial a ha
  · refine hrounds n (start p i) rfl ?_ v a hv ha
    intro w b hw hb
    rw [best?_start, if_neg hw] at hb
    cases hb

theorem run_pos (hp : p.Lawful) {v : Fin n} {a : Nat × σ} (hv : v ≠ i)
    (ha : (run p limit edges i).best? v = some a) : 0 < a.1 := by
  apply run_labels (P := fun v a => v ≠ i → 0 < a.1) hp _ _ _ ha hv
  · intro hne
    contradiction
  · intro u b w e x _ _ _ _ _ _ _
    have hpos := hp.weight_pos e
    exact Nat.lt_min.2 ⟨Nat.add_pos_right b.1 hpos, by decide⟩
  · intro w d x y hx _
    exact hx

end Search

end LinkClosure
