import LinkClosure.Proofs.Graph.Rows
import LinkClosure.Proofs.Search.Limits

/-!
# Searches on renumbered nodes

The numbers of the nodes decide which of two equally near nodes is settled first
and in which order edges are walked and alternatives are merged. None of this
can be seen in the labels, and neither can nodes that no edge leads to. After
renumbering, the arrivals at a node are the same up to their order, so the labels
of both runs satisfy one equation, and that has a single solution.
-/

set_option autoImplicit false

namespace LinkClosure

/-- The nodes of the first adjacency have the same edges in the second, where they have
other numbers. The second may have further nodes, but no edge leads there. -/
def Adjacency.Embeds {n n' : Nat} (f : Fin n → Fin n') (edges : Adjacency n)
    (edges' : Adjacency n') : Prop :=
  ∀ u, (edges'.get (f u)).Perm ((edges.get u).map fun e => (f e.1, e.2))

def Adjacency.Relabels {n n' : Nat} (f : Fin n ≃ Fin n') (edges : Adjacency n)
    (edges' : Adjacency n') : Prop :=
  ∀ u, (edges'.get (f u)).Perm ((edges.get u).map fun e => (f e.1, e.2))

namespace Pass

variable {σ : Type} {n n' : Nat} {p : Pass σ} {limit : Nat} {edges : Adjacency n}
  {edges' : Adjacency n'} {f : Fin n → Fin n'}

theorem offers_map (hf : Function.Injective f) (es : List (Fin n × Level)) (v : Fin n)
    (reach : Nat → Nat) (x : σ) :
    p.offers limit (es.map fun e => (f e.1, e.2)) (f v) reach x = p.offers limit es v reach x := by
  rw [offers, offers, List.filterMap_map]
  apply List.filterMap_congr
  intro e _
  simp only [Function.comp_apply, hf.eq_iff]

theorem finRange_perm (hf : Function.Injective f) :
    (List.finRange n').Perm
      ((List.finRange n).map f ++ (List.finRange n').filter fun w => ¬ ∃ v, f v = w) := by
  have himage : ((List.finRange n).map f).Nodup := (List.nodup_finRange n).map hf
  have hothers := (List.nodup_finRange n').filter fun w => decide (¬ ∃ v, f v = w)
  apply (List.perm_ext_iff_of_nodup (List.nodup_finRange n') _).2
  · intro w
    simp only [List.mem_finRange, List.mem_append, List.mem_map, List.mem_filter, true_and,
      decide_eq_true_eq, true_iff]
    exact em _
  · apply himage.append hothers
    intro w hw hw'
    obtain ⟨v, _, hv⟩ := List.mem_map.1 hw
    have hnot := (List.mem_filter.1 hw').2
    simp only [decide_eq_true_eq] at hnot
    exact hnot ⟨v, hv⟩

theorem arrivals_embed (hf : Function.Injective f) (h : edges.Embeds f edges')
    (best : Fin n → Option (Nat × σ)) (v : Fin n) :
    (p.arrivals limit edges' (Function.extend f best fun _ => none) (f v)).Perm
      (p.arrivals limit edges best v) := by
  apply ((finRange_perm hf).flatMap_right _).trans
  have hothers : ((List.finRange n').filter fun w => ¬ ∃ v, f v = w).flatMap (fun u =>
      (Function.extend f best (fun _ => none) u).elim [] fun b =>
        p.offers limit (edges'.get u) (f v) (b.1 + ·) b.2) = [] := by
    rw [List.flatMap_eq_nil_iff]
    intro w hw
    have hnot := (List.mem_filter.1 hw).2
    simp only [decide_eq_true_eq] at hnot
    rw [Function.extend_apply' _ _ _ hnot, Option.elim_none]
  rw [List.flatMap_append, hothers, List.append_nil, List.flatMap_map]
  apply List.Perm.flatMap_left
  intro u _
  rw [hf.extend_apply]
  cases best u with
  | none => exact List.Perm.refl []
  | some b =>
    rw [Option.elim_some, Option.elim_some, ← offers_map hf (edges.get u)]
    exact (h u).filterMap _

theorem arrivals_outside (h : edges.Embeds f edges') (best : Fin n → Option (Nat × σ))
    {w : Fin n'} (hw : ¬ ∃ v, f v = w) :
    p.arrivals limit edges' (Function.extend f best fun _ => none) w = [] := by
  rw [List.eq_nil_iff_forall_not_mem]
  intro a ha
  obtain ⟨u, b, l, hb, hl, _⟩ := mem_arrivals.1 ha
  by_cases hu : ∃ v, f v = u
  · obtain ⟨v, rfl⟩ := hu
    obtain ⟨e, _, he⟩ := List.mem_map.1 ((h v).mem_iff.1 hl)
    exact hw ⟨e.1, congrArg Prod.fst he⟩
  · rw [Function.extend_apply' _ _ _ hu] at hb
    cases hb

theorem Balances.embed (hp : p.Lawful) (hf : Function.Injective f) (h : edges.Embeds f edges')
    {i : Fin n} {best : Fin n → Option (Nat × σ)} (hbest : p.Balances limit edges i best) :
    p.Balances limit edges' (f i) (Function.extend f best fun _ => none) where
  origin := by
    rw [hf.extend_apply]
    exact hbest.origin
  equation w hw := by
    by_cases hinside : ∃ v, f v = w
    · obtain ⟨v, rfl⟩ := hinside
      have hv : v ≠ i := fun hvi => hw (congrArg f hvi)
      rw [hf.extend_apply, hbest.equation v hv]
      exact (hp.joinAll_perm (arrivals_embed hf h best v)).symm
    · rw [Function.extend_apply' _ _ _ hinside, arrivals_outside h best hinside]
      rfl

end Pass

/-- Runs do not depend on the numbers of the nodes, nor on nodes that no edge leads to. -/
theorem Search.best?_embed {σ : Type} {n n' : Nat} {p : Pass σ} {edges : Adjacency n}
    {edges' : Adjacency n'} {f : Fin n → Fin n'} (hp : p.Graded) (hf : Function.Injective f)
    (h : edges.Embeds f edges') (hn' : n' ≤ 2 ^ 14) (hedges : edges.Proper)
    (hedges' : edges'.Proper) (limit : Nat) (i : Fin n) :
    (run p limit edges' (f i)).best? =
      Function.extend f (run p limit edges i).best? fun _ => none := by
  have hn : n ≤ 2 ^ 14 := (Fin.le_of_injective f hf).trans hn'
  have hbest := run_balances (i := i) hp.lawful (fits_of_size hp hn hedges limit)
  have hbest' := run_balances (i := f i) hp.lawful (fits_of_size hp hn' hedges' limit)
  exact hbest'.unique hp.lawful (hbest.embed hp.lawful hf h)

namespace Adjacency

variable {n n' : Nat} {edges : Adjacency n} {edges' : Adjacency n'}

section Embeds

variable {f : Fin n → Fin n'}

theorem levelAt?_embed (hf : Function.Injective f) (h : edges.Embeds f edges')
    (hn' : n' ≤ 2 ^ 14) (hedges : edges.Proper) (hedges' : edges'.Proper) (i v : Fin n)
    (floor : Option Level) : edges'.levelAt? (f i) floor (f v) = edges.levelAt? i floor v := by
  rw [levelAt?, levelAt?, lowSearch, lowSearch, highSearch, highSearch,
    Search.best?_embed Pass.low_graded hf h hn' hedges hedges',
    Search.best?_embed Pass.high_graded hf h hn' hedges hedges', hf.extend_apply, hf.extend_apply]
  simp only [hf.eq_iff]

theorem levelAt?_outside (hf : Function.Injective f) (h : edges.Embeds f edges')
    (hn' : n' ≤ 2 ^ 14) (hedges : edges.Proper) (hedges' : edges'.Proper) (i : Fin n)
    (floor : Option Level) {w : Fin n'} (hw : ¬ ∃ v, f v = w) :
    edges'.levelAt? (f i) floor w = none := by
  have hne : w ≠ f i := fun hwi => hw ⟨i, hwi.symm⟩
  rw [levelAt?, if_neg hne, lowSearch,
    Search.best?_embed Pass.low_graded hf h hn' hedges hedges', Function.extend_apply' _ _ _ hw]
  rfl

end Embeds

section Relabels

variable {f : Fin n ≃ Fin n'}

theorem Relabels.proper (h : edges.Relabels f edges') (hedges : edges.Proper) : edges'.Proper := by
  intro u e he
  obtain ⟨w, rfl⟩ := f.surjective u
  obtain ⟨e₀, he₀, rfl⟩ := List.mem_map.1 ((h w).mem_iff.1 he)
  exact hedges w e₀ he₀

theorem levelAt?_relabel (h : edges.Relabels f edges') (hn : n ≤ 2 ^ 14) (hedges : edges.Proper)
    (i v : Fin n) (floor : Option Level) :
    edges'.levelAt? (f i) floor (f v) = edges.levelAt? i floor v := by
  have hn' : n' ≤ 2 ^ 14 := by
    rwa [← Fin.equiv_iff_eq.1 ⟨f⟩]
  exact levelAt?_embed f.injective h hn' hedges (h.proper hedges) i v floor

end Relabels

end Adjacency

end LinkClosure
