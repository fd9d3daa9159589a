import LinkClosure.Linkage.Composition
import LinkClosure.Proofs.Reversal
import Mathlib.Tactic.ByContra
import Mathlib.Tactic.SplitIfs

/-!
# What a composition comes to

Two linkages are composed link by link, and what happens to one link depends on
the whole following linkage. The outcome can be told without going through the
links: which links go on, and as what, is a relation between links, and a
composition is rejected, edgeless or composed according to which links have a
continuation. Links with several continuations carry their merge, so the order
in which the links are taken makes no difference.
-/

set_option autoImplicit false

namespace LinkClosure

namespace CoordinateSet

variable {s t : CoordinateSet}

theorem not_unmodified_of_intersects (h : s.intersects t = true) :
    s.isUnmodified = false ∧ t.isUnmodified = false := by
  simp only [intersects] at h
  split_ifs at h with hmarker
  all_goals simpa using hmarker

end CoordinateSet

namespace Link

theorem semilattice_merge : Semilattice merge := ⟨⟨merge_comm⟩, ⟨merge_assoc⟩, ⟨merge_self⟩⟩

/-- All links of a sort, merged one after the other, in whatever order and however often
each of them is taken, come to `m`. -/
def Merges (sort : Link → Prop) (m : Link) : Prop :=
  (∃ ks : List Link, ∀ k, k ∈ ks ↔ sort k) ∧
    ∀ ks : List Link, (∀ k, k ∈ ks ↔ sort k) → combine merge ks = some m

theorem merges_iff {sort : Link → Prop} {ks : List Link} (hks : ∀ k, k ∈ ks ↔ sort k) {m : Link} :
    Merges sort m ↔ combine merge ks = some m := by
  constructor
  · intro h
    exact h.2 ks hks
  · intro h
    refine ⟨⟨ks, hks⟩, ?_⟩
    intro js hjs
    rw [← h]
    apply semilattice_merge.combine_congr
    · exact fun k hk => (hks k).2 ((hjs k).1 hk)
    · exact fun k hk => (hjs k).2 ((hks k).1 hk)

end Link

namespace Linkage

variable {e f m : Linkage} {l k : Link} {x : CoordinateSet}

/-- How a link goes on in the following linkage: by the link for exactly the coordinates it
arrives at; for want of one, by the link from the wildcard; for want of that too, from
the wildcard by every link. -/
inductive Continues (f : Linkage) (l : Link) : Link → Prop
  | exact {k : Link} (hk : f.get? l.target = some k) :
      f.Continues l ⟨k.target, !l.target.isWildcard && l.isMutable && k.isMutable⟩
  | restart {k : Link} (hnone : f.get? l.target = none) (hk : f.get? .wildcard = some k) :
      f.Continues l ⟨k.target, l.isMutable || k.isMutable⟩
  | fanOut {x : CoordinateSet} {k : Link} (hl : l.target = .wildcard)
      (hnone : f.get? .wildcard = none) (hk : f.get? x = some k) :
      f.Continues l ⟨k.target, l.isMutable || k.isMutable⟩

def Dies (f : Linkage) (l : Link) : Prop := ∀ k, ¬ f.Continues l k

def HasDeadLink (e f : Linkage) : Prop := ∃ x l, e.get? x = some l ∧ f.Dies l

def HasWildcardWay (e f : Linkage) : Prop :=
  ∃ l k, e.get? .wildcard = some l ∧ f.Continues l k ∧ k.target = .wildcard

/-- A link dies between areas that do not meet, or a way from the wildcard to the wildcard
has no concrete place that both ends share. -/
def Clashes (e f : Linkage) : Prop :=
  (e.HasDeadLink f ∧ e.targetArea.intersects f.sourceArea = false) ∨
    (e.HasWildcardWay f ∧ e.sourceArea.intersectsConcretely f.targetArea = false)

section Links

theorem mem_links_values : k ∈ f.links.values ↔ ∃ x, f.get? x = some k := by
  rw [SortedMap.values, List.mem_map]
  constructor
  · rintro ⟨y, hy, rfl⟩
    exact ⟨y.1, mem_entries.1 hy⟩
  · rintro ⟨x, hx⟩
    exact ⟨(x, k), mem_entries.2 hx, rfl⟩

theorem exists_get? (h : f.isEmpty = false) : ∃ x l, f.get? x = some l := by
  obtain ⟨x, hx⟩ := isEmpty_eq_false.1 h
  obtain ⟨l, hl⟩ := Option.isSome_iff_exists.1 (SortedMap.mem_keys_iff.1 hx)
  exact ⟨x, l, hl⟩

theorem mem_arrivals_continuation : k ∈ (f.continuation l.target).arrivals l ↔ f.Continues l k := by
  rw [continuation]
  cases hexact : f.get? l.target with
  | some j =>
    simp only [Continuation.arrivals, List.mem_singleton]
    constructor
    · rintro rfl
      exact .exact hexact
    · intro h
      cases h with
      | exact hk => rw [Option.some.inj (hexact.symm.trans hk)]
      | restart hnone _ => simp [hnone] at hexact
      | fanOut hl hnone _ => simp [hl, hnone] at hexact
  | none =>
    cases hrestart : f.get? .wildcard with
    | some j =>
      simp only [Continuation.arrivals, List.mem_singleton]
      constructor
      · rintro rfl
        exact .restart hexact hrestart
      · intro h
        cases h with
        | exact hk => simp [hk] at hexact
        | restart _ hk => rw [Option.some.inj (hrestart.symm.trans hk)]
        | fanOut _ hnone _ => simp [hnone] at hrestart
    | none =>
      by_cases hl : l.target.isWildcard = true
      · simp only [hl, if_true, Continuation.arrivals, List.mem_map, mem_links_values]
        constructor
        · rintro ⟨j, ⟨x, hx⟩, rfl⟩
          exact .fanOut (CoordinateSet.isWildcard_iff.1 hl) hrestart hx
        · intro h
          cases h with
          | exact hk => simp [hk] at hexact
          | restart _ hk => simp [hk] at hrestart
          | fanOut _ _ hk => exact ⟨_, ⟨_, hk⟩, rfl⟩
      · simp only [if_neg hl, Continuation.arrivals, List.not_mem_nil, false_iff]
        intro h
        cases h with
        | exact hk => simp [hk] at hexact
        | restart _ hk => simp [hk] at hrestart
        | fanOut hwildcard _ _ => exact hl (CoordinateSet.isWildcard_iff.2 hwildcard)

theorem continuation_eq_dead (hf : f.isEmpty = false) :
    f.continuation l.target = .dead ↔ f.Dies l := by
  have harrivals : (f.continuation l.target).arrivals l = [] ↔ f.Dies l := by
    rw [List.eq_nil_iff_forall_not_mem]
    exact forall_congr' fun k => not_congr mem_arrivals_continuation
  rw [← harrivals]
  obtain ⟨x, k, hk⟩ := exists_get? hf
  have hvalues : f.links.values ≠ [] := List.ne_nil_of_mem (mem_links_values.2 ⟨x, hk⟩)
  rw [continuation]
  split
  · simp [Continuation.arrivals]
  · split
    · simp [Continuation.arrivals]
    · split_ifs
      · simp [Continuation.arrivals, hvalues]
      · simp [Continuation.arrivals]

end Links

section Outcomes

theorem mem_arrivals : (x, k) ∈ e.arrivals f ↔ ∃ l, e.get? x = some l ∧ f.Continues l k := by
  rw [arrivals, List.mem_flatMap]
  constructor
  · rintro ⟨y, hy, hk⟩
    obtain ⟨j, hj, heq⟩ := List.mem_map.1 hk
    obtain ⟨rfl, rfl⟩ := Prod.mk.inj heq
    exact ⟨y.2, mem_entries.1 hy, mem_arrivals_continuation.1 hj⟩
  · rintro ⟨l, hl, hk⟩
    exact ⟨(x, l), mem_entries.2 hl, List.mem_map.2 ⟨k, mem_arrivals_continuation.2 hk, rfl⟩⟩

theorem mem_keys_arrivals :
    x ∈ (SortedMap.ofListWith Link.merge (e.arrivals f)).keys ↔
      ∃ l, e.get? x = some l ∧ ¬ f.Dies l := by
  rw [SortedMap.mem_keys_ofListWith, List.mem_map]
  simp only [Dies, not_forall, not_not]
  constructor
  · rintro ⟨⟨y, k⟩, hk, rfl⟩
    obtain ⟨l, hl, hcontinues⟩ := mem_arrivals.1 hk
    exact ⟨l, hl, k, hcontinues⟩
  · rintro ⟨l, hl, k, hk⟩
    exact ⟨(x, k), mem_arrivals.2 ⟨l, hl, hk⟩, rfl⟩

theorem get?_arrivals :
    (SortedMap.ofListWith Link.merge (e.arrivals f)).get? x = some k ↔
      ∃ l, e.get? x = some l ∧ Link.Merges (f.Continues l) k := by
  rw [SortedMap.get?_ofListWith Link.merge_assoc]
  cases hl : e.get? x with
  | none =>
    have hnil : SortedMap.valuesAt x (e.arrivals f) = [] := by
      rw [List.eq_nil_iff_forall_not_mem]
      intro j hj
      obtain ⟨l, hsome, _⟩ := mem_arrivals.1 (SortedMap.mem_valuesAt.1 hj)
      rw [hl] at hsome
      cases hsome
    simp [hnil, combine]
  | some l =>
    have hvalues : ∀ j, j ∈ SortedMap.valuesAt x (e.arrivals f) ↔ f.Continues l j := by
      intro j
      rw [SortedMap.mem_valuesAt, mem_arrivals, hl]
      simp
    rw [← Link.merges_iff hvalues]
    simp

theorem conflicts_iff (hf : f.isEmpty = false) : e.conflicts f = true ↔ e.Clashes f := by
  have hdead : (e.continuations f).any (· == .dead) = true ↔ e.HasDeadLink f := by
    simp only [List.any_eq_true, beq_iff_eq, continuations, List.mem_map]
    constructor
    · rintro ⟨c, ⟨y, hy, rfl⟩, hc⟩
      exact ⟨y.1, y.2, mem_entries.1 hy, (continuation_eq_dead hf).1 hc⟩
    · rintro ⟨y, l, hl, hdies⟩
      exact ⟨.dead, ⟨(y, l), mem_entries.2 hl, (continuation_eq_dead hf).2 hdies⟩, rfl⟩
  have hwildcard : (e.arrivals f).any (fun x => x.1.isWildcard && x.2.target.isWildcard) = true ↔
      e.HasWildcardWay f := by
    simp only [List.any_eq_true, Bool.and_eq_true, CoordinateSet.isWildcard_iff, Prod.exists,
      mem_arrivals, HasWildcardWay]
    constructor
    · rintro ⟨y, k, ⟨l, hl, hk⟩, rfl, htarget⟩
      exact ⟨l, k, hl, hk, htarget⟩
    · rintro ⟨l, k, hl, hk, htarget⟩
      exact ⟨.wildcard, k, ⟨l, hl, hk⟩, rfl, htarget⟩
  rw [conflicts, Bool.or_eq_true, Bool.and_eq_true, Bool.and_eq_true, hdead, hwildcard,
    Bool.not_eq_true', Bool.not_eq_true', Clashes]

theorem intersects_of_all_die (he : e.isEmpty = false) (hdie : ∀ x l, e.get? x = some l → f.Dies l)
    (hclash : ¬ e.Clashes f) : e.targetArea.intersects f.sourceArea = true := by
  obtain ⟨x, l, hl⟩ := exists_get? he
  by_contra hapart
  exact hclash (.inl ⟨⟨x, l, hl, hdie x l hl⟩, Bool.eq_false_iff.2 hapart⟩)

/-- Composition without the test for areas that no modification reaches. -/
def composeUntested (e f : Linkage) : Composition :=
  if e.isEmpty then
    if f.isEmpty then .edgeless else .composed f
  else if f.isEmpty then .edgeless
  else if e.conflicts f then .rejected
  else
    let links := SortedMap.ofListWith Link.merge (e.arrivals f)
    if links.isEmpty then .edgeless
    else .composed ⟨links, e.composedSourceArea f, e.composedTargetArea f⟩

theorem arrivals_isEmpty_iff :
    (SortedMap.ofListWith Link.merge (e.arrivals f)).isEmpty = true ↔
      ∀ x l, e.get? x = some l → f.Dies l := by
  rw [SortedMap.isEmpty, List.isEmpty_iff, ← List.map_eq_nil_iff (f := Prod.fst),
    List.eq_nil_iff_forall_not_mem]
  refine forall_congr' fun x => ?_
  show ¬ x ∈ SortedMap.keys _ ↔ _
  rw [mem_keys_arrivals]
  simp

/-- Nothing is left to be tested: a composition without links that does not clash joins two
areas that meet. -/
theorem compose_eq_composeUntested (e f : Linkage) : e.compose f = e.composeUntested f := by
  simp only [compose, composeUntested]
  split_ifs with he hfe hf hconflicts hempty htest
  · rfl
  · rfl
  · rfl
  · rfl
  · rw [Bool.not_eq_true] at he hf
    have hclash : ¬ e.Clashes f := fun h => hconflicts ((conflicts_iff hf).2 h)
    obtain ⟨hsource, htarget⟩ := CoordinateSet.not_unmodified_of_intersects
      (intersects_of_all_die he (arrivals_isEmpty_iff.1 hempty) hclash)
    simp [hsource, htarget] at htest
  · rfl
  · rfl

theorem isEmpty_of_compose (h : e.compose f = .composed m) : m.isEmpty = false := by
  simp only [compose_eq_composeUntested, composeUntested] at h
  split_ifs at h with _ hf _ _ hempty
  · rw [← Composition.composed.inj h]
    exact Bool.eq_false_iff.2 hf
  · rw [← Composition.composed.inj h]
    exact Bool.eq_false_iff.2 hempty

variable (he : e.isEmpty = false) (hf : f.isEmpty = false)

include he hf

theorem compose_eq_rejected_iff : e.compose f = .rejected ↔ e.Clashes f := by
  rw [compose_eq_composeUntested, ← conflicts_iff hf, composeUntested]
  simp only [he, hf, Bool.false_eq_true, if_false]
  split_ifs with hconflicts hempty <;> simp [hconflicts]

theorem compose_eq_edgeless_iff :
    e.compose f = .edgeless ↔ ¬ e.Clashes f ∧ ∀ x l, e.get? x = some l → f.Dies l := by
  rw [compose_eq_composeUntested, ← conflicts_iff hf, ← arrivals_isEmpty_iff, composeUntested]
  simp only [he, hf, Bool.false_eq_true, if_false]
  split_ifs with hconflicts hempty <;> simp [*]

theorem compose_eq_composed_iff :
    e.compose f = .composed m ↔ ¬ e.Clashes f ∧ (∃ x l, e.get? x = some l ∧ ¬ f.Dies l) ∧
      m = ⟨.ofListWith Link.merge (e.arrivals f), e.composedSourceArea f,
        e.composedTargetArea f⟩ := by
  have hsome : (∃ x l, e.get? x = some l ∧ ¬ f.Dies l) ↔
      ¬ (SortedMap.ofListWith Link.merge (e.arrivals f)).isEmpty = true := by
    rw [arrivals_isEmpty_iff]
    simp
  rw [compose_eq_composeUntested, ← conflicts_iff hf, hsome, composeUntested]
  simp only [he, hf, Bool.false_eq_true, if_false]
  split_ifs with hconflicts hempty
  · simp [hconflicts]
  · simp [hempty]
  · simp [hconflicts, hempty, eq_comm]

end Outcomes

end Linkage

/-- The outcome of a composition of two linkages that have links. -/
theorem composition_outcomes {e f : Linkage} (he : e.isEmpty = false) (hf : f.isEmpty = false) :
    (e.compose f = .rejected ↔ e.Clashes f) ∧
      (e.compose f = .edgeless ↔ ¬ e.Clashes f ∧ ∀ x l, e.get? x = some l → f.Dies l) ∧
      (¬ e.Clashes f → (∃ x l, e.get? x = some l ∧ ¬ f.Dies l) →
        ∃ m, e.compose f = .composed m ∧ m.isEmpty = false ∧
          (∀ x, x ∈ m.links.keys ↔ ∃ l, e.get? x = some l ∧ ¬ f.Dies l) ∧
          ∀ x k, m.get? x = some k ↔ ∃ l, e.get? x = some l ∧ Link.Merges (f.Continues l) k) ∧
      e.compose f = e.composeUntested f := by
  refine ⟨Linkage.compose_eq_rejected_iff he hf, Linkage.compose_eq_edgeless_iff he hf, ?_,
    Linkage.compose_eq_composeUntested e f⟩
  intro hclash hgoes
  have hcomposed := (Linkage.compose_eq_composed_iff he hf).2 ⟨hclash, hgoes, rfl⟩
  refine ⟨_, hcomposed, Linkage.isEmpty_of_compose hcomposed, ?_, ?_⟩
  · intro x
    exact Linkage.mem_keys_arrivals
  · intro x k
    exact Linkage.get?_arrivals

namespace Crossing

def entering : Linkage :=
  ⟨.ofList [(.single 0, ⟨.single 1, true⟩), (.single 2, ⟨.wildcard, false⟩),
    (.single 4, ⟨.single 7, false⟩)], .wildcard, .single 3⟩

def leaving : Linkage :=
  ⟨.ofList [(.single 1, ⟨.single 5, true⟩), (.single 3, ⟨.single 6, false⟩)], .single 3, .wildcard⟩

end Crossing

theorem composition_outcomes_crossing :
    Crossing.entering.isEmpty = false ∧ Crossing.leaving.isEmpty = false ∧
      ¬ Crossing.entering.Clashes Crossing.leaving ∧
      ∃ m, Crossing.entering.compose Crossing.leaving = .composed m ∧ m.isEmpty = false ∧
        (∀ x, x ∈ m.links.keys ↔
          ∃ l, Crossing.entering.get? x = some l ∧ ¬ Crossing.leaving.Dies l) ∧
        ∀ x k, m.get? x = some k ↔
          ∃ l, Crossing.entering.get? x = some l ∧
            Link.Merges (Crossing.leaving.Continues l) k := by
  have he : Crossing.entering.isEmpty = false := rfl
  have hf : Crossing.leaving.isEmpty = false := rfl
  obtain ⟨hrejected, _, hcomposed, _⟩ := composition_outcomes he hf
  have hclash : ¬ Crossing.entering.Clashes Crossing.leaving := by
    rw [← hrejected]
    decide
  have hgoes : ¬ Crossing.leaving.Dies ⟨.single 1, true⟩ := fun h => h _ (.exact rfl)
  exact ⟨he, hf, hclash, hcomposed hclash ⟨.single 0, _, rfl, hgoes⟩⟩

example :
    Crossing.entering.compose Crossing.leaving =
      .composed ⟨.ofList [(.single 0, ⟨.single 5, true⟩),
        (.single 2, ⟨.ofStored [.single 5, .single 6], true⟩)], .wildcard, .wildcard⟩ := by decide

end LinkClosure
