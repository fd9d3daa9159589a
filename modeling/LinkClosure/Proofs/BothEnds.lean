import LinkClosure.Proofs.Composition
import LinkClosure.Proofs.Lines
import LinkClosure.Proofs.Observers

/-!
# Compositions from both ends

Of two linkages in a row, the first ends on the variable between them and the
second starts there. Gone from the other end, each is reversed and they change
places. Areas meet in either direction, and so does a way from the wildcard to
the wildcard lead back. But a link dies on its own way only: the links in the
middle that no link of the first linkage arrives at are not asked for forwards,
and are the ones to die backwards. Where the areas in the middle do not meet, a
composition may therefore be rejected from one end and accepted from the other.
-/

set_option autoImplicit false

namespace LinkClosure

theorem Coordinate.overlaps_comm (a b : Coordinate) : a.overlaps b = b.overlaps a := by
  simp only [overlaps, Bool.or_left_comm, Bool.or_comm]

namespace CoordinateSet

theorem intersects_comm (s t : CoordinateSet) : s.intersects t = t.intersects s := by
  have hmembers : (s.toList.any fun a => t.toList.any fun b => a.overlaps b) =
      t.toList.any fun b => s.toList.any fun a => b.overlaps a := by
    rw [Bool.eq_iff_iff]
    simp only [List.any_eq_true]
    constructor
    · rintro ⟨a, ha, b, hb, h⟩
      exact ⟨b, hb, a, ha, Coordinate.overlaps_comm a b ▸ h⟩
    · rintro ⟨b, hb, a, ha, h⟩
      exact ⟨a, ha, b, hb, Coordinate.overlaps_comm a b ▸ h⟩
  rw [intersects, intersects, hmembers, Bool.or_comm t.isUnmodified, Bool.or_comm t.isWildcard]

theorem intersectsConcretely_comm (s t : CoordinateSet) :
    s.intersectsConcretely t = t.intersectsConcretely s := by
  rw [intersectsConcretely, intersectsConcretely, intersects_comm, Bool.and_comm t.isConcrete]

end CoordinateSet

namespace Linkage

variable {e f m : Linkage}

theorem HasWildcardWay.reverse (he : e.Tidy) (hf : f.Tidy) (h : e.HasWildcardWay f) :
    f.reverse.HasWildcardWay e.reverse := by
  obtain ⟨⟨middle, b⟩, k, hl, hcontinues, hk⟩ := h
  have hback : e.reverse.get? middle = some ⟨.wildcard, b⟩ := (get?_reverse he.concordant).2 hl
  cases hcontinues with
  | @exact j hj =>
    obtain ⟨target, c⟩ := j
    obtain rfl : target = .wildcard := hk
    have hstart : f.reverse.get? .wildcard = some ⟨middle, c⟩ := (get?_reverse hf.concordant).2 hj
    exact ⟨_, _, hstart, .exact hback, rfl⟩
  | @restart j hnone hj =>
    obtain ⟨target, c⟩ := j
    obtain rfl : target = .wildcard := hk
    have hstart : f.reverse.get? .wildcard = some ⟨.wildcard, c⟩ :=
      (get?_reverse hf.concordant).2 hj
    have hends : e.reverse.get? .wildcard = none := by
      rw [Option.eq_none_iff_forall_ne_some]
      rintro ⟨x, d⟩ hx
      rw [get?_reverse he.concordant] at hx
      have hsame := he.touching (x, ⟨.wildcard, d⟩) (mem_entries.2 hx) (.wildcard, ⟨middle, b⟩)
        (mem_entries.2 hl) (.inr rfl) (.inl rfl)
      obtain rfl : .wildcard = middle := congrArg (fun y => y.2.target) hsame
      exact Option.some_ne_none _ (hj.symm.trans hnone)
    exact ⟨_, _, hstart, .fanOut rfl hends hback, rfl⟩
  | @fanOut x j hmiddle hnone hj =>
    obtain ⟨target, c⟩ := j
    obtain rfl : target = .wildcard := hk
    obtain rfl : middle = .wildcard := hmiddle
    have hstart : f.reverse.get? .wildcard = some ⟨x, c⟩ := (get?_reverse hf.concordant).2 hj
    have hends : e.reverse.get? x = none := by
      rw [Option.eq_none_iff_forall_ne_some]
      rintro ⟨y, d⟩ hy
      rw [get?_reverse he.concordant] at hy
      have hsame := he.alone (.wildcard, ⟨.wildcard, b⟩) (mem_entries.2 hl) rfl rfl
        (y, ⟨x, d⟩) (mem_entries.2 hy)
      obtain rfl : x = .wildcard := congrArg (fun y => y.2.target) hsame
      exact Option.some_ne_none _ (hj.symm.trans hnone)
    exact ⟨_, _, hstart, .restart hends hback, rfl⟩

theorem hasWildcardWay_reverse (he : e.Tidy) (hf : f.Tidy) :
    f.reverse.HasWildcardWay e.reverse ↔ e.HasWildcardWay f := by
  constructor
  · intro h
    have hforth := h.reverse hf.reverse he.reverse
    rwa [reverse_reverse he.concordant, reverse_reverse hf.concordant] at hforth
  · exact HasWildcardWay.reverse he hf

theorem clashes_reverse (he : e.Tidy) (hf : f.Tidy) :
    f.reverse.Clashes e.reverse ↔
      (f.reverse.HasDeadLink e.reverse ∧ e.targetArea.intersects f.sourceArea = false) ∨
        (e.HasWildcardWay f ∧ e.sourceArea.intersectsConcretely f.targetArea = false) := by
  have hmiddle : f.reverse.targetArea.intersects e.reverse.sourceArea =
      e.targetArea.intersects f.sourceArea := CoordinateSet.intersects_comm _ _
  have hends : f.reverse.sourceArea.intersectsConcretely e.reverse.targetArea =
      e.sourceArea.intersectsConcretely f.targetArea := CoordinateSet.intersectsConcretely_comm _ _
  rw [Clashes, hmiddle, hends, hasWildcardWay_reverse he hf]

theorem rejected_reverse_iff_of_links (he : e.Tidy) (hf : f.Tidy) (hne : e.isEmpty = false)
    (hnf : f.isEmpty = false) :
    (e.compose f = .rejected ↔ f.reverse.compose e.reverse = .rejected) ↔
      e.targetArea.intersects f.sourceArea = true ∨
        (e.HasWildcardWay f ∧ e.sourceArea.intersectsConcretely f.targetArea = false) ∨
        (e.HasDeadLink f ↔ f.reverse.HasDeadLink e.reverse) := by
  rw [compose_eq_rejected_iff hne hnf,
    compose_eq_rejected_iff (isEmpty_reverse hnf) (isEmpty_reverse hne), clashes_reverse he hf,
    Clashes]
  by_cases hmeet : e.targetArea.intersects f.sourceArea = true
  · simp [hmeet]
  · by_cases hways : e.HasWildcardWay f ∧ e.sourceArea.intersectsConcretely f.targetArea = false
    · simp [hways]
    · rw [Bool.not_eq_true] at hmeet
      simp only [hmeet, hways, and_true, or_false, Bool.false_eq_true, false_or]

theorem compose_ne_rejected (h : e.isEmpty = true ∨ f.isEmpty = true) :
    e.compose f ≠ .rejected := by
  rw [compose]
  by_cases he : e.isEmpty = true
  · rw [if_pos he]
    split <;> simp
  · simp [he, h.resolve_left he]

theorem Tidy.isEmpty_reverse (h : m.Tidy) (hm : m.isEmpty = true) : m.reverse.isEmpty = true := by
  by_contra hne
  have hback := Linkage.isEmpty_reverse (Bool.eq_false_iff.2 hne)
  rw [reverse_reverse h.concordant, hm] at hback
  cases hback

/-- From both ends the outcome is the same unless the areas in the middle keep apart, the
outer ends do not clash, and links die in one direction only. -/
theorem rejected_reverse_iff (he : e.Tidy) (hf : f.Tidy) :
    (e.compose f = .rejected ↔ f.reverse.compose e.reverse = .rejected) ↔
      e.isEmpty = true ∨ f.isEmpty = true ∨ e.targetArea.intersects f.sourceArea = true ∨
        (e.HasWildcardWay f ∧ e.sourceArea.intersectsConcretely f.targetArea = false) ∨
        (e.HasDeadLink f ↔ f.reverse.HasDeadLink e.reverse) := by
  by_cases hempty : e.isEmpty = true ∨ f.isEmpty = true
  · have hforth : e.compose f ≠ .rejected := compose_ne_rejected hempty
    have hback : f.reverse.compose e.reverse ≠ .rejected :=
      compose_ne_rejected (hempty.symm.imp hf.isEmpty_reverse he.isEmpty_reverse)
    rw [← or_assoc]
    simp only [hforth, hback, hempty, true_or]
  · obtain ⟨hne, hnf⟩ := not_or.1 hempty
    rw [rejected_reverse_iff_of_links he hf (Bool.eq_false_iff.2 hne) (Bool.eq_false_iff.2 hnf)]
    rw [or_iff_right hne, or_iff_right hnf]

end Linkage

namespace Level

variable {l k : Level} {e f : Linkage}

theorem isSome_throughHidden :
    (extend.throughHidden e f).isSome = true ↔
      e.compose f ≠ .rejected ∧ e.compose f ≠ .edgeless := by
  rw [extend.throughHidden]
  cases h : e.compose f with
  | composed m => simp [Composition.linkage?, Linkage.isEmpty_of_compose h]
  | edgeless =>
    have hempty : Linkage.empty.isEmpty = true := rfl
    simp [Composition.linkage?, hempty]
  | rejected => simp [Composition.linkage?]

theorem isSome_extend (hl : l.linkage? = some e) (hk : k.linkage? = some f) :
    (l.extend k).isSome = true ↔
      e.compose f ≠ .rejected ∧
        (e.compose f = .edgeless → l.isDependent = true ∧ k.isDependent = true) := by
  rcases linkage?_eq_some.1 hl with rfl | rfl
  · rcases linkage?_eq_some.1 hk with rfl | rfl
    · cases h : e.compose f <;> simp [extend, h, Composition.linkage?, isDependent]
    · simp [extend, isSome_throughHidden, isDependent]
  · rcases linkage?_eq_some.1 hk with rfl | rfl
    · simp [extend, isSome_throughHidden, isDependent]
    · simp [extend, isSome_throughHidden, isDependent]

theorem isDependent_reverse (l : Level) : l.reverse.isDependent = l.isDependent := by
  cases l <;> rfl

end Level

namespace InARow

variable {a b c : Variable} {l k : Level} {e f : Linkage}

def places (a b c : Variable) : Nat → Variable
  | 0 => a
  | 1 => b
  | _ => c

def levels (l k : Level) : Nat → Level
  | 0 => l
  | _ => k

theorem distinct_places (hab : a ≠ b) (hbc : b ≠ c) (hac : a ≠ c) :
    ∀ i ≤ 2, ∀ j ≤ 2, places a b c i = places a b c j → i = j := by
  intro i hi j hj h
  interval_cases i <;> interval_cases j <;> simp_all [places]

theorem weight_le {l : Level} (hl : l.linkage? = some e) :
    Weight.high l ≤ Weight.highCommonHidden := by
  rcases Level.linkage?_eq_some.1 hl with rfl | rfl
  · show Weight.highDependent ≤ Weight.highCommonHidden
    decide
  · exact Nat.le_refl _

theorem near {s : Nat → Level} (hs : ∀ i < 2, ∃ m, (s i).linkage? = some m) :
    Frame.straightLength s 2 < Distance.top := by
  obtain ⟨m, hm⟩ := hs 0 (by omega)
  obtain ⟨n, hn⟩ := hs 1 (by omega)
  calc Frame.straightLength s 2 = 0 + Weight.high (s 0) + Weight.high (s 1) := rfl
    _ ≤ 0 + Weight.highCommonHidden + Weight.highCommonHidden :=
      Nat.add_le_add (Nat.add_le_add_left (weight_le hm) 0) (weight_le hn)
    _ < Distance.top := by decide

theorem mem_row_iff {g : Graph} {v : Nat → Variable} {s : Nat → Level} (hg : g.WellFormed)
    (h : g.Line 2 v s) (he : (s 0).linkage? = some e) (hf : (s 1).linkage? = some f) :
    ∃ row, (Frame.ofGraph g).links (v 0) none = .ok row ∧
      (v 2 ∈ row.keys ↔ e.compose f ≠ .rejected ∧
        (e.compose f = .edgeless → (s 0).isDependent = true ∧ (s 1).isDependent = true)) := by
  have hstored : g.level? (v 0) (v 1) = some (s 0) :=
    (h.stored _ _ _).2 ⟨0, by omega, .inl ⟨rfl, rfl, rfl⟩⟩
  obtain ⟨row, hrow, hlevels⟩ := Frame.links_line hg h (near h.linked)
    (hg.contains_source _ _ _ hstored)
  refine ⟨row, hrow, ?_⟩
  rw [SortedMap.mem_keys_iff, hlevels 2 (Nat.le_refl 2),
    Level.alongLine?_two (Level.ne_independent ⟨e, he⟩), Level.isSome_extend he hf]

theorem exists_row_without {g : Graph} (hg : g.WellFormed) (hac : a ≠ c)
    (ha : a.isReturnValue = true) (hc : g.contains c = true) :
    ∃ row, (Frame.ofGraph g).links c none = .ok row ∧ a ∉ row.keys := by
  obtain ⟨i, row, hi, hrow, hentry, hinside⟩ := Frame.exists_row hc none
  refine ⟨row, hrow, ?_⟩
  rw [SortedMap.mem_keys_iff, Option.isSome_iff_exists]
  rintro ⟨x, hx⟩
  obtain ⟨j, rfl⟩ := Frame.exists_node (hinside a x hx)
  have hne : j ≠ i := by
    rintro rfl
    exact hac hi
  rw [hentry, Frame.levelAt?_return hg ha hne] at hx
  cases hx

variable (hl : l.linkage? = some e) (hk : k.linkage? = some f)

include hl hk

theorem linked_levels : ∀ i < 2, ∃ m, (levels l k i).linkage? = some m := by
  intro i hi
  interval_cases i
  · exact ⟨e, hl⟩
  · exact ⟨f, hk⟩

theorem concordant_levels (he : e.Concordant e) (hf : f.Concordant f) :
    ∀ i < 2, (levels l k i).Concordant (levels l k i) := by
  intro i hi
  interval_cases i
  · exact Level.concordant_of_linkage? hl he
  · exact Level.concordant_of_linkage? hk hf

theorem mem_back_row_iff {g : Graph} (hg : g.WellFormed)
    (h : g.Line 2 (places a b c) (levels l k)) (he : e.Concordant e) (hf : f.Concordant f) :
    ∃ row, (Frame.ofGraph g).links c none = .ok row ∧
      (a ∈ row.keys ↔ a.isReturnValue = false ∧ f.reverse.compose e.reverse ≠ .rejected ∧
        (f.reverse.compose e.reverse = .edgeless →
          k.isDependent = true ∧ l.isDependent = true)) := by
  by_cases ha : a.isReturnValue = true
  · have hstored : g.level? b c = some k := (h.stored _ _ _).2 ⟨1, by omega, .inl ⟨rfl, rfl, rfl⟩⟩
    have hac : a ≠ c := by
      intro heq
      have := h.distinct 0 (by omega) 2 (by omega) heq
      omega
    obtain ⟨row, hrow, hnot⟩ := exists_row_without hg hac ha (hg.contains_target _ _ _ hstored)
    exact ⟨row, hrow, by simp [hnot, ha]⟩
  · rw [Bool.not_eq_true] at ha
    have hturned := h.turned ha (concordant_levels hl hk he hf)
    obtain ⟨row, hrow, hmem⟩ := mem_row_iff hg hturned (Level.linkage?_reverse_of hk)
      (Level.linkage?_reverse_of hl)
    refine ⟨row, hrow, ?_⟩
    rw [← Level.isDependent_reverse k, ← Level.isDependent_reverse l]
    simp only [ha, true_and]
    exact hmem

omit hl hk in
theorem not_return_places (hb : b.isReturnValue = false) (hc : c.isReturnValue = false) :
    ∀ i < 2, (places a b c (i + 1)).isReturnValue = false := by
  intro i hi
  interval_cases i
  · exact hb
  · exact hc

end InARow

/-- Seen from the two ends, a composition is rejected alike unless links die in one direction
only, in a middle whose areas do not meet. Along three variables each end decides for
itself whether it has the other in its row. -/
theorem rejection_from_both_ends {es fs : SortedMap CoordinateSet Link}
    {s t s' t' : CoordinateSet} {e f : Linkage} (he : Linkage.ofLinks es s t = .ok e)
    (hf : Linkage.ofLinks fs s' t' = .ok f) :
    ((e.compose f = .rejected ↔ f.reverse.compose e.reverse = .rejected) ↔
      e.isEmpty = true ∨ f.isEmpty = true ∨ e.targetArea.intersects f.sourceArea = true ∨
        (e.HasWildcardWay f ∧ e.sourceArea.intersectsConcretely f.targetArea = false) ∨
        (e.HasDeadLink f ↔ f.reverse.HasDeadLink e.reverse)) ∧
    ∀ (a b c : Variable) (l k : Level), a ≠ b → b ≠ c → a ≠ c →
      b.isReturnValue = false → c.isReturnValue = false →
      l.linkage? = some e → k.linkage? = some f →
      ∃ g, Graph.ofAdditions [(a, [(b, l)]), (b, [(c, k)])] = .ok g ∧
        ∃ rowA rowC, (Frame.ofGraph g).links a none = .ok rowA ∧
          (Frame.ofGraph g).links c none = .ok rowC ∧
          (c ∈ rowA.keys ↔ e.compose f ≠ .rejected ∧
            (e.compose f = .edgeless → l.isDependent = true ∧ k.isDependent = true)) ∧
          (a ∈ rowC.keys ↔ a.isReturnValue = false ∧ f.reverse.compose e.reverse ≠ .rejected ∧
            (f.reverse.compose e.reverse = .edgeless →
              k.isDependent = true ∧ l.isDependent = true)) := by
  obtain ⟨he, _⟩ := Linkage.ofLinks_eq_ok.1 he
  obtain ⟨hf, _⟩ := Linkage.ofLinks_eq_ok.1 hf
  constructor
  · exact Linkage.rejected_reverse_iff he hf
  · intro a b c l k hab hbc hac hb hc hl hk
    have hlinked := InARow.linked_levels hl hk
    have hreturn : ∀ i < 2, (InARow.places a b c (i + 1)).isReturnValue = false :=
      InARow.not_return_places hb hc
    obtain ⟨g, hg⟩ := Graph.exists_line hreturn hlinked
    have hline : g.Line 2 (InARow.places a b c) (InARow.levels l k) :=
      Graph.line_of_additions (InARow.distinct_places hab hbc hac) hreturn hlinked
        (InARow.concordant_levels hl hk he.concordant hf.concordant) hg
    have hwell : g.WellFormed := (Graph.Built.of_additions hg).wellFormed
    obtain ⟨rowA, hrowA, hmemC⟩ := InARow.mem_row_iff hwell hline hl hk
    obtain ⟨rowC, hrowC, hmemA⟩ :=
      InARow.mem_back_row_iff hl hk hwell hline he.concordant hf.concordant
    exact ⟨g, hg, rowA, rowC, hrowA, hrowC, hmemC, hmemA⟩

namespace Fork

def before : Variable := ⟨"before", "before", .local⟩
def fork : Variable := ⟨"fork", "fork", .local⟩
def after : Variable := ⟨"after", "after", .local⟩

def entering : Linkage :=
  ⟨.ofList [(.single 0, ⟨.single 1, false⟩)], .wildcard, .single 0⟩

def leaving : Linkage :=
  ⟨.ofList [(.single 1, ⟨.single 2, false⟩), (.single 3, ⟨.single 4, false⟩)],
    .single 1, .wildcard⟩

end Fork

theorem rejection_from_both_ends_fork :
    Linkage.ofLinks Fork.entering.links .wildcard (.single 0) = .ok Fork.entering ∧
      Linkage.ofLinks Fork.leaving.links (.single 1) .wildcard = .ok Fork.leaving ∧
      ∃ g, Graph.ofAdditions [(Fork.before, [(Fork.fork, .dependent Fork.entering)]),
          (Fork.fork, [(Fork.after, .dependent Fork.leaving)])] = .ok g ∧
        ∃ rowA rowC, (Frame.ofGraph g).links Fork.before none = .ok rowA ∧
          (Frame.ofGraph g).links Fork.after none = .ok rowC ∧
          Fork.after ∈ rowA.keys ∧ Fork.before ∉ rowC.keys := by
  have he : Linkage.ofLinks Fork.entering.links .wildcard (.single 0) = .ok Fork.entering := rfl
  have hf : Linkage.ofLinks Fork.leaving.links (.single 1) .wildcard = .ok Fork.leaving := rfl
  obtain ⟨g, hg, rowA, rowC, hrowA, hrowC, hafter, hbefore⟩ :=
    (rejection_from_both_ends he hf).2 Fork.before Fork.fork Fork.after
      (.dependent Fork.entering) (.dependent Fork.leaving) (by decide) (by decide) (by decide)
      rfl rfl rfl rfl
  refine ⟨he, hf, g, hg, rowA, rowC, hrowA, hrowC, ?_, ?_⟩
  · rw [hafter]
    decide
  · rw [hbefore]
    decide

/-- A link out of the fork that nothing arrives at dies on the way back only. -/
theorem rejection_depends_on_the_end :
    ¬ ∀ (es fs : SortedMap CoordinateSet Link) (s t s' t' : CoordinateSet) (e f : Linkage),
      Linkage.ofLinks es s t = .ok e → Linkage.ofLinks fs s' t' = .ok f →
        (e.compose f = .rejected ↔ f.reverse.compose e.reverse = .rejected) := by
  intro h
  have hfork := h Fork.entering.links Fork.leaving.links .wildcard (.single 0) (.single 1) .wildcard
    Fork.entering Fork.leaving rfl rfl
  revert hfork
  decide

end LinkClosure
