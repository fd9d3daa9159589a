import LinkClosure.Proofs.Graph.Built
import LinkClosure.Proofs.Reversal

/-!
# Rules for coordinate sets

A coordinate set should have members, none of them an empty path, and hold the
wildcard only on its own. Sets of stored data need not keep these rules. Those
that do are merged and nested to sets that do, since the wildcard absorbs what it
is merged with and nested paths have at least two positions.

A rule for coordinate sets is one for levels as well: all sets that a level
speaks of keep it, the ends of its links and both areas. What the given levels
keep and combining and reversing preserve, all stored levels keep.
-/

set_option autoImplicit false

namespace LinkClosure

namespace CoordinateSet

variable {s t : CoordinateSet} {c : Coordinate}

/-- There are members, and none is an empty path. -/
structure Filled (s : CoordinateSet) : Prop where
  nonempty : s.toList ≠ []
  paths : ∀ c ∈ s.toList, c.segments ≠ []

/-- Besides, the wildcard is no member unless it is the only one. -/
structure Sound (s : CoordinateSet) : Prop extends s.Filled where
  alone : Coordinate.wildcard ∈ s.toList → s = wildcard

/-- A rule that the wildcard keeps, and that merging and nesting preserve. -/
structure Stable (P : CoordinateSet → Prop) : Prop where
  wildcard : P .wildcard
  merge : ∀ s t, P s → P t → P (s.merge t)
  under : ∀ s t, P s → P t → P (s.under t)

instance : DecidablePred Filled := fun s =>
  decidable_of_iff (s.toList ≠ [] ∧ ∀ c ∈ s.toList, c.segments ≠ [])
    ⟨fun h => ⟨h.1, h.2⟩, fun h => ⟨h.nonempty, h.paths⟩⟩

instance : DecidablePred Sound := fun s =>
  decidable_of_iff (s.Filled ∧ (Coordinate.wildcard ∈ s.toList → s = wildcard))
    ⟨fun h => ⟨h.1, h.2⟩, fun h => ⟨h.toFilled, h.alone⟩⟩

theorem merge_cases (s t : CoordinateSet) :
    s.merge t = wildcard ∨ s.merge t = s ∨ s.merge t = t ∨
      s.Plain ∧ t.Plain ∧ s.merge t = ⟨s.members.union t.members⟩ := by
  rcases s.wildcard_or_unmodified_or_plain with rfl | rfl | hs
  · exact .inl (wildcard_merge t)
  · exact .inr (.inr (.inl (unmodified_merge t)))
  rcases t.wildcard_or_unmodified_or_plain with rfl | rfl | ht
  · exact .inl (merge_wildcard s)
  · exact .inr (.inl (merge_unmodified s))
  · exact .inr (.inr (.inr ⟨hs, ht, merge_of_plain hs ht⟩))

theorem mem_union : c ∈ toList ⟨s.members.union t.members⟩ ↔ c ∈ s.toList ∨ c ∈ t.toList :=
  SortedSet.mem_union

theorem mem_under :
    c ∈ (s.under t).toList ↔ ∃ o ∈ s.toList, ∃ i ∈ t.toList, o.under i = c := by
  have hstored : c ∈ (s.under t).toList ↔
      c ∈ s.toList.flatMap fun o => t.toList.map (Coordinate.under o) := SortedSet.mem_ofList
  simp only [hstored, List.mem_flatMap, List.mem_map]

theorem Filled.merge (hs : s.Filled) (ht : t.Filled) : (s.merge t).Filled := by
  rcases merge_cases s t with h | h | h | ⟨_, _, h⟩
  · rw [h]
    decide
  · rwa [h]
  · rwa [h]
  · rw [h]
    constructor
    · obtain ⟨c, hc⟩ := List.exists_mem_of_ne_nil _ hs.nonempty
      exact List.ne_nil_of_mem (mem_union.2 (.inl hc))
    · intro c hc
      exact (mem_union.1 hc).elim (hs.paths c) (ht.paths c)

theorem Filled.under (hs : s.Filled) (ht : t.Filled) : (s.under t).Filled := by
  constructor
  · obtain ⟨o, ho⟩ := List.exists_mem_of_ne_nil _ hs.nonempty
    obtain ⟨i, hi⟩ := List.exists_mem_of_ne_nil _ ht.nonempty
    exact List.ne_nil_of_mem (mem_under.2 ⟨o, ho, i, hi, rfl⟩)
  · intro c hc
    obtain ⟨o, ho, i, _, rfl⟩ := mem_under.1 hc
    exact List.append_ne_nil_of_left_ne_nil (hs.paths o ho) i.segments

theorem Sound.merge (hs : s.Sound) (ht : t.Sound) : (s.merge t).Sound := by
  refine ⟨hs.toFilled.merge ht.toFilled, ?_⟩
  rcases merge_cases s t with h | h | h | ⟨hps, hpt, h⟩
  · exact fun _ => h
  · rw [h]
    exact hs.alone
  · rw [h]
    exact ht.alone
  · rw [h]
    intro hmem
    rcases mem_union.1 hmem with hmem | hmem
    · exact absurd (hs.alone hmem) hps.1
    · exact absurd (ht.alone hmem) hpt.1

theorem Sound.under (hs : s.Sound) (ht : t.Sound) : (s.under t).Sound := by
  refine ⟨hs.toFilled.under ht.toFilled, ?_⟩
  intro hmem
  obtain ⟨o, ho, i, hi, heq⟩ := mem_under.1 hmem
  have hlength : o.segments.length + i.segments.length = 1 := by
    rw [← List.length_append]
    exact congrArg (fun c => c.segments.length) heq
  have houter := List.length_pos_iff.2 (hs.paths o ho)
  have hinner := List.length_pos_iff.2 (ht.paths i hi)
  omega

theorem stable_filled : Stable Filled where
  wildcard := by decide
  merge _ _ := Filled.merge
  under _ _ := Filled.under

theorem stable_sound : Stable Sound where
  wildcard := by decide
  merge _ _ := Sound.merge
  under _ _ := Sound.under

end CoordinateSet

open CoordinateSet

namespace Linkage

variable {P : CoordinateSet → Prop} {m n : Linkage}

structure Over (P : CoordinateSet → Prop) (m : Linkage) : Prop where
  links : ∀ e ∈ m.entries, P e.1 ∧ P e.2.target
  source : P m.sourceArea
  target : P m.targetArea

instance [DecidablePred P] : DecidablePred (Over P) := fun m =>
  decidable_of_iff
    ((∀ e ∈ m.entries, P e.1 ∧ P e.2.target) ∧ P m.sourceArea ∧ P m.targetArea)
    ⟨fun h => ⟨h.1, h.2.1, h.2.2⟩, fun h => ⟨h.links, h.source, h.target⟩⟩

theorem Over.empty (hP : Stable P) : Linkage.empty.Over P where
  links e he := by cases he
  source := hP.wildcard
  target := hP.wildcard

theorem over_merge_links (hP : Stable P) (k : CoordinateSet) (l j : Link)
    (hl : P k ∧ P l.target) (hj : P k ∧ P j.target) : P k ∧ P (l.merge j).target :=
  ⟨hl.1, hP.merge _ _ hl.2 hj.2⟩

theorem Over.merge (hP : Stable P) (hm : m.Over P) (hn : n.Over P) : (m.merge n).Over P where
  links := SortedMap.forall_foldl_insertWith (Q := fun k (l : Link) => P k ∧ P l.target)
    (over_merge_links hP) hn.links hm.links
  source := hP.merge _ _ hm.source hn.source
  target := hP.merge _ _ hm.target hn.target

theorem Over.reverse (hP : Stable P) (hm : m.Over P) : m.reverse.Over P where
  links := by
    apply SortedMap.forall_ofListWith (Q := fun k (l : Link) => P k ∧ P l.target) (over_merge_links hP)
    intro e he
    obtain ⟨x, hx, rfl⟩ := List.mem_map.1 he
    exact (hm.links x hx).symm
  source := hm.target
  target := hm.source

end Linkage

namespace Level

variable {P : CoordinateSet → Prop} {a b : Level}

def Over (P : CoordinateSet → Prop) (l : Level) : Prop := ∀ m ∈ l.linkage?, m.Over P

instance [DecidablePred P] : DecidablePred (Over P) := fun l =>
  inferInstanceAs (Decidable (∀ m ∈ l.linkage?, m.Over P))

theorem Over.min (hP : Stable P) (ha : a.Over P) (hb : b.Over P) : (a.min b).Over P := by
  cases a <;> cases b
  case dependent.dependent m n =>
    rintro _ ⟨⟩
    exact (ha m rfl).merge hP (hb n rfl)
  case commonHidden.commonHidden m n =>
    rintro _ ⟨⟩
    exact (ha m rfl).merge hP (hb n rfl)
  all_goals first | exact ha | exact hb

theorem Over.reverse (hP : Stable P) (ha : a.Over P) : a.reverse.Over P := by
  intro m hm
  rw [linkage?_reverse] at hm
  obtain ⟨n, hn, rfl⟩ := Option.map_eq_some_iff.1 hm
  exact (ha n hn).reverse hP

end Level

namespace Graph

variable {P : Level → Prop} {g g' : Graph} {u v : Variable} {l : Level}

def Stores (P : Level → Prop) (g : Graph) : Prop := ∀ u v l, g.level? u v = some l → P l

/-- A sort of levels that is kept when levels are combined and reversed. -/
structure Lasting (P : Level → Prop) : Prop where
  min : ∀ a b, P a → P b → P (a.min b)
  reverse : ∀ a, P a → P a.reverse

theorem lasting_over {P : CoordinateSet → Prop} (hP : Stable P) : Lasting (Level.Over P) where
  min _ _ ha hb := ha.min hP hb
  reverse _ ha := ha.reverse hP

theorem Stores.joinEdge (hP : Lasting P) (h : g.Stores P) (hl : P l) :
    (g.joinEdge u v l).Stores P := by
  intro a b m hm
  rw [level?_joinEdge] at hm
  split_ifs at hm
  · cases hold : g.level? u v with
    | none =>
      rw [hold, Option.merge_none_left] at hm
      rwa [← Option.some.inj hm]
    | some k =>
      rw [hold, Option.merge_some_some] at hm
      rw [← Option.some.inj hm]
      exact hP.min k l (h u v k hold) hl
  · exact h a b m hm

theorem Stores.insertNode (h : g.Stores P) (w : Variable) : (g.insertNode w).Stores P := by
  intro a b m hm
  rw [level?_insertNode] at hm
  exact h a b m hm

theorem Stores.insertEdge (hP : Lasting P) (h : g.Stores P) (hl : P l) :
    (g.insertEdge u v l).Stores P := by
  have hout : ((g.joinEdge u v l).insertNode v).Stores P := (h.joinEdge hP hl).insertNode v
  simp only [Graph.insertEdge]
  split_ifs
  · exact hout
  · apply hout.joinEdge hP
    apply hP.reverse
    cases hlevel : ((g.joinEdge u v l).insertNode v).level? u v with
    | none => exact hl
    | some m => exact hout u v m hlevel

theorem Stores.insertEdges (hP : Lasting P) (es : List (Variable × Level)) (h : g.Stores P)
    (hes : ∀ e ∈ es, P e.2) : (es.foldl (fun g e => g.insertEdge u e.1 e.2) g).Stores P := by
  induction es generalizing g with
  | nil => exact h
  | cons e es ih =>
    obtain ⟨he, hrest⟩ := List.forall_mem_cons.1 hes
    exact ih (h.insertEdge hP he) hrest

theorem Stores.add (hP : Lasting P) (h : g.Stores P) {es : List (Variable × Level)}
    (hes : ∀ e ∈ es, P e.2) (hadd : g.add v es = .ok g') : g'.Stores P := by
  obtain ⟨_, _, rfl⟩ := add_eq_ok hadd
  exact (h.insertNode v).insertEdges hP es hes

/-- What holds of all levels that are given holds of all levels that are stored. -/
theorem stores_of_given (hP : Lasting P) {as : List (Variable × List (Variable × Level))}
    (h : ofAdditions as = .ok g) (hgiven : ∀ a ∈ as, ∀ e ∈ a.2, P e.2) : g.Stores P := by
  have hall : ∀ g₀ : Graph, g₀.Stores P →
      as.foldlM (fun g a => g.add a.1 a.2) g₀ = .ok g → g.Stores P := by
    clear h
    induction as with
    | nil =>
      intro g₀ h₀ h
      rwa [← Except.ok.inj h]
    | cons a as ih =>
      intro g₀ h₀ h
      obtain ⟨ha, hrest⟩ := List.forall_mem_cons.1 hgiven
      obtain ⟨g₁, hadd, hadds⟩ := additions_cons h
      exact ih hrest g₁ (h₀.add hP ha hadd) hadds
  apply hall empty _ h
  intro u v l hl
  cases hl

end Graph

end LinkClosure
