import LinkClosure.Level
import LinkClosure.Proofs.Sorted

/-!
# Merging does not depend on the order

Alternatives between the same two variables are merged on every layer: areas,
links, linkages, causes and levels. On each of them merging is commutative,
associative and idempotent, for all values, also for those that stored data may
bring in. Hence a list of alternatives has one merge, whatever the order in which
they arrive and however often.
-/

set_option autoImplicit false

namespace LinkClosure

namespace SortedSet

variable {α : Type} [Ord α] [Std.TransOrd α] [Std.LawfulEqOrd α]

omit [Std.TransOrd α] [Std.LawfulEqOrd α] in
theorem mem_singleton {a x : α} : x ∈ singleton a ↔ x = a := List.mem_singleton

theorem union_eq_singleton {s t : SortedSet α} {a : α} (h : s.union t = singleton a) :
    s = singleton a ∨ t = singleton a := by
  have hmem : ∀ x, x ∈ s ∨ x ∈ t ↔ x = a := by
    intro x
    rw [← mem_union, h, mem_singleton]
  rcases (hmem a).2 rfl with ha | ha
  · refine .inl (ext_mem fun x => ?_)
    rw [mem_singleton]
    exact ⟨fun hx => (hmem x).1 (.inl hx), fun hx => hx ▸ ha⟩
  · refine .inr (ext_mem fun x => ?_)
    rw [mem_singleton]
    exact ⟨fun hx => (hmem x).1 (.inr hx), fun hx => hx ▸ ha⟩

end SortedSet

namespace CoordinateSet

theorem isSingle_iff {s : CoordinateSet} {c : Coordinate} :
    (s.toList == [c]) = true ↔ s = ofCoordinate c := by
  obtain ⟨members⟩ := s
  rw [beq_iff_eq, ofCoordinate, mk.injEq, ← SortedSet.toList_inj]
  rfl

theorem isWildcard_iff {s : CoordinateSet} : s.isWildcard = true ↔ s = wildcard := isSingle_iff

theorem isUnmodified_iff {s : CoordinateSet} : s.isUnmodified = true ↔ s = unmodified :=
  isSingle_iff

def Plain (s : CoordinateSet) : Prop := s ≠ wildcard ∧ s ≠ unmodified

theorem wildcard_or_unmodified_or_plain (s : CoordinateSet) :
    s = wildcard ∨ s = unmodified ∨ s.Plain := by
  by_cases hw : s = wildcard
  · exact .inl hw
  by_cases hu : s = unmodified
  · exact .inr (.inl hu)
  · exact .inr (.inr ⟨hw, hu⟩)

theorem wildcard_merge (s : CoordinateSet) : wildcard.merge s = wildcard := by
  have hw : wildcard.isWildcard = true := rfl
  simp [merge, hw]

theorem merge_wildcard (s : CoordinateSet) : s.merge wildcard = wildcard := by
  have hw : wildcard.isWildcard = true := rfl
  simp [merge, hw]

theorem unmodified_merge (s : CoordinateSet) : unmodified.merge s = s := by
  by_cases hs : s.isWildcard = true
  · rw [isWildcard_iff.1 hs, merge_wildcard]
  · have hu : unmodified.isUnmodified = true := rfl
    have hw : unmodified.isWildcard = false := by decide
    simp [merge, hu, hw, hs]

theorem merge_unmodified (s : CoordinateSet) : s.merge unmodified = s := by
  by_cases hs : s.isWildcard = true
  · rw [isWildcard_iff.1 hs, wildcard_merge]
  by_cases hm : s.isUnmodified = true
  · rw [isUnmodified_iff.1 hm, unmodified_merge]
  · have hu : unmodified.isUnmodified = true := rfl
    have hw : unmodified.isWildcard = false := by decide
    simp [merge, hu, hw, hs, hm]

theorem merge_of_plain {s t : CoordinateSet} (hs : s.Plain) (ht : t.Plain) :
    s.merge t = ⟨s.members.union t.members⟩ := by
  have hsw : ¬ s.isWildcard = true := fun h => hs.1 (isWildcard_iff.1 h)
  have hsu : ¬ s.isUnmodified = true := fun h => hs.2 (isUnmodified_iff.1 h)
  have htw : ¬ t.isWildcard = true := fun h => ht.1 (isWildcard_iff.1 h)
  have htu : ¬ t.isUnmodified = true := fun h => ht.2 (isUnmodified_iff.1 h)
  simp [merge, hsw, hsu, htw, htu]

theorem eq_single_of_union {s t : CoordinateSet} {c : Coordinate}
    (h : (⟨s.members.union t.members⟩ : CoordinateSet) = ofCoordinate c) :
    s = ofCoordinate c ∨ t = ofCoordinate c := by
  obtain ⟨s⟩ := s
  obtain ⟨t⟩ := t
  simpa [ofCoordinate] using SortedSet.union_eq_singleton (congrArg members h)

theorem plain_merge {s t : CoordinateSet} (hs : s.Plain) (ht : t.Plain) : (s.merge t).Plain := by
  rw [merge_of_plain hs ht]
  constructor
  · intro h
    exact (eq_single_of_union h).elim hs.1 ht.1
  · intro h
    exact (eq_single_of_union h).elim hs.2 ht.2

theorem merge_comm (s t : CoordinateSet) : s.merge t = t.merge s := by
  rcases s.wildcard_or_unmodified_or_plain with rfl | rfl | hs
  · rw [wildcard_merge, merge_wildcard]
  · rw [unmodified_merge, merge_unmodified]
  rcases t.wildcard_or_unmodified_or_plain with rfl | rfl | ht
  · rw [wildcard_merge, merge_wildcard]
  · rw [unmodified_merge, merge_unmodified]
  · rw [merge_of_plain hs ht, merge_of_plain ht hs, SortedSet.union_comm]

theorem merge_assoc (s t u : CoordinateSet) : (s.merge t).merge u = s.merge (t.merge u) := by
  rcases s.wildcard_or_unmodified_or_plain with rfl | rfl | hs
  · simp only [wildcard_merge]
  · simp only [unmodified_merge]
  rcases t.wildcard_or_unmodified_or_plain with rfl | rfl | ht
  · simp only [wildcard_merge, merge_wildcard]
  · simp only [unmodified_merge, merge_unmodified]
  rcases u.wildcard_or_unmodified_or_plain with rfl | rfl | hu
  · simp only [merge_wildcard]
  · simp only [merge_unmodified]
  rw [merge_of_plain (plain_merge hs ht) hu, merge_of_plain hs (plain_merge ht hu),
    merge_of_plain hs ht, merge_of_plain ht hu, SortedSet.union_assoc]

theorem merge_self (s : CoordinateSet) : s.merge s = s := by
  rcases s.wildcard_or_unmodified_or_plain with rfl | rfl | hs
  · exact wildcard_merge _
  · exact unmodified_merge _
  · rw [merge_of_plain hs hs, SortedSet.union_self]

end CoordinateSet

namespace Link

theorem merge_comm (l k : Link) : l.merge k = k.merge l := by
  simp only [merge, CoordinateSet.merge_comm l.target, Bool.or_comm l.isMutable]

theorem merge_assoc (l k j : Link) : (l.merge k).merge j = l.merge (k.merge j) := by
  simp only [merge, CoordinateSet.merge_assoc, Bool.or_assoc]

theorem merge_self (l : Link) : l.merge l = l := by
  simp only [merge, CoordinateSet.merge_self, Bool.or_self]

end Link

namespace Linkage

theorem merge_comm (m n : Linkage) : m.merge n = n.merge m := by
  simp only [merge, SortedMap.unionWith_comm Link.merge_comm m.links,
    CoordinateSet.merge_comm m.sourceArea, CoordinateSet.merge_comm m.targetArea]

theorem merge_assoc (m n o : Linkage) : (m.merge n).merge o = m.merge (n.merge o) := by
  simp only [merge, SortedMap.unionWith_assoc Link.merge_assoc, CoordinateSet.merge_assoc]

theorem merge_self (m : Linkage) : m.merge m = m := by
  simp only [merge, SortedMap.unionWith_self Link.merge_self, CoordinateSet.merge_self]

theorem mem_keys_merge (m n : Linkage) (k : CoordinateSet) :
    k ∈ (m.merge n).links.keys ↔ k ∈ m.links.keys ∨ k ∈ n.links.keys :=
  SortedMap.mem_keys_unionWith Link.merge m.links n.links k

theorem isEmpty_eq_false {m : Linkage} : m.isEmpty = false ↔ ∃ k, k ∈ m.links.keys := by
  rw [isEmpty, SortedMap.isEmpty, List.isEmpty_eq_false_iff_exists_mem]
  simp only [SortedMap.keys, List.mem_map]
  constructor
  · rintro ⟨x, hx⟩
    exact ⟨x.1, x, hx, rfl⟩
  · rintro ⟨_, x, hx, _⟩
    exact ⟨x, hx⟩

end Linkage

namespace Causes

theorem merge_comm (c d : Causes) : c.merge d = d.merge c := by
  simp only [merge, SortedSet.union_comm c.labels]

theorem merge_assoc (c d e : Causes) : (c.merge d).merge e = c.merge (d.merge e) := by
  simp only [merge, SortedSet.union_assoc]

theorem merge_self (c : Causes) : c.merge c = c := by
  simp only [merge, SortedSet.union_self]

end Causes

namespace Level

theorem min_comm (a b : Level) : a.min b = b.min a := by
  cases a <;> cases b <;>
    simp [min, rank, Causes.merge_comm, Linkage.merge_comm]

theorem min_assoc (a b c : Level) : (a.min b).min c = a.min (b.min c) := by
  cases a <;> cases b <;> cases c <;>
    simp [min, rank, Causes.merge_assoc, Linkage.merge_assoc]

theorem min_self (a : Level) : a.min a = a := by
  cases a <;> simp [min, rank, Causes.merge_self, Linkage.merge_self]

theorem static_min (a : Level) : staticallyAssigned.min a = staticallyAssigned := by
  cases a <;> rfl

theorem independent_min (a : Level) : independent.min a = a := by
  cases a <;> rfl

/-- The place of a level among the kinds, the strongest first. A delay stands between
static assignment and assignment here. -/
def standing : Level → Nat
  | staticallyAssigned => 0
  | delayed _ => 1
  | assigned => 2
  | dependent _ => 3
  | commonHidden _ => 4
  | independent => 5

theorem standing_min (a b : Level) : (a.min b).standing = Nat.min a.standing b.standing := by
  cases a <;> cases b <;> rfl

end Level

/-- Neither order nor number of the alternatives matters to the operation. -/
structure Semilattice {α : Type} (merge : α → α → α) : Prop extends
  Std.Commutative merge, Std.Associative merge, Std.IdempotentOp merge

def combine {α : Type} (merge : α → α → α) (as : List α) : Option α :=
  as.foldr (fun a rest => (some a).merge merge rest) none

section Combining

variable {α : Type} {merge : α → α → α} {a : α} {as bs : List α}

theorem combine_cons (a : α) (as : List α) :
    combine merge (a :: as) = (some a).merge merge (combine merge as) := rfl

namespace Semilattice

variable (h : Semilattice merge)

include h

theorem option_assoc (a b c : Option α) :
    (a.merge merge b).merge merge c = a.merge merge (b.merge merge c) :=
  have := h.toAssociative
  Std.Associative.assoc a b c

theorem option_comm (a b : Option α) : a.merge merge b = b.merge merge a :=
  have := h.toCommutative
  Std.Commutative.comm a b

theorem merge_combine_of_mem (ha : a ∈ as) :
    (some a).merge merge (combine merge as) = combine merge as := by
  induction as with
  | nil => cases ha
  | cons b as ih =>
    rw [combine_cons]
    by_cases hab : a = b
    · rw [hab, ← h.option_assoc, Option.merge_some_some, h.idempotent]
    · have hmem := (List.mem_cons.1 ha).resolve_left hab
      have hswap : (some a).merge merge ((some b).merge merge (combine merge as)) =
          (some b).merge merge ((some a).merge merge (combine merge as)) := by
        rw [← h.option_assoc, h.option_comm (some a) (some b), h.option_assoc]
      rw [hswap, ih hmem]

theorem merge_combine_of_subset (hsub : as ⊆ bs) :
    (combine merge as).merge merge (combine merge bs) = combine merge bs := by
  induction as with
  | nil => exact Option.merge_none_left
  | cons a as ih =>
    obtain ⟨ha, hrest⟩ := List.cons_subset.1 hsub
    rw [combine_cons, h.option_assoc, ih hrest, h.merge_combine_of_mem ha]

/-- The combination depends on which alternatives there are, not on order or number. -/
theorem combine_congr (hab : as ⊆ bs) (hba : bs ⊆ as) : combine merge as = combine merge bs := by
  rw [← h.merge_combine_of_subset hab, h.option_comm, h.merge_combine_of_subset hba]

end Semilattice

end Combining

namespace SortedMap

variable {α β : Type} [Ord α] [Std.TransOrd α] [Std.LawfulEqOrd α] [DecidableEq α]
  {join : β → β → β}

def valuesAt (k : α) (l : List (α × β)) : List β := (l.filter (·.1 = k)).map Prod.snd

omit [Ord α] [Std.TransOrd α] [Std.LawfulEqOrd α] in
theorem mem_valuesAt {k : α} {v : β} {l : List (α × β)} : v ∈ valuesAt k l ↔ (k, v) ∈ l := by
  simp [valuesAt]

theorem get?_foldl_insertWith_all (hjoin : ∀ u v w, join (join u v) w = join u (join v w))
    (m : SortedMap α β) (k : α) (l : List (α × β)) :
    (l.foldl (fun acc e => acc.insertWith join e.1 e.2) m).get? k =
      (m.get? k).merge join (combine join (valuesAt k l)) := by
  have hassoc : ∀ a b c : Option β,
      (a.merge join b).merge join c = a.merge join (b.merge join c) :=
    have : Std.Associative join := ⟨hjoin⟩
    Std.Associative.assoc
  induction l generalizing m with
  | nil => exact (Option.merge_none_right).symm
  | cons e rest ih =>
    rw [List.foldl_cons, ih, get?_insertWith]
    by_cases hk : k = e.1
    · have hvalues : valuesAt k (e :: rest) = e.2 :: valuesAt k rest := by simp [valuesAt, hk]
      rw [hvalues, combine_cons, ← hassoc, if_pos hk, ← hk]
      cases m.get? k <;> rfl
    · have hvalues : valuesAt k (e :: rest) = valuesAt k rest := by simp [valuesAt, Ne.symm hk]
      rw [hvalues, if_neg hk]

theorem get?_ofListWith (hjoin : ∀ u v w, join (join u v) w = join u (join v w))
    (l : List (α × β)) (k : α) :
    (ofListWith join l).get? k = combine join (valuesAt k l) := by
  rw [ofListWith, get?_foldl_insertWith_all hjoin, get?_empty, Option.merge_none_left]

end SortedMap

/-- Levels, linkages and coordinate sets are semilattices under their merging, whatever they
hold. Among the levels static assignment absorbs, the independent level is neutral,
and the stronger kind stays. -/
theorem merging_is_semilattice :
    Semilattice Level.min ∧
      (∀ a : Level, Level.staticallyAssigned.min a = .staticallyAssigned ∧
        a.min .staticallyAssigned = .staticallyAssigned) ∧
      (∀ a : Level, Level.independent.min a = a ∧ a.min .independent = a) ∧
      (∀ a b : Level, (a.min b).standing = Nat.min a.standing b.standing) ∧
      Semilattice Linkage.merge ∧ Semilattice CoordinateSet.merge := by
  refine ⟨?_, ?_, ?_, Level.standing_min, ?_, ?_⟩
  · exact ⟨⟨Level.min_comm⟩, ⟨Level.min_assoc⟩, ⟨Level.min_self⟩⟩
  · intro a
    rw [Level.min_comm a, Level.static_min]
    exact ⟨rfl, rfl⟩
  · intro a
    rw [Level.min_comm a, Level.independent_min]
    exact ⟨rfl, rfl⟩
  · exact ⟨⟨Linkage.merge_comm⟩, ⟨Linkage.merge_assoc⟩, ⟨Linkage.merge_self⟩⟩
  · exact ⟨⟨CoordinateSet.merge_comm⟩, ⟨CoordinateSet.merge_assoc⟩, ⟨CoordinateSet.merge_self⟩⟩

end LinkClosure
