import LinkClosure.Proofs.Reversal
import Mathlib.Data.List.Nodup
import Mathlib.Data.List.Perm.Subperm
import Mathlib.Tactic.ByContra
import Mathlib.Tactic.SplitIfs

/-!
# Linkages that pass the check

What the check lets pass can be said of any two links: they have different
targets, at most one of them touches the wildcard, and a link from the wildcard
to the wildcard has no other beside it. None of this tells the two ends of a link
apart. So the reverse of a linkage that passes, passes too.

Reversing twice gives a linkage back if no two links share a target, and only
then: each shared target costs a link that does not come back.
-/

set_option autoImplicit false

namespace LinkClosure

theorem length_le_one_iff {α : Type} {l : List α} (h : l.Nodup) :
    l.length ≤ 1 ↔ ∀ a ∈ l, ∀ b ∈ l, a = b := by
  match l, h with
  | [], _ => simp
  | [a], _ => simp
  | a :: b :: l, h =>
    constructor
    · intro hlength
      simp at hlength
    · intro hall
      have hab : a = b := hall a (by simp) b (by simp)
      simp [hab] at h

namespace Linkage

variable {m : Linkage} {e e' : CoordinateSet × Link}

theorem nodup_entries (m : Linkage) : m.entries.Nodup :=
  List.Nodup.of_map Prod.fst m.links.nodup_keys

theorem concordant_self_iff : m.Concordant m ↔ m.targets.Nodup := by
  rw [targets_eq, List.nodup_map_iff_inj_on m.nodup_entries]
  constructor
  · intro h e he e' he' htarget
    have hsource : e.1 = e'.1 := (h e he e' he').2 htarget
    rw [mem_entries] at he he'
    rw [hsource, he'] at he
    exact Prod.ext hsource (Option.some.inj he).symm
  · intro h e he e' he'
    constructor
    · intro hsource
      rw [mem_entries] at he he'
      rw [hsource, he'] at he
      rw [Option.some.inj he]
    · intro htarget
      rw [h e he e' he' htarget]

section Check

theorem firstRepeated?_eq_none {seen ts : List CoordinateSet} :
    firstRepeated? seen ts = none ↔ ts.Nodup ∧ ∀ t ∈ ts, t ∉ seen := by
  induction ts generalizing seen with
  | nil => simp [firstRepeated?]
  | cons t ts ih =>
    rw [firstRepeated?]
    split_ifs with hseen
    · simp [hseen]
    · rw [ih]
      constructor
      · rintro ⟨hnodup, hnew⟩
        refine ⟨List.nodup_cons.2 ⟨fun ht => hnew t ht List.mem_cons_self, hnodup⟩, ?_⟩
        rw [List.forall_mem_cons]
        exact ⟨hseen, fun k hk hks => hnew k hk (List.mem_cons_of_mem t hks)⟩
      · rintro ⟨hnodup, hnew⟩
        obtain ⟨ht, hnodup⟩ := List.nodup_cons.1 hnodup
        refine ⟨hnodup, fun k hk => ?_⟩
        rw [List.mem_cons, not_or]
        exact ⟨fun h => ht (h ▸ hk), hnew k (List.mem_cons_of_mem t hk)⟩

def TouchesWildcard (e : CoordinateSet × Link) : Prop := e.1 = .wildcard ∨ e.2.target = .wildcard

/-- What the check lets pass. -/
structure Tidy (m : Linkage) : Prop where
  concordant : m.Concordant m
  touching : ∀ e ∈ m.entries, ∀ e' ∈ m.entries, TouchesWildcard e → TouchesWildcard e' → e = e'
  alone : ∀ e ∈ m.entries, e.1 = .wildcard → e.2.target = .wildcard → ∀ e' ∈ m.entries, e' = e

theorem loops_alone :
    ((m.entries.any fun e => e.1.isWildcard && e.2.target.isWildcard) &&
        decide (1 < m.entries.length)) = false ↔
      ∀ e ∈ m.entries, e.1 = .wildcard → e.2.target = .wildcard → ∀ e' ∈ m.entries, e' = e := by
  rw [← Bool.not_eq_true, Bool.and_eq_true, List.any_eq_true, decide_eq_true_eq, ← Nat.not_le,
    length_le_one_iff m.nodup_entries]
  simp only [Bool.and_eq_true, CoordinateSet.isWildcard_iff]
  constructor
  · intro h e he hsource htarget e' he'
    by_contra hne
    exact h ⟨⟨e, he, hsource, htarget⟩, fun hall => hne (hall e' he' e he)⟩
  · rintro h ⟨⟨e, he, hsource, htarget⟩, hnot⟩
    apply hnot
    intro a ha b hb
    rw [h e he hsource htarget a ha, h e he hsource htarget b hb]

theorem touching_once :
    (m.entries.filter fun e => e.1.isWildcard || e.2.target.isWildcard).length ≤ 1 ↔
      ∀ e ∈ m.entries, ∀ e' ∈ m.entries, TouchesWildcard e → TouchesWildcard e' → e = e' := by
  rw [length_le_one_iff (m.nodup_entries.filter _)]
  simp only [List.mem_filter, Bool.or_eq_true, CoordinateSet.isWildcard_iff]
  constructor
  · intro h e he e' he' htouch htouch'
    exact h e ⟨he, htouch⟩ e' ⟨he', htouch'⟩
  · rintro h e ⟨he, htouch⟩ e' ⟨he', htouch'⟩
    exact h e he e' he' htouch htouch'

theorem check_eq_ok_iff : check m.links = .ok () ↔ m.Tidy := by
  have hnodup : firstRepeated? [] (m.links.values.map Link.target) = none ↔ m.Concordant m := by
    rw [firstRepeated?_eq_none, concordant_self_iff]
    simp [targets]
  simp only [check]
  constructor
  · intro h
    split_ifs at h with hloop htouch
    split at h
    · cases h
    · next hnone =>
      exact ⟨hnodup.1 hnone, touching_once.1 (Nat.not_lt.1 htouch),
        loops_alone.1 (Bool.eq_false_iff.2 hloop)⟩
  · intro h
    split_ifs with hloop htouch
    · exact absurd hloop (Bool.eq_false_iff.1 (loops_alone.2 h.alone))
    · exact absurd htouch (Nat.not_lt.2 (touching_once.2 h.touching))
    · rw [hnodup.2 h.concordant]

theorem ofLinks_eq_ok {links : SortedMap CoordinateSet Link} {source target : CoordinateSet} :
    ofLinks links source target = .ok m ↔
      m.Tidy ∧ m.links = links ∧ m.sourceArea = source ∧ m.targetArea = target := by
  rw [ofLinks]
  cases hcheck : check links with
  | error err =>
    simp only [Except.map, reduceCtorEq, false_iff]
    rintro ⟨htidy, rfl, _⟩
    rw [check_eq_ok_iff.2 htidy] at hcheck
    cases hcheck
  | ok _ =>
    simp only [Except.map, Except.ok.injEq]
    constructor
    · rintro rfl
      exact ⟨check_eq_ok_iff.1 hcheck, rfl, rfl, rfl⟩
    · rintro ⟨_, rfl, rfl, rfl⟩
      rfl

end Check

section Reversing

def mirrored (e : CoordinateSet × Link) : CoordinateSet × Link :=
  (e.2.target, ⟨e.1, e.2.isMutable⟩)

theorem mirrored_inj (h : mirrored e = mirrored e') : e = e' := by
  obtain ⟨x, y, b⟩ := e
  obtain ⟨x', y', b'⟩ := e'
  simp_all [mirrored]

theorem mem_entries_reverse (hm : m.Concordant m) :
    e ∈ m.reverse.entries ↔ mirrored e ∈ m.entries := by
  rw [mem_entries, mem_entries]
  exact get?_reverse hm

theorem touchesWildcard_mirrored (h : TouchesWildcard e) : TouchesWildcard (mirrored e) := h.symm

theorem Tidy.reverse (h : m.Tidy) : m.reverse.Tidy where
  concordant := h.concordant.reverse h.concordant h.concordant
  touching e he e' he' htouch htouch' := by
    rw [mem_entries_reverse h.concordant] at he he'
    apply mirrored_inj
    exact h.touching _ he _ he' (touchesWildcard_mirrored htouch) (touchesWildcard_mirrored htouch')
  alone e he hsource htarget e' he' := by
    rw [mem_entries_reverse h.concordant] at he he'
    apply mirrored_inj
    exact h.alone _ he htarget hsource _ he'

theorem keys_reverse_subperm (m : Linkage) : m.reverse.links.keys.Subperm m.targets := by
  apply m.reverse.links.nodup_keys.subperm
  intro t ht
  exact mem_keys_reverse.1 ht

theorem length_targets (m : Linkage) : m.targets.length = m.links.keys.length := by
  rw [targets_eq, SortedMap.keys, List.length_map, List.length_map]
  rfl

theorem reverse_reverse_iff : m.reverse.reverse = m ↔ m.Concordant m := by
  constructor
  · intro h
    have hback : m.targets.length ≤ m.reverse.links.keys.length := by
      calc m.targets.length = m.reverse.reverse.links.keys.length := by rw [h, length_targets]
        _ ≤ m.reverse.targets.length := m.reverse.keys_reverse_subperm.length_le
        _ = m.reverse.links.keys.length := length_targets _
    rw [concordant_self_iff]
    exact (m.keys_reverse_subperm.perm_of_length_le hback).nodup m.reverse.links.nodup_keys
  · exact reverse_reverse

end Reversing

end Linkage

theorem Level.concordant_of_linkage? {l : Level} {m : Linkage} (hl : l.linkage? = some m)
    (hm : m.Concordant m) : l.Concordant l := by
  rcases linkage?_eq_some.1 hl with rfl | rfl
  · exact hm
  · exact hm

/-- Reversing undoes itself on the linkages without shared targets, and on no others. All
that pass the check are among them; their reverse passes with the areas swapped, and
the levels made of them are given back by reversing twice. -/
theorem reversing_twice (m : Linkage) :
    (m.reverse.reverse = m ↔
      ∀ e ∈ m.entries, ∀ e' ∈ m.entries, e.2.target = e'.2.target → e = e') ∧
    ∀ links source target, Linkage.ofLinks links source target = .ok m →
      (∀ e ∈ m.entries, ∀ e' ∈ m.entries, e.2.target = e'.2.target → e = e') ∧
        Linkage.ofLinks m.reverse.links target source = .ok m.reverse ∧
        ∀ l : Level, l.linkage? = some m → l.reverse.reverse = l := by
  have hshared : m.Concordant m ↔
      ∀ e ∈ m.entries, ∀ e' ∈ m.entries, e.2.target = e'.2.target → e = e' := by
    rw [Linkage.concordant_self_iff, Linkage.targets_eq, List.nodup_map_iff_inj_on m.nodup_entries]
  refine ⟨Linkage.reverse_reverse_iff.trans hshared, ?_⟩
  intro links source target h
  obtain ⟨htidy, rfl, rfl, rfl⟩ := Linkage.ofLinks_eq_ok.1 h
  refine ⟨hshared.1 htidy.concordant, ?_, ?_⟩
  · exact Linkage.ofLinks_eq_ok.2 ⟨htidy.reverse, rfl, rfl, rfl⟩
  · intro l hl
    exact Level.reverse_reverse (Level.concordant_of_linkage? hl htidy.concordant)

namespace Catalogue

def links : SortedMap CoordinateSet Link :=
  .ofList [(.wildcard, ⟨.single 2, false⟩), (.single 1, ⟨.single 4, true⟩)]

def linkage : Linkage := ⟨links, .wildcard, .single 2⟩

end Catalogue

theorem reversing_twice_catalogue :
    Linkage.ofLinks Catalogue.links .wildcard (.single 2) = .ok Catalogue.linkage ∧
      Catalogue.linkage.reverse.reverse = Catalogue.linkage ∧
      Linkage.ofLinks Catalogue.linkage.reverse.links (.single 2) .wildcard =
        .ok Catalogue.linkage.reverse ∧
      ∀ l : Level, l.linkage? = some Catalogue.linkage → l.reverse.reverse = l := by
  have hchecked : Linkage.ofLinks Catalogue.links .wildcard (.single 2) =
      .ok Catalogue.linkage := rfl
  obtain ⟨hiff, haccepted⟩ := reversing_twice Catalogue.linkage
  obtain ⟨hunshared, hreverse, hlevels⟩ := haccepted _ _ _ hchecked
  exact ⟨hchecked, hiff.2 hunshared, hreverse, hlevels⟩

/-- Two links that meet in their target come back as one. -/
example :
    let m : Linkage :=
      ⟨.ofList [(.single 0, ⟨.single 2, false⟩), (.single 1, ⟨.single 2, true⟩)],
        .wildcard, .wildcard⟩
    m.reverse.reverse.entries = [(.ofStored [.single 0, .single 1], ⟨.single 2, true⟩)] := by
  decide

end LinkClosure
