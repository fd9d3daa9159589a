import LinkClosure.Proofs.CheckedLinkages
import LinkClosure.Proofs.Composition

/-!
# Nesting the variable in the middle

A value may be put inside another one: everything that is known about its
coordinates is then known one level deeper. Nesting is injective, on coordinates
and on sets of them, so links under nested sources are found as before. A nested
path has at least two positions unless it was empty, so that nesting makes no
wildcard. Links through a variable in the middle therefore meet in the same way
however deep that variable is nested, as long as they meet in places: the
wildcard is not nested to the wildcard.

For linkages that pass the check, nesting the targets is nesting the sources as
seen from the other end.
-/

set_option autoImplicit false

namespace LinkClosure

theorem Coordinate.nest_injective (p : Int) : Function.Injective (Coordinate.nest p) := by
  rintro ⟨as⟩ ⟨bs⟩ h
  simpa [Coordinate.nest] using h

namespace CoordinateSet

variable {s t : CoordinateSet} {c : Coordinate} {p : Int}

theorem mem_nest : c ∈ (s.nest p).toList ↔ ∃ i ∈ s.toList, i.nest p = c := SortedSet.mem_map

theorem nest_mem_nest : c.nest p ∈ (s.nest p).toList ↔ c ∈ s.toList := by
  rw [mem_nest]
  constructor
  · rintro ⟨i, hi, heq⟩
    rwa [← Coordinate.nest_injective p heq]
  · intro hc
    exact ⟨c, hc, rfl⟩

theorem nest_injective (p : Int) : Function.Injective (nest p) := by
  rintro ⟨s⟩ ⟨t⟩ h
  congr 1
  apply SortedSet.ext_mem
  intro c
  show c ∈ toList ⟨s⟩ ↔ c ∈ toList ⟨t⟩
  rw [← nest_mem_nest (p := p), h, nest_mem_nest]

theorem wildcard_notMem_nest (h : ∀ c ∈ s.toList, c.segments ≠ []) :
    Coordinate.wildcard ∉ (s.nest p).toList := by
  intro hmem
  obtain ⟨c, hc, heq⟩ := mem_nest.1 hmem
  exact h c hc (List.cons.inj (congrArg Coordinate.segments heq)).2

/-- Coordinates of some place: not everywhere, and no empty path. -/
structure Located (s : CoordinateSet) : Prop where
  ne_wildcard : s ≠ wildcard
  paths : ∀ c ∈ s.toList, c.segments ≠ []

instance : DecidablePred Located := fun s =>
  decidable_of_iff (s ≠ wildcard ∧ ∀ c ∈ s.toList, c.segments ≠ [])
    ⟨fun h => ⟨h.1, h.2⟩, fun h => ⟨h.ne_wildcard, h.paths⟩⟩

theorem Located.isWildcard (h : s.Located) : s.isWildcard = false := by
  rw [Bool.eq_false_iff, Ne, isWildcard_iff]
  exact h.ne_wildcard

theorem Located.nest (h : s.Located) (p : Int) : (s.nest p).Located := by
  constructor
  · intro hwildcard
    apply wildcard_notMem_nest (p := p) h.paths
    rw [hwildcard]
    exact List.mem_singleton_self _
  · intro c hc
    obtain ⟨i, _, rfl⟩ := mem_nest.1 hc
    exact List.cons_ne_nil p i.segments

end CoordinateSet

namespace Linkage

variable {e f m : Linkage} {l : Link} {x y t : CoordinateSet} {p : Int} {b : Bool}

section Nested

theorem get?_nestSource :
    (f.nestSource p).get? y = some l ↔ ∃ x, x.nest p = y ∧ f.get? x = some l := by
  have hkeys : (f.entries.map fun e => (e.1.nest p, e.2)).Pairwise fun a b => a.1 ≠ b.1 := by
    rw [List.pairwise_map]
    apply (f.links.increasing.imp ne_of_compare_lt).imp
    intro a b hne heq
    exact hne (CoordinateSet.nest_injective p heq)
  show (SortedMap.ofListWith Link.merge _).get? y = _ ↔ _
  rw [SortedMap.get?_ofListWith_iff Link.merge hkeys, List.mem_map]
  constructor
  · rintro ⟨e, he, heq⟩
    obtain ⟨rfl, rfl⟩ := Prod.mk.inj heq
    exact ⟨e.1, rfl, mem_entries.1 he⟩
  · rintro ⟨x, rfl, hx⟩
    exact ⟨(x, l), mem_entries.2 hx, rfl⟩

theorem get?_nestSource_nest : (f.nestSource p).get? (x.nest p) = f.get? x := by
  apply Option.ext
  intro l
  rw [get?_nestSource]
  constructor
  · rintro ⟨y, heq, hy⟩
    rwa [← CoordinateSet.nest_injective p heq]
  · intro hx
    exact ⟨x, rfl, hx⟩

theorem get?_nestTarget :
    (m.nestTarget p).get? x = some ⟨y, b⟩ ↔ ∃ t, t.nest p = y ∧ m.get? x = some ⟨t, b⟩ := by
  have hmap : (m.nestTarget p).get? x = (m.get? x).map (Link.nestTarget p) :=
    SortedMap.get?_mapValues (Link.nestTarget p) m.links x
  rw [hmap, Option.map_eq_some_iff]
  constructor
  · rintro ⟨⟨t, c⟩, hl, heq⟩
    obtain ⟨rfl, rfl⟩ := Link.mk.inj heq
    exact ⟨t, rfl, hl⟩
  · rintro ⟨t, rfl, hl⟩
    exact ⟨⟨t, b⟩, hl, rfl⟩

theorem isEmpty_nestTarget : (e.nestTarget p).isEmpty = e.isEmpty := List.isEmpty_map

theorem isEmpty_nestSource : (f.nestSource p).isEmpty = f.isEmpty := by
  rw [Bool.eq_iff_iff, ← not_iff_not, Bool.not_eq_true, Bool.not_eq_true]
  constructor
  · intro h
    obtain ⟨y, l, hl⟩ := exists_get? h
    obtain ⟨x, _, hx⟩ := get?_nestSource.1 hl
    exact isEmpty_eq_false.2 ⟨x, SortedMap.mem_keys_iff.2 (Option.isSome_of_mem hx)⟩
  · intro h
    obtain ⟨x, l, hl⟩ := exists_get? h
    have hnested : (f.nestSource p).get? (x.nest p) = some l := get?_nestSource_nest.trans hl
    exact isEmpty_eq_false.2 ⟨x.nest p, SortedMap.mem_keys_iff.2 (Option.isSome_of_mem hnested)⟩

end Nested

section Middle

def LeavesPlaces (f : Linkage) : Prop := ∀ x ∈ f.entries, x.1.Located

def EntersPlaces (e : Linkage) : Prop := ∀ x ∈ e.entries, x.2.target.Located

instance : DecidablePred LeavesPlaces := fun f =>
  inferInstanceAs (Decidable (∀ x ∈ f.entries, x.1.Located))

instance : DecidablePred EntersPlaces := fun e =>
  inferInstanceAs (Decidable (∀ x ∈ e.entries, x.2.target.Located))

theorem LeavesPlaces.nestSource (h : f.LeavesPlaces) (p : Int) : (f.nestSource p).LeavesPlaces := by
  intro e he
  obtain ⟨x, heq, hx⟩ := get?_nestSource.1 (mem_entries.1 he)
  rw [← heq]
  exact (h (x, e.2) (mem_entries.2 hx)).nest p

theorem LeavesPlaces.get?_wildcard (h : f.LeavesPlaces) : f.get? .wildcard = none := by
  cases hwildcard : f.get? .wildcard with
  | none => rfl
  | some k => exact absurd rfl (h (.wildcard, k) (mem_entries.2 hwildcard)).ne_wildcard

theorem LeavesPlaces.continuation (h : f.LeavesPlaces) (ht : t.Located) :
    f.continuation t = (f.get? t).elim .dead .exact := by
  rw [Linkage.continuation, h.get?_wildcard, ht.isWildcard]
  cases f.get? t <;> rfl

theorem LeavesPlaces.continuation_nest (h : f.LeavesPlaces) (ht : t.Located) :
    (f.nestSource p).continuation (t.nest p) = f.continuation t := by
  rw [(h.nestSource p).continuation (ht.nest p), h.continuation ht, get?_nestSource_nest]

/-- Nesting the place where a link ends makes no difference to where it gets from there. -/
theorem LeavesPlaces.arrivals_nest (h : f.LeavesPlaces) (hl : l.target.Located) :
    ((f.nestSource p).continuation (l.target.nest p)).arrivals (l.nestTarget p) =
      (f.continuation l.target).arrivals l := by
  have hnested : (l.nestTarget p).target.isWildcard = false := (hl.nest p).isWildcard
  rw [h.continuation_nest hl, h.continuation hl]
  cases f.get? l.target with
  | none => rfl
  | some k =>
    simp only [Option.elim_some, Continuation.arrivals, hnested, hl.isWildcard]
    rfl

variable (he : e.EntersPlaces) (hf : f.LeavesPlaces)

include he hf

theorem continuations_nest :
    (e.nestTarget p).continuations (f.nestSource p) = e.continuations f := by
  have hentries : (e.nestTarget p).entries = e.entries.map fun x => (x.1, x.2.nestTarget p) := rfl
  rw [continuations, continuations, hentries, List.map_map]
  apply List.map_congr_left
  intro x hx
  exact hf.continuation_nest (he x hx)

theorem arrivals_nest : (e.nestTarget p).arrivals (f.nestSource p) = e.arrivals f := by
  have hentries : (e.nestTarget p).entries = e.entries.map fun x => (x.1, x.2.nestTarget p) := rfl
  rw [arrivals, arrivals, hentries, List.flatMap_map]
  apply List.flatMap_congr
  intro x hx
  exact congrArg (List.map fun l => (x.1, l)) (hf.arrivals_nest (he x hx))

theorem compose_nest (hsome : e.isEmpty = false) :
    (e.nestTarget p).compose (f.nestSource p) = e.compose f := by
  have hcontinuations := continuations_nest (p := p) he hf
  have harrivals := arrivals_nest (p := p) he hf
  have hconflicts : (e.nestTarget p).conflicts (f.nestSource p) = e.conflicts f := by
    rw [conflicts, hcontinuations, harrivals]
    rfl
  have hsource : (e.nestTarget p).composedSourceArea (f.nestSource p) = e.composedSourceArea f := by
    rw [composedSourceArea, hcontinuations]
    rfl
  have htarget : (e.nestTarget p).composedTargetArea (f.nestSource p) = e.composedTargetArea f := by
    rw [composedTargetArea, hcontinuations]
    rfl
  rw [compose_eq_composeUntested, compose_eq_composeUntested, composeUntested, composeUntested,
    isEmpty_nestTarget, isEmpty_nestSource, hconflicts, harrivals, hsource, htarget, hsome]
  rfl

end Middle

section OtherEnd

theorem Concordant.nestSource (hm : m.Concordant m) (p : Int) :
    (m.nestSource p).Concordant (m.nestSource p) := by
  rw [concordant_iff] at hm ⊢
  rintro _ y _ y' ⟨b, hb⟩ ⟨b', hb'⟩
  obtain ⟨x, rfl, hx⟩ := get?_nestSource.1 hb
  obtain ⟨x', rfl, hx'⟩ := get?_nestSource.1 hb'
  rw [(CoordinateSet.nest_injective p).eq_iff]
  exact hm x y x' y' ⟨b, hx⟩ ⟨b', hx'⟩

theorem nestTarget_eq_reverse (hm : m.Concordant m) (p : Int) :
    m.nestTarget p = (m.reverse.nestSource p).reverse := by
  apply ext_links
  · intro x y b
    have hreverse : m.reverse.Concordant m.reverse := hm.reverse hm hm
    rw [get?_nestTarget, get?_reverse (hreverse.nestSource p), get?_nestSource]
    exact exists_congr fun t => and_congr_right fun _ => (get?_reverse hm).symm
  · rfl
  · rfl

end OtherEnd

end Linkage

/-- Two linkages that meet in places compose to the same outcome however deep the variable
between them is nested; and in a linkage that passes the check the targets are nested
by nesting the sources of its reverse. -/
theorem nested_middle_composes_alike (p : Int) :
    (∀ e f : Linkage, e.isEmpty = false → e.EntersPlaces → f.LeavesPlaces →
      (e.nestTarget p).compose (f.nestSource p) = e.compose f) ∧
    ∀ links source target m, Linkage.ofLinks links source target = .ok m →
      m.nestTarget p = (m.reverse.nestSource p).reverse := by
  constructor
  · intro e f hsome he hf
    exact Linkage.compose_nest he hf hsome
  · intro links source target m hm
    exact Linkage.nestTarget_eq_reverse (Linkage.ofLinks_eq_ok.1 hm).1.concordant p

namespace Casket

def addressed : Linkage :=
  ⟨.ofList [(.wildcard, ⟨.single 0, true⟩), (.single 3, ⟨.ofCoordinate (.path [1, -1]), true⟩),
    (.single 4, ⟨.single 2, false⟩)], .wildcard, .single 7⟩

def opened : Linkage :=
  ⟨.ofList [(.single 0, ⟨.single 5, true⟩), (.ofCoordinate (.path [1, -1]), ⟨.wildcard, false⟩)],
    .single 7, .wildcard⟩

def checked : Linkage := ⟨addressed.links, .wildcard, .wildcard⟩

end Casket

theorem nested_middle_composes_alike_casket :
    Casket.addressed.isEmpty = false ∧ Casket.addressed.EntersPlaces ∧
      Casket.opened.LeavesPlaces ∧
      (Casket.addressed.nestTarget (-1)).compose (Casket.opened.nestSource (-1)) =
        Casket.addressed.compose Casket.opened ∧
      Linkage.ofLinks Casket.addressed.links .wildcard .wildcard = .ok Casket.checked ∧
      Casket.checked.nestTarget (-1) = (Casket.checked.reverse.nestSource (-1)).reverse := by
  have hsome : Casket.addressed.isEmpty = false := rfl
  have he : Casket.addressed.EntersPlaces := by decide
  have hf : Casket.opened.LeavesPlaces := by decide
  have hchecked : Linkage.ofLinks Casket.addressed.links .wildcard .wildcard =
      .ok Casket.checked := rfl
  obtain ⟨hcompose, hreverse⟩ := nested_middle_composes_alike (-1)
  exact ⟨hsome, he, hf, hcompose _ _ hsome he hf, hchecked, hreverse _ _ _ _ hchecked⟩

/-- At the wildcard in the middle the outcome depends on the nesting. -/
example :
    let e : Linkage := .single 0 Position.everywhere false
    let f : Linkage := .single 1 2 false
    e.compose f = .composed (.single 0 2 false) ∧
      (e.nestTarget 3).compose (f.nestSource 3) = .edgeless := by
  decide

end LinkClosure
