import LinkClosure.Proofs.BothEnds
import LinkClosure.Proofs.Coordinates

/-!
# Where areas meet

An area stands for its members and for all that lies inside of them. Two areas meet
where some path leads into both, which is so just if a member of one lies inside a
member of the other. The markers are decided beforehand: where nothing is modified
nothing meets, and the wildcard meets everything else.

Alternatives are merged before it is asked whether they meet a third area. Merging
neither hides a meeting place nor makes one up, on whatever side a marker stands.
-/

set_option autoImplicit false

namespace LinkClosure

namespace Coordinate

variable {a b : Coordinate}

/-- The path leads to the coordinate, or further inside of it. -/
def Extends (p c : Coordinate) : Prop := c.segments <+: p.segments

theorem prefix_iff_extended :
    a.segments <+: b.segments ∨ b.segments <+: a.segments ↔
      ∃ p : Coordinate, p.Extends a ∧ p.Extends b := by
  constructor
  · rintro (h | h)
    · exact ⟨b, h, List.prefix_refl _⟩
    · exact ⟨a, List.prefix_refl _, h⟩
  · rintro ⟨p, ha, hb⟩
    exact List.prefix_or_prefix_of_prefix ha hb

theorem overlaps_iff_extended (ha : a.isWildcard = false) (hb : b.isWildcard = false) :
    a.overlaps b = true ↔ ∃ p : Coordinate, p.Extends a ∧ p.Extends b := by
  rw [← prefix_iff_extended]
  simp only [overlaps, ha, hb, Bool.false_or, Bool.or_eq_true, List.isPrefixOf_iff_prefix]

def LeadsInto (p : Coordinate) (s : CoordinateSet) : Prop := ∃ c ∈ s.toList, p.Extends c

end Coordinate

namespace CoordinateSet

variable {s t u : CoordinateSet}

/-- The set is not the marker of what stays unmodified, and the wildcard is not among its
members. -/
structure NamesPlaces (s : CoordinateSet) : Prop where
  unmarked : s ≠ unmodified
  members : ∀ c ∈ s.toList, c.isWildcard = false

theorem NamesPlaces.plain (hs : s.NamesPlaces) : s.Plain := by
  refine ⟨?_, hs.unmarked⟩
  rintro rfl
  have hmember := hs.members .wildcard (List.mem_singleton.2 rfl)
  cases hmember

theorem wildcard_intersects (s : CoordinateSet) : wildcard.intersects s = !s.isUnmodified := by
  have hu : wildcard.isUnmodified = false := by decide
  have hw : wildcard.isWildcard = true := rfl
  cases h : s.isUnmodified <;> simp [intersects, hu, hw, h]

theorem unmodified_intersects (s : CoordinateSet) : unmodified.intersects s = false := by
  have hu : unmodified.isUnmodified = true := rfl
  simp [intersects, hu]

theorem intersects_of_plain (hs : s.Plain) (ht : t.Plain) :
    s.intersects t = true ↔ ∃ a ∈ s.toList, ∃ b ∈ t.toList, a.overlaps b = true := by
  have hsw : ¬ s.isWildcard = true := fun h => hs.1 (isWildcard_iff.1 h)
  have hsu : ¬ s.isUnmodified = true := fun h => hs.2 (isUnmodified_iff.1 h)
  have htw : ¬ t.isWildcard = true := fun h => ht.1 (isWildcard_iff.1 h)
  have htu : ¬ t.isUnmodified = true := fun h => ht.2 (isUnmodified_iff.1 h)
  simp [intersects, hsw, hsu, htw, htu]

theorem intersects_merge_of_plain (hs : s.Plain) (ht : t.Plain) (hu : u.Plain) :
    (s.merge t).intersects u = true ↔ s.intersects u = true ∨ t.intersects u = true := by
  rw [intersects_of_plain (plain_merge hs ht) hu, intersects_of_plain hs hu,
    intersects_of_plain ht hu, merge_of_plain hs ht]
  simp only [mem_union, or_and_right, exists_or]

theorem intersects_wildcard_merge (t u : CoordinateSet) :
    (wildcard.merge t).intersects u = true ↔
      wildcard.intersects u = true ∨ t.intersects u = true := by
  rw [wildcard_merge, wildcard_intersects]
  refine (or_iff_left_of_imp fun h => ?_).symm
  rw [(not_unmodified_of_intersects h).2]
  rfl

theorem intersects_unmodified_merge (t u : CoordinateSet) :
    (unmodified.merge t).intersects u = true ↔
      unmodified.intersects u = true ∨ t.intersects u = true := by
  rw [unmodified_merge, unmodified_intersects]
  simp

/-- Merged areas meet a third one just if one of them does. -/
theorem intersects_merge (s t u : CoordinateSet) :
    (s.merge t).intersects u = true ↔ s.intersects u = true ∨ t.intersects u = true := by
  rcases s.wildcard_or_unmodified_or_plain with rfl | rfl | hs
  · exact intersects_wildcard_merge t u
  · exact intersects_unmodified_merge t u
  rcases t.wildcard_or_unmodified_or_plain with rfl | rfl | ht
  · rw [merge_comm, or_comm]
    exact intersects_wildcard_merge s u
  · rw [merge_comm, or_comm]
    exact intersects_unmodified_merge s u
  rcases u.wildcard_or_unmodified_or_plain with rfl | rfl | hu
  · have hplain : ∀ {x : CoordinateSet}, x.Plain → x.intersects wildcard = true := by
      intro x hx
      rw [intersects_comm, wildcard_intersects, Bool.not_eq_true', ← Bool.not_eq_true,
        isUnmodified_iff]
      exact hx.2
    simp only [hplain hs, hplain (plain_merge hs ht), true_or]
  · simp only [intersects_comm _ unmodified, unmodified_intersects, Bool.false_eq_true, or_self]
  · exact intersects_merge_of_plain hs ht hu

theorem intersects_iff_leadsInto (hs : s.NamesPlaces) (ht : t.NamesPlaces) :
    s.intersects t = true ↔ ∃ p : Coordinate, p.LeadsInto s ∧ p.LeadsInto t := by
  have hmembers : ∀ a ∈ s.toList, ∀ b ∈ t.toList,
      (a.overlaps b = true ↔ ∃ p : Coordinate, p.Extends a ∧ p.Extends b) := fun a ha b hb =>
    Coordinate.overlaps_iff_extended (hs.members a ha) (ht.members b hb)
  rw [intersects_of_plain hs.plain ht.plain]
  constructor
  · rintro ⟨a, ha, b, hb, h⟩
    obtain ⟨p, hpa, hpb⟩ := (hmembers a ha b hb).1 h
    exact ⟨p, ⟨a, ha, hpa⟩, ⟨b, hb, hpb⟩⟩
  · rintro ⟨p, ⟨a, ha, hpa⟩, ⟨b, hb, hpb⟩⟩
    exact ⟨a, ha, b, hb, (hmembers a ha b hb).2 ⟨p, hpa, hpb⟩⟩

end CoordinateSet

/-- Areas meet in either direction. A merged area meets just what one of its parts meets,
for all sets, markers and empty sets among them. Sets that name places meet just where
some path leads into both. -/
theorem areas_meet_on_shared_paths :
    (∀ s t : CoordinateSet, s.intersects t = t.intersects s) ∧
      (∀ s t u : CoordinateSet,
        (s.merge t).intersects u = true ↔ s.intersects u = true ∨ t.intersects u = true) ∧
      ∀ s t : CoordinateSet, s.NamesPlaces → t.NamesPlaces →
        (s.intersects t = true ↔ ∃ p : Coordinate, p.LeadsInto s ∧ p.LeadsInto t) := by
  refine ⟨CoordinateSet.intersects_comm, CoordinateSet.intersects_merge, ?_⟩
  intro s t hs ht
  exact CoordinateSet.intersects_iff_leadsInto hs ht

def shelves : CoordinateSet := .ofStored [.path [0, 1], .single 2]

def drawers : CoordinateSet := .ofStored [.single Position.unmodified, .path [0, 1, 3]]

theorem areas_meet_on_shared_paths_shelves :
    shelves.NamesPlaces ∧ drawers.NamesPlaces ∧
      (shelves.intersects drawers = true ↔
        ∃ p : Coordinate, p.LeadsInto shelves ∧ p.LeadsInto drawers) := by
  have hshelves : shelves.NamesPlaces := ⟨by decide, by decide⟩
  have hdrawers : drawers.NamesPlaces := ⟨by decide, by decide⟩
  exact ⟨hshelves, hdrawers, areas_meet_on_shared_paths.2.2 _ _ hshelves hdrawers⟩

end LinkClosure
