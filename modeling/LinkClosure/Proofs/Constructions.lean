import LinkClosure.Proofs.Coordinates
import LinkClosure.Proofs.Nesting

/-!
# Coordinate sets as they are built

Coordinate sets are built from coordinates and from one another. Whatever the
steps, the sets that come out have members and no empty paths. That the wildcard
stays alone is a matter of each step: checked members do not mix it with others,
merging and the two projections absorb what stands beside it, nesting makes
none. Moving the outermost positions is the one step that makes wildcards and
absorbs nothing: it keeps the rule exactly if it makes the wildcard of all members
or of none.
-/

set_option autoImplicit false

namespace LinkClosure

namespace Coordinate

variable {c : Coordinate} {f : Int → Int}

/-- Coordinates as the constructors make them. -/
inductive Constructed : Coordinate → Prop
  | single (p : Int) : Constructed (single p)
  | path (ps : List Int) : Constructed (path ps)
  | zeroes (n : Nat) : Constructed (zeroes n)

theorem Constructed.segments_ne_nil (h : c.Constructed) : c.segments ≠ [] := by
  cases h with
  | single p => exact List.cons_ne_nil p []
  | path ps => cases ps <;> exact List.cons_ne_nil _ _
  | zeroes n =>
    rw [Ne, ← List.length_eq_zero_iff, Coordinate.zeroes, List.length_replicate]
    omega

theorem mapOutermost_eq_wildcard :
    c.mapOutermost f = wildcard ↔ ∃ p, c = single p ∧ f p = Position.everywhere := by
  obtain ⟨segments⟩ := c
  match segments with
  | [] => simp [mapOutermost, wildcard, single]
  | [p] => simp [mapOutermost, wildcard, single]
  | p :: q :: ps => simp [mapOutermost, wildcard, single]

theorem segments_mapOutermost (h : c.segments ≠ []) : (c.mapOutermost f).segments ≠ [] := by
  obtain ⟨_ | ⟨p, ps⟩⟩ := c
  · exact absurd rfl h
  · exact List.cons_ne_nil (f p) ps

theorem segments_outermost {o : Coordinate} (h : c.outermost? = some o) : o.segments ≠ [] := by
  rw [outermost?] at h
  split at h
  · rw [← Option.some.inj h]
    exact List.cons_ne_nil _ []
  · cases h

theorem segments_inner {i : Coordinate} (h : c.inner? = some i) : i.segments ≠ [] := by
  rw [inner?] at h
  split_ifs at h with hdepth
  rw [← Option.some.inj h, Ne, ← List.length_eq_zero_iff, List.length_tail]
  rw [depth] at hdepth
  omega

end Coordinate

namespace CoordinateSet

variable {s t : CoordinateSet} {c : Coordinate} {cs : List Coordinate} {f : Int → Int}

/-- Of the members that are moved, all become the wildcard or none does. -/
def MovesTogether (f : Int → Int) (s : CoordinateSet) : Prop :=
  ∀ p, Coordinate.single p ∈ s.toList → f p = Position.everywhere →
    ∀ c ∈ s.toList, ∃ q, c = .single q ∧ f q = Position.everywhere

/-- Coordinate sets as the operations build them. The wildcard, the markers and single
positions are sets of one coordinate. `admits` says which moves of outermost positions
are made. -/
inductive Obtained (admits : (Int → Int) → CoordinateSet → Prop) : CoordinateSet → Prop
  | ofCoordinate {c : Coordinate} : c.Constructed → Obtained admits (ofCoordinate c)
  | ofMembers {cs : List Coordinate} {s : CoordinateSet} :
      (∀ c ∈ cs, c.Constructed) → ofMembers cs = .ok s → Obtained admits s
  | merge {s t : CoordinateSet} :
      Obtained admits s → Obtained admits t → Obtained admits (s.merge t)
  | nest (p : Int) {s : CoordinateSet} : Obtained admits s → Obtained admits (s.nest p)
  | under {s t : CoordinateSet} :
      Obtained admits s → Obtained admits t → Obtained admits (s.under t)
  | outermost {s t : CoordinateSet} :
      Obtained admits s → s.outermost? = some t → Obtained admits t
  | inner {s t : CoordinateSet} : Obtained admits s → s.inner? = some t → Obtained admits t
  | mapOutermost (f : Int → Int) {s : CoordinateSet} :
      Obtained admits s → admits f s → Obtained admits (s.mapOutermost f)

section Steps

theorem mem_ofStored : c ∈ (ofStored cs).toList ↔ c ∈ cs := SortedSet.mem_ofList

theorem mem_mapOutermost :
    c ∈ (s.mapOutermost f).toList ↔ ∃ i ∈ s.toList, i.mapOutermost f = c := SortedSet.mem_map

theorem eq_wildcard_of_forall (hs : s.toList ≠ []) (h : ∀ c ∈ s.toList, c = Coordinate.wildcard) :
    s = wildcard := by
  obtain ⟨members⟩ := s
  rw [wildcard, single, ofCoordinate, mk.injEq]
  apply SortedSet.ext_mem
  intro c
  rw [SortedSet.mem_singleton]
  constructor
  · exact h c
  · rintro rfl
    obtain ⟨d, hd⟩ := List.exists_mem_of_ne_nil _ hs
    rw [h d hd] at hd
    exact hd

theorem Filled.ofStored (hcs : cs ≠ []) (hpaths : ∀ c ∈ cs, c.segments ≠ []) :
    (ofStored cs).Filled := by
  constructor
  · obtain ⟨c, hc⟩ := List.exists_mem_of_ne_nil _ hcs
    exact List.ne_nil_of_mem (mem_ofStored.2 hc)
  · intro c hc
    exact hpaths c (mem_ofStored.1 hc)

theorem Sound.ofCoordinate (hc : c.segments ≠ []) : (ofCoordinate c).Sound := by
  refine ⟨⟨List.cons_ne_nil c [], ?_⟩, ?_⟩
  · intro d hd
    rwa [List.mem_singleton.1 hd]
  · intro hmem
    rw [← List.mem_singleton.1 hmem]
    rfl

theorem Sound.ofMembers (hpaths : ∀ c ∈ cs, c.segments ≠ []) (h : ofMembers cs = .ok s) :
    s.Sound := by
  simp only [CoordinateSet.ofMembers] at h
  split_ifs at h with hempty hmixed
  obtain rfl := Except.ok.inj h
  have hne : (CoordinateSet.ofStored cs).toList ≠ [] := by
    intro hnil
    rw [isEmpty, SortedSet.isEmpty, List.isEmpty_iff] at hempty
    exact hempty hnil
  refine ⟨⟨hne, fun c hc => hpaths c (mem_ofStored.1 hc)⟩, ?_⟩
  intro hmem
  have hsize : (CoordinateSet.ofStored cs).toList.length ≤ 1 := by
    by_contra hmany
    apply hmixed
    rw [Bool.and_eq_true, decide_eq_true_eq, List.any_eq_true]
    exact ⟨Nat.not_le.1 hmany, .wildcard, hmem, rfl⟩
  rw [← isWildcard_iff, isWildcard, beq_iff_eq]
  obtain ⟨d, hd⟩ := List.length_eq_one_iff.1 (Nat.le_antisymm hsize (List.length_pos_iff.2 hne))
  rw [hd] at hmem ⊢
  rw [List.mem_singleton.1 hmem]

theorem Sound.normalised (hpaths : ∀ c ∈ cs, c.segments ≠ []) (h : normalised? cs = some s) :
    s.Sound := by
  rw [normalised?] at h
  split_ifs at h with hempty hwildcard
  · rw [← Option.some.inj h]
    exact stable_sound.wildcard
  · rw [← Option.some.inj h]
    refine ⟨Filled.ofStored (fun hnil => hempty (List.isEmpty_iff.2 hnil)) hpaths, ?_⟩
    intro hmem
    exact absurd (List.any_eq_true.2 ⟨_, mem_ofStored.1 hmem, rfl⟩) hwildcard

theorem Sound.outermost (h : s.outermost? = some t) : t.Sound := by
  apply Sound.normalised _ h
  intro c hc
  obtain ⟨d, _, hd⟩ := List.mem_filterMap.1 hc
  exact Coordinate.segments_outermost hd

theorem Sound.inner (h : s.inner? = some t) : t.Sound := by
  apply Sound.normalised _ h
  intro c hc
  obtain ⟨d, _, hd⟩ := List.mem_filterMap.1 hc
  exact Coordinate.segments_inner hd

theorem Filled.nest (hs : s.Filled) (p : Int) : (s.nest p).Sound := by
  refine ⟨⟨?_, ?_⟩, fun hmem => absurd hmem (wildcard_notMem_nest hs.paths)⟩
  · obtain ⟨c, hc⟩ := List.exists_mem_of_ne_nil _ hs.nonempty
    exact List.ne_nil_of_mem (nest_mem_nest.2 hc)
  · intro c hc
    obtain ⟨i, _, rfl⟩ := mem_nest.1 hc
    exact List.cons_ne_nil p i.segments

theorem Filled.mapOutermost (hs : s.Filled) (f : Int → Int) : (s.mapOutermost f).Filled := by
  constructor
  · obtain ⟨c, hc⟩ := List.exists_mem_of_ne_nil _ hs.nonempty
    exact List.ne_nil_of_mem (mem_mapOutermost.2 ⟨c, hc, rfl⟩)
  · intro c hc
    obtain ⟨i, hi, rfl⟩ := mem_mapOutermost.1 hc
    exact Coordinate.segments_mapOutermost (hs.paths i hi)

/-- Moving outermost positions keeps the wildcard alone exactly if it makes it of all
members or of none. -/
theorem Filled.mapOutermost_sound_iff (hs : s.Filled) :
    (s.mapOutermost f).Sound ↔ MovesTogether f s := by
  constructor
  · intro h p hp hfp c hc
    have hmade : Coordinate.wildcard ∈ (s.mapOutermost f).toList :=
      mem_mapOutermost.2 ⟨_, hp, Coordinate.mapOutermost_eq_wildcard.2 ⟨p, rfl, hfp⟩⟩
    have hmoved : c.mapOutermost f ∈ (s.mapOutermost f).toList := mem_mapOutermost.2 ⟨c, hc, rfl⟩
    rw [h.alone hmade] at hmoved
    exact Coordinate.mapOutermost_eq_wildcard.1 (List.mem_singleton.1 hmoved)
  · intro h
    refine ⟨hs.mapOutermost f, ?_⟩
    intro hmade
    obtain ⟨d, hd, hwildcard⟩ := mem_mapOutermost.1 hmade
    obtain ⟨p, rfl, hfp⟩ := Coordinate.mapOutermost_eq_wildcard.1 hwildcard
    apply eq_wildcard_of_forall (hs.mapOutermost f).nonempty
    intro c hc
    obtain ⟨i, hi, rfl⟩ := mem_mapOutermost.1 hc
    exact Coordinate.mapOutermost_eq_wildcard.2 (h p hd hfp i hi)

end Steps

section Runs

variable {admits : (Int → Int) → CoordinateSet → Prop}

theorem Obtained.filled (h : Obtained admits s) : s.Filled := by
  induction h with
  | ofCoordinate hc => exact (Sound.ofCoordinate hc.segments_ne_nil).toFilled
  | ofMembers hcs hs => exact (Sound.ofMembers (fun c hc => (hcs c hc).segments_ne_nil) hs).toFilled
  | merge _ _ hs ht => exact hs.merge ht
  | nest p _ hs => exact (hs.nest p).toFilled
  | under _ _ hs ht => exact hs.under ht
  | outermost _ ht _ => exact (Sound.outermost ht).toFilled
  | inner _ ht _ => exact (Sound.inner ht).toFilled
  | mapOutermost f _ _ hs => exact hs.mapOutermost f

theorem Obtained.sound (hadmits : ∀ f s, admits f s → MovesTogether f s) (h : Obtained admits s) :
    s.Sound := by
  induction h with
  | ofCoordinate hc => exact Sound.ofCoordinate hc.segments_ne_nil
  | ofMembers hcs hs => exact Sound.ofMembers (fun c hc => (hcs c hc).segments_ne_nil) hs
  | merge _ _ hs ht => exact hs.merge ht
  | nest p _ hs => exact hs.toFilled.nest p
  | under _ _ hs ht => exact hs.under ht
  | outermost _ ht _ => exact Sound.outermost ht
  | inner _ ht _ => exact Sound.inner ht
  | mapOutermost f _ hf hs => exact hs.toFilled.mapOutermost_sound_iff.2 (hadmits f _ hf)

end Runs

end CoordinateSet

open CoordinateSet

/-- However a coordinate set is built, it has members and no empty paths. The wildcard is
alone in it as long as outermost positions are moved together, and a move of its
positions that does not do so breaks that rule. -/
theorem built_sets_keep_rules {s : CoordinateSet} :
    (Obtained (fun _ _ => True) s → s.Filled) ∧
      (Obtained MovesTogether s →
        s.Sound ∧ ∀ f, (s.mapOutermost f).Sound ↔ MovesTogether f s) := by
  constructor
  · intro h
    exact h.filled
  · intro h
    have hs : s.Sound := h.sound fun _ _ hf => hf
    exact ⟨hs, fun f => hs.toFilled.mapOutermost_sound_iff⟩

namespace Removal

def rooms : CoordinateSet := .ofStored [.path [0, 1], .single 2]

def moved : CoordinateSet := rooms.mapOutermost (Position.shift (-1))

theorem obtained_rooms (admits : (Int → Int) → CoordinateSet → Prop) : Obtained admits rooms := by
  have hmembers : ∀ c ∈ [Coordinate.path [0, 1], .single 2], c.Constructed := by
    simpa using ⟨Coordinate.Constructed.path [0, 1], Coordinate.Constructed.single 2⟩
  exact .ofMembers hmembers rfl

theorem obtained_moved : Obtained MovesTogether moved := by
  have hrooms : rooms.Filled := by decide
  have hmoved : moved.Sound := by decide
  exact .mapOutermost _ (obtained_rooms _) (hrooms.mapOutermost_sound_iff.1 hmoved)

end Removal

theorem built_sets_keep_rules_removal :
    Obtained MovesTogether Removal.moved ∧ Removal.moved.Sound ∧
      ¬ MovesTogether (Position.shift (-2)) Removal.moved := by
  obtain ⟨hsound, hmoves⟩ := built_sets_keep_rules.2 Removal.obtained_moved
  refine ⟨Removal.obtained_moved, hsound, ?_⟩
  rw [← hmoves]
  decide

/-- One room moves to everywhere and the other one stays beside it. -/
theorem moving_mixes_wildcard :
    Obtained (fun _ _ => True) (Removal.rooms.mapOutermost (Position.shift (-3))) ∧
      (Removal.rooms.mapOutermost (Position.shift (-3))).toList =
        [.path [-3, 1], .wildcard] ∧
      ¬ (Removal.rooms.mapOutermost (Position.shift (-3))).Sound := by
  refine ⟨.mapOutermost _ (Removal.obtained_rooms _) trivial, ?_, ?_⟩
  · decide
  · decide

end LinkClosure
