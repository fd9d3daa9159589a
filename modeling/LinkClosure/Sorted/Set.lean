/-!
# Finite sets kept as increasing lists

A set over an ordered type is the list of its members in strictly increasing
order. The order is a field of the structure, so two sets with the same
members are the same value and comparison of sets is comparison of lists.
-/

set_option autoImplicit false

namespace LinkClosure

abbrev Increasing {α : Type} [Ord α] (l : List α) : Prop :=
  l.Pairwise (fun a b => compare a b = .lt)

theorem ne_of_compare_lt {α : Type} [Ord α] [Std.OrientedOrd α] {a b : α}
    (h : compare a b = .lt) : a ≠ b := by
  rintro rfl
  simp [Std.ReflCmp.compare_self] at h

structure SortedSet (α : Type) [Ord α] where
  toList : List α
  increasing : Increasing toList

namespace SortedSet

variable {α : Type} [Ord α]

theorem ext {s t : SortedSet α} (h : s.toList = t.toList) : s = t := by
  cases s; cases t; cases h; rfl

theorem toList_inj {s t : SortedSet α} : s.toList = t.toList ↔ s = t :=
  ⟨ext, fun h => h ▸ rfl⟩

instance [DecidableEq α] : DecidableEq (SortedSet α) :=
  fun _ _ => decidable_of_iff _ toList_inj

/-- Sets are ordered lexicographically, smallest member first. -/
instance : Ord (SortedSet α) := ⟨compareOn toList⟩

instance [Std.TransOrd α] : Std.TransOrd (SortedSet α) :=
  inferInstanceAs (Std.TransCmp (compareOn toList))

instance [Std.LawfulEqOrd α] : Std.LawfulEqOrd (SortedSet α) where
  eq_of_compare h := ext (Std.LawfulEqOrd.eq_of_compare (α := List α) h)
  compare_self := Std.ReflOrd.compare_self (α := List α)

def insertInto (a : α) : List α → List α
  | [] => [a]
  | b :: rest =>
    match compare a b with
    | .lt => a :: b :: rest
    | .eq => b :: rest
    | .gt => b :: insertInto a rest

theorem mem_of_mem_insertInto {a x : α} {l : List α} (h : x ∈ insertInto a l) :
    x = a ∨ x ∈ l := by
  induction l with
  | nil => simpa [insertInto] using h
  | cons b rest ih =>
    rw [insertInto] at h
    split at h
    · simpa using h
    · exact .inr h
    · rcases List.mem_cons.1 h with rfl | h
      · exact .inr (by simp)
      · exact (ih h).imp id (List.mem_cons_of_mem b)

theorem mem_insertInto [Std.LawfulEqOrd α] {a x : α} {l : List α} :
    x ∈ insertInto a l ↔ x = a ∨ x ∈ l := by
  induction l with
  | nil => simp [insertInto]
  | cons b rest ih =>
    rw [insertInto]
    split
    · simp
    · next h => simp [Std.LawfulEqOrd.eq_of_compare h]
    · rw [List.mem_cons, ih, List.mem_cons]
      exact or_left_comm

theorem increasing_insertInto [Std.TransOrd α] (a : α) {l : List α} (h : Increasing l) :
    Increasing (insertInto a l) := by
  induction l with
  | nil => simp [insertInto]
  | cons b rest ih =>
    obtain ⟨hb, hrest⟩ := List.pairwise_cons.1 h
    rw [insertInto]
    split
    · next hab =>
      refine List.pairwise_cons.2 ⟨fun x hx => ?_, h⟩
      rcases List.mem_cons.1 hx with rfl | hx
      · exact hab
      · exact Std.TransCmp.lt_trans hab (hb x hx)
    · exact h
    · next hab =>
      refine List.pairwise_cons.2 ⟨fun x hx => ?_, ih hrest⟩
      rcases mem_of_mem_insertInto hx with rfl | hx
      · exact Std.OrientedCmp.lt_of_gt hab
      · exact hb x hx

def empty : SortedSet α := ⟨[], .nil⟩

def singleton (a : α) : SortedSet α := ⟨[a], List.pairwise_singleton _ a⟩

def size (s : SortedSet α) : Nat := s.toList.length

def isEmpty (s : SortedSet α) : Bool := s.toList.isEmpty

instance : Membership α (SortedSet α) := ⟨fun s a => a ∈ s.toList⟩

theorem mem_toList {a : α} {s : SortedSet α} : a ∈ s.toList ↔ a ∈ s := Iff.rfl

section

variable [Std.TransOrd α]

def insert (a : α) (s : SortedSet α) : SortedSet α :=
  ⟨insertInto a s.toList, increasing_insertInto a s.increasing⟩

def ofList (l : List α) : SortedSet α := l.foldr insert empty

def union (s t : SortedSet α) : SortedSet α := s.toList.foldr insert t

theorem mem_insert [Std.LawfulEqOrd α] {a x : α} {s : SortedSet α} :
    x ∈ s.insert a ↔ x = a ∨ x ∈ s := mem_insertInto

theorem mem_foldr_insert [Std.LawfulEqOrd α] {x : α} {l : List α} {s : SortedSet α} :
    x ∈ l.foldr insert s ↔ x ∈ l ∨ x ∈ s := by
  induction l with
  | nil => simp
  | cons a l ih => simp [mem_insert, ih, or_assoc]

theorem mem_ofList [Std.LawfulEqOrd α] {x : α} {l : List α} : x ∈ ofList l ↔ x ∈ l := by
  rw [ofList, mem_foldr_insert]
  exact or_iff_left (List.not_mem_nil (a := x))

theorem mem_union [Std.LawfulEqOrd α] {x : α} {s t : SortedSet α} :
    x ∈ s.union t ↔ x ∈ s ∨ x ∈ t := mem_foldr_insert

end

variable {β : Type} [Ord β] [Std.TransOrd β]

def map (f : α → β) (s : SortedSet α) : SortedSet β :=
  ofList (s.toList.map f)

theorem mem_map [Std.LawfulEqOrd β] {f : α → β}
    {s : SortedSet α} {y : β} : y ∈ s.map f ↔ ∃ x ∈ s, f x = y := by
  rw [map, mem_ofList]
  exact List.mem_map

end SortedSet

end LinkClosure
