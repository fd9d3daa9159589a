import LinkClosure.Sorted.Set

/-!
# Finite maps kept as increasing entry lists

A map is the list of its entries with strictly increasing keys. Equality of
maps is equality of look-ups, so algebraic laws of operations on maps can be
proved key by key.
-/

set_option autoImplicit false

namespace LinkClosure

structure SortedMap (α β : Type) [Ord α] where
  entries : List (α × β)
  increasing : entries.Pairwise (fun a b => compare a.1 b.1 = .lt)

namespace SortedMap

variable {α β γ : Type} [Ord α]

theorem ext {m n : SortedMap α β} (h : m.entries = n.entries) : m = n := by
  cases m; cases n; cases h; rfl

theorem entries_inj {m n : SortedMap α β} : m.entries = n.entries ↔ m = n :=
  ⟨ext, fun h => h ▸ rfl⟩

instance [DecidableEq α] [DecidableEq β] : DecidableEq (SortedMap α β) :=
  fun _ _ => decidable_of_iff _ entries_inj

def lookupIn [DecidableEq α] (k : α) : List (α × β) → Option β
  | [] => none
  | (k', v) :: rest => if k = k' then some v else lookupIn k rest

/-- Put `v` under `k`; where the key is taken by `u`, the result is `join u v`. -/
def insertInto (join : β → β → β) (k : α) (v : β) : List (α × β) → List (α × β)
  | [] => [(k, v)]
  | (k', u) :: rest =>
    match compare k k' with
    | .lt => (k, v) :: (k', u) :: rest
    | .eq => (k', join u v) :: rest
    | .gt => (k', u) :: insertInto join k v rest

theorem compare_insertInto {join : β → β → β} {k : α} {v : β} {l : List (α × β)} {c : α}
    (hk : compare c k = .lt) (hl : ∀ e ∈ l, compare c e.1 = .lt) :
    ∀ e ∈ insertInto join k v l, compare c e.1 = .lt := by
  induction l with
  | nil => simpa [insertInto] using hk
  | cons e rest ih =>
    obtain ⟨he, hrest⟩ := List.forall_mem_cons.1 hl
    rw [insertInto]
    split
    · exact List.forall_mem_cons.2 ⟨hk, hl⟩
    · exact List.forall_mem_cons.2 ⟨he, hrest⟩
    · exact List.forall_mem_cons.2 ⟨he, ih hrest⟩

theorem increasing_insertInto [Std.TransOrd α] (join : β → β → β) (k : α) (v : β)
    {l : List (α × β)} (h : l.Pairwise (fun a b => compare a.1 b.1 = .lt)) :
    (insertInto join k v l).Pairwise (fun a b => compare a.1 b.1 = .lt) := by
  induction l with
  | nil => simp [insertInto]
  | cons e rest ih =>
    obtain ⟨he, hrest⟩ := List.pairwise_cons.1 h
    rw [insertInto]
    split
    · next hlt =>
      refine List.pairwise_cons.2 ⟨List.forall_mem_cons.2 ⟨hlt, fun x hx => ?_⟩, h⟩
      exact Std.TransCmp.lt_trans hlt (he x hx)
    · exact List.pairwise_cons.2 ⟨he, hrest⟩
    · next hgt =>
      exact List.pairwise_cons.2
        ⟨compare_insertInto (Std.OrientedCmp.lt_of_gt hgt) he, ih hrest⟩

def empty : SortedMap α β := ⟨[], .nil⟩

def singleton (k : α) (v : β) : SortedMap α β := ⟨[(k, v)], List.pairwise_singleton _ _⟩

def size (m : SortedMap α β) : Nat := m.entries.length

def isEmpty (m : SortedMap α β) : Bool := m.entries.isEmpty

def keys (m : SortedMap α β) : List α := m.entries.map Prod.fst

def values (m : SortedMap α β) : List β := m.entries.map Prod.snd

def get? [DecidableEq α] (m : SortedMap α β) (k : α) : Option β := lookupIn k m.entries

def contains [DecidableEq α] (m : SortedMap α β) (k : α) : Bool := (m.get? k).isSome

def mapValues (f : β → γ) (m : SortedMap α β) : SortedMap α γ :=
  ⟨m.entries.map (fun e => (e.1, f e.2)), List.pairwise_map.2 m.increasing⟩

section

variable [Std.TransOrd α]

def insertWith (join : β → β → β) (k : α) (v : β) (m : SortedMap α β) : SortedMap α β :=
  ⟨insertInto join k v m.entries, increasing_insertInto join k v m.increasing⟩

def insert (k : α) (v : β) (m : SortedMap α β) : SortedMap α β :=
  m.insertWith (fun _ new => new) k v

/-- The later of two pairs with one key is kept. -/
def ofList (l : List (α × β)) : SortedMap α β :=
  l.foldr (fun e m => m.insertWith (fun later _ => later) e.1 e.2) empty

/-- Pairs are taken in order, equal keys are joined. -/
def ofListWith (join : β → β → β) (l : List (α × β)) : SortedMap α β :=
  l.foldl (fun m e => m.insertWith join e.1 e.2) empty

/-- Key-wise union; `join` receives the left value first. -/
def unionWith (join : β → β → β) (m n : SortedMap α β) : SortedMap α β :=
  n.entries.foldl (fun acc e => acc.insertWith join e.1 e.2) m

end

section

variable [DecidableEq α]

omit [Ord α] in
theorem lookupIn_eq_none {k : α} {l : List (α × β)} (h : ∀ e ∈ l, k ≠ e.1) :
    lookupIn k l = none := by
  induction l with
  | nil => rfl
  | cons e rest ih =>
    obtain ⟨he, hrest⟩ := List.forall_mem_cons.1 h
    rw [lookupIn, if_neg he, ih hrest]

theorem lookupIn_insertInto [Std.TransOrd α] [Std.LawfulEqOrd α] (join : β → β → β)
    (k x : α) (v : β) {l : List (α × β)}
    (h : l.Pairwise (fun a b => compare a.1 b.1 = .lt)) :
    lookupIn x (insertInto join k v l) =
      if x = k then some (((lookupIn k l).map (join · v)).getD v) else lookupIn x l := by
  induction l with
  | nil => simp [insertInto, lookupIn]
  | cons e rest ih =>
    obtain ⟨he, hrest⟩ := List.pairwise_cons.1 h
    rw [insertInto]
    split
    · next hlt =>
      have hnone : lookupIn k (e :: rest) = none :=
        lookupIn_eq_none (List.forall_mem_cons.2 ⟨ne_of_compare_lt hlt,
          fun y hy => ne_of_compare_lt (Std.TransCmp.lt_trans hlt (he y hy))⟩)
      rw [lookupIn, hnone]
      simp
    · next heq =>
      obtain rfl := Std.LawfulEqOrd.eq_of_compare heq
      by_cases hx : x = e.1 <;> simp [lookupIn, hx]
    · next hgt =>
      have hne : e.1 ≠ k := ne_of_compare_lt (Std.OrientedCmp.lt_of_gt hgt)
      by_cases hx : x = e.1
      · simp [lookupIn, hx, hne]
      · simp [lookupIn, hx, ih hrest, hne.symm]

theorem get?_insertWith [Std.TransOrd α] [Std.LawfulEqOrd α] (join : β → β → β)
    (k x : α) (v : β) (m : SortedMap α β) :
    (m.insertWith join k v).get? x =
      if x = k then some (((m.get? k).map (join · v)).getD v) else m.get? x :=
  lookupIn_insertInto join k x v m.increasing

theorem get?_insert [Std.TransOrd α] [Std.LawfulEqOrd α] (k x : α) (v : β)
    (m : SortedMap α β) :
    (m.insert k v).get? x = if x = k then some v else m.get? x := by
  rw [insert, get?_insertWith]
  cases m.get? k <;> rfl

theorem get?_empty (k : α) : (empty : SortedMap α β).get? k = none := rfl

theorem get?_mapValues (f : β → γ) (m : SortedMap α β) (k : α) :
    (m.mapValues f).get? k = (m.get? k).map f := by
  simp only [get?, mapValues]
  induction m.entries with
  | nil => rfl
  | cons e rest ih => by_cases h : k = e.1 <;> simp [lookupIn, h, ih]

end

end SortedMap

end LinkClosure
