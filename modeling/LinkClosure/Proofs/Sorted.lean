import LinkClosure.Sorted.Map

/-!
# Sets by their members, maps by their look-ups

A sorted set is determined by its members and a sorted map by its look-ups, so
laws of the operations on them are proved one member or one key at a time.
-/

set_option autoImplicit false

namespace LinkClosure

/-- In increasing order a list is known by its members. -/
theorem increasing_ext {α : Type} {r : α → α → Prop} (hr : ∀ a b, r a b → ¬ r b a) {as bs : List α}
    (has : as.Pairwise r) (hbs : bs.Pairwise r) (h : ∀ x, x ∈ as ↔ x ∈ bs) : as = bs := by
  have hne : ∀ {a b}, r a b → a ≠ b := by
    rintro a _ hab rfl
    exact hr a a hab hab
  apply List.Perm.eq_of_pairwise _ has hbs
  · exact (List.perm_ext_iff_of_nodup (has.imp hne) (hbs.imp hne)).2 h
  · intro a b _ _ hab hba
    exact absurd hba (hr a b hab)

namespace SortedSet

variable {α : Type} [Ord α] [Std.TransOrd α]

theorem ext_mem {s t : SortedSet α} (h : ∀ x, x ∈ s ↔ x ∈ t) : s = t := by
  apply ext
  exact increasing_ext (fun _ _ => Std.OrientedCmp.not_lt_of_lt) s.increasing t.increasing h

variable [Std.LawfulEqOrd α]

theorem union_comm (s t : SortedSet α) : s.union t = t.union s := by
  apply ext_mem
  intro x
  rw [mem_union, mem_union, or_comm]

theorem union_assoc (s t u : SortedSet α) : (s.union t).union u = s.union (t.union u) := by
  apply ext_mem
  intro x
  rw [mem_union, mem_union, mem_union, mem_union, or_assoc]

theorem union_self (s : SortedSet α) : s.union s = s := by
  apply ext_mem
  intro x
  rw [mem_union, or_self]

end SortedSet

namespace SortedMap

variable {α β : Type} [Ord α] [Std.TransOrd α] [DecidableEq α]

omit [Ord α] [Std.TransOrd α] in
theorem mem_iff_lookupIn {l : List (α × β)} (hl : l.Pairwise fun a b => a.1 ≠ b.1) {k : α} {v : β} :
    (k, v) ∈ l ↔ lookupIn k l = some v := by
  induction l with
  | nil => simp [lookupIn]
  | cons e rest ih =>
    obtain ⟨he, hrest⟩ := List.pairwise_cons.1 hl
    rw [List.mem_cons, lookupIn, ih hrest]
    by_cases hk : k = e.1
    · subst hk
      have hnone : lookupIn e.1 rest = none := lookupIn_eq_none fun x hx => he x hx
      simp [hnone, Prod.ext_iff, eq_comm]
    · simp [hk, Prod.ext_iff]

theorem mem_entries_iff {m : SortedMap α β} {k : α} {v : β} :
    (k, v) ∈ m.entries ↔ m.get? k = some v :=
  mem_iff_lookupIn (m.increasing.imp ne_of_compare_lt)

theorem mem_keys_iff {m : SortedMap α β} {k : α} : k ∈ m.keys ↔ (m.get? k).isSome := by
  simp only [keys, List.mem_map, Option.isSome_iff_exists, ← mem_entries_iff]
  constructor
  · rintro ⟨e, he, rfl⟩
    exact ⟨e.2, he⟩
  · rintro ⟨v, hv⟩
    exact ⟨(k, v), hv, rfl⟩

omit [Std.TransOrd α] [DecidableEq α] in
theorem increasing_keys (m : SortedMap α β) : m.keys.Pairwise fun a b => compare a b = .lt :=
  List.pairwise_map.2 m.increasing

omit [DecidableEq α] in
theorem nodup_keys (m : SortedMap α β) : m.keys.Nodup := m.increasing_keys.imp ne_of_compare_lt

theorem ext_get? {m n : SortedMap α β} (h : ∀ k, m.get? k = n.get? k) : m = n := by
  apply ext
  apply increasing_ext (fun _ _ => Std.OrientedCmp.not_lt_of_lt) m.increasing n.increasing
  intro e
  rw [← Prod.eta e, mem_entries_iff, mem_entries_iff, h]

theorem keys_eq_of_map {γ : Type} {m n : SortedMap α β} {p : β → γ}
    (h : ∀ k, (m.get? k).map p = (n.get? k).map p) : m.keys = n.keys := by
  apply increasing_ext (fun _ _ => Std.OrientedCmp.not_lt_of_lt) m.increasing_keys n.increasing_keys
  intro k
  rw [mem_keys_iff, mem_keys_iff, ← Option.isSome_map (f := p), h, Option.isSome_map]

omit [Std.TransOrd α] in
theorem get?_singleton (k x : α) (v : β) :
    (singleton k v : SortedMap α β).get? x = if x = k then some v else none := rfl

variable [Std.LawfulEqOrd α]

theorem get?_foldl_insertWith (join : β → β → β) (m : SortedMap α β) (k : α)
    {l : List (α × β)} (hl : l.Pairwise fun a b => a.1 ≠ b.1) :
    (l.foldl (fun acc e => acc.insertWith join e.1 e.2) m).get? k =
      (m.get? k).merge join (lookupIn k l) := by
  induction l generalizing m with
  | nil => simp [lookupIn]
  | cons e rest ih =>
    obtain ⟨he, hrest⟩ := List.pairwise_cons.1 hl
    rw [List.foldl_cons, ih _ hrest, get?_insertWith, lookupIn]
    by_cases hk : k = e.1
    · subst hk
      have hnone : lookupIn e.1 rest = none := lookupIn_eq_none fun x hx => he x hx
      cases m.get? e.1 <;> simp [hnone]
    · simp [hk]

theorem get?_unionWith (join : β → β → β) (m n : SortedMap α β) (k : α) :
    (m.unionWith join n).get? k = (m.get? k).merge join (n.get? k) :=
  get?_foldl_insertWith join m k (n.increasing.imp ne_of_compare_lt)

section Laws

variable {join : β → β → β}

theorem unionWith_comm (h : ∀ u v, join u v = join v u) (m n : SortedMap α β) :
    m.unionWith join n = n.unionWith join m := by
  apply ext_get?
  intro k
  rw [get?_unionWith, get?_unionWith]
  cases m.get? k with
  | none => rw [Option.merge_none_left, Option.merge_none_right]
  | some u =>
    cases n.get? k with
    | none => rw [Option.merge_none_left, Option.merge_none_right]
    | some v => rw [Option.merge_some_some, Option.merge_some_some, h]

theorem unionWith_assoc (h : ∀ u v w, join (join u v) w = join u (join v w))
    (m n o : SortedMap α β) :
    (m.unionWith join n).unionWith join o = m.unionWith join (n.unionWith join o) := by
  apply ext_get?
  intro k
  simp only [get?_unionWith]
  cases m.get? k <;> cases n.get? k <;> cases o.get? k <;> simp [h]

theorem unionWith_self (h : ∀ v, join v v = v) (m : SortedMap α β) :
    m.unionWith join m = m := by
  apply ext_get?
  intro k
  rw [get?_unionWith]
  cases m.get? k with
  | none => rfl
  | some v => rw [Option.merge_some_some, h]

theorem empty_unionWith (m : SortedMap α β) : empty.unionWith join m = m := by
  apply ext_get?
  intro k
  rw [get?_unionWith, get?_empty, Option.merge_none_left]

end Laws

section Entries

variable {join : β → β → β} {Q : α → β → Prop}

omit [Std.TransOrd α] [DecidableEq α] in
theorem forall_insertInto (hjoin : ∀ k u v, Q k u → Q k v → Q k (join u v)) {k : α} {v : β}
    (hv : Q k v) {l : List (α × β)} (hl : ∀ e ∈ l, Q e.1 e.2) :
    ∀ e ∈ insertInto join k v l, Q e.1 e.2 := by
  induction l with
  | nil => simpa [insertInto] using hv
  | cons e rest ih =>
    obtain ⟨he, hrest⟩ := List.forall_mem_cons.1 hl
    rw [insertInto]
    split
    · exact List.forall_mem_cons.2 ⟨hv, hl⟩
    · next heq =>
      obtain rfl := Std.LawfulEqOrd.eq_of_compare heq
      exact List.forall_mem_cons.2 ⟨hjoin _ _ _ he hv, hrest⟩
    · exact List.forall_mem_cons.2 ⟨he, ih hrest⟩

omit [DecidableEq α] in
theorem forall_foldl_insertWith (hjoin : ∀ k u v, Q k u → Q k v → Q k (join u v))
    {l : List (α × β)} (hl : ∀ e ∈ l, Q e.1 e.2) {m : SortedMap α β}
    (hm : ∀ e ∈ m.entries, Q e.1 e.2) :
    ∀ e ∈ (l.foldl (fun acc e => acc.insertWith join e.1 e.2) m).entries, Q e.1 e.2 := by
  induction l generalizing m with
  | nil => exact hm
  | cons e rest ih =>
    obtain ⟨he, hrest⟩ := List.forall_mem_cons.1 hl
    exact ih hrest (forall_insertInto hjoin he hm)

omit [DecidableEq α] in
theorem forall_ofListWith (hjoin : ∀ k u v, Q k u → Q k v → Q k (join u v))
    {l : List (α × β)} (hl : ∀ e ∈ l, Q e.1 e.2) :
    ∀ e ∈ (ofListWith join l).entries, Q e.1 e.2 := by
  apply forall_foldl_insertWith hjoin hl
  intro e he
  cases he

end Entries

theorem mem_keys_insertWith (join : β → β → β) (k x : α) (v : β) (m : SortedMap α β) :
    x ∈ (m.insertWith join k v).keys ↔ x = k ∨ x ∈ m.keys := by
  rw [mem_keys_iff, mem_keys_iff, get?_insertWith]
  by_cases hx : x = k <;> simp [hx]

theorem mem_keys_foldl_insertWith (join : β → β → β) (m : SortedMap α β) (l : List (α × β))
    (x : α) :
    x ∈ (l.foldl (fun acc e => acc.insertWith join e.1 e.2) m).keys ↔
      x ∈ m.keys ∨ x ∈ l.map Prod.fst := by
  induction l generalizing m with
  | nil => simp
  | cons e rest ih =>
    rw [List.foldl_cons, ih, mem_keys_insertWith, List.map_cons, List.mem_cons, or_assoc,
      or_left_comm]

theorem mem_keys_unionWith (join : β → β → β) (m n : SortedMap α β) (x : α) :
    x ∈ (m.unionWith join n).keys ↔ x ∈ m.keys ∨ x ∈ n.keys :=
  mem_keys_foldl_insertWith join m n.entries x

theorem mem_keys_ofListWith (join : β → β → β) (l : List (α × β)) (x : α) :
    x ∈ (ofListWith join l).keys ↔ x ∈ l.map Prod.fst := by
  rw [ofListWith, mem_keys_foldl_insertWith]
  exact or_iff_right (List.not_mem_nil (a := x))

theorem get?_ofListWith_iff (join : β → β → β) {l : List (α × β)}
    (hl : l.Pairwise fun a b => a.1 ≠ b.1) {k : α} {v : β} :
    (ofListWith join l).get? k = some v ↔ (k, v) ∈ l := by
  rw [ofListWith, get?_foldl_insertWith join empty k hl, get?_empty, Option.merge_none_left,
    mem_iff_lookupIn hl]

theorem get?_ofList_cons (e : α × β) (l : List (α × β)) (k : α) :
    (ofList (e :: l)).get? k =
      ((ofList l).get? k).or (if k = e.1 then some e.2 else none) := by
  have hcons : ofList (e :: l) = (ofList l).insertWith (fun later _ => later) e.1 e.2 := rfl
  rw [hcons, get?_insertWith]
  by_cases hk : k = e.1
  · subst hk
    cases (ofList l).get? e.1 <;> simp
  · simp [hk]

theorem mem_of_get?_ofList {l : List (α × β)} {k : α} {v : β}
    (h : (ofList l).get? k = some v) : (k, v) ∈ l := by
  induction l with
  | nil => simp [ofList, get?_empty] at h
  | cons e rest ih =>
    rw [get?_ofList_cons, Option.or_eq_some_iff] at h
    rcases h with h | ⟨_, h⟩
    · exact List.mem_cons_of_mem e (ih h)
    · obtain ⟨rfl, rfl⟩ : k = e.1 ∧ e.2 = v := by simpa using h
      simp

theorem get?_ofList_iff {l : List (α × β)} (hl : (l.map Prod.fst).Nodup) {k : α} {v : β} :
    (ofList l).get? k = some v ↔ (k, v) ∈ l := by
  refine ⟨mem_of_get?_ofList, fun h => ?_⟩
  induction l with
  | nil => simp at h
  | cons e rest ih =>
    obtain ⟨hne, hrest⟩ := List.nodup_cons.1 hl
    rw [get?_ofList_cons]
    rcases List.mem_cons.1 h with rfl | h
    · have hnone : (ofList rest).get? k = none := by
        cases hget : (ofList rest).get? k with
        | none => rfl
        | some w => exact absurd (List.mem_map_of_mem (mem_of_get?_ofList hget)) hne
      simp [hnone]
    · simp [ih hrest h]

theorem eq_ofList {m : SortedMap α β} {l : List (α × β)} (hl : (l.map Prod.fst).Nodup)
    (h : ∀ k v, m.get? k = some v ↔ (k, v) ∈ l) : m = ofList l := by
  apply ext_get?
  intro k
  apply Option.ext
  intro v
  rw [h, get?_ofList_iff hl]

end SortedMap

end LinkClosure
