import LinkClosure.Closure.Pass
import LinkClosure.Proofs.Merging
import Mathlib.Tactic.ByContra

/-!
# The best of several arrivals

A path arrives at a node with a length and a state. Of two arrivals the shorter
one counts, and arrivals of equal length are merged. Where merging is
commutative and associative, so is this choice: a list of arrivals has one best
arrival, in whatever order they are offered.
-/

set_option autoImplicit false

namespace LinkClosure

namespace Pass

variable {σ : Type} (p : Pass σ)

/-- What the search relies on: the order of merging is free, and every edge takes a
way further. -/
structure Lawful : Prop where
  merge_comm : ∀ x y, p.merge x y = p.merge y x
  merge_assoc : ∀ x y z, p.merge (p.merge x y) z = p.merge x (p.merge y z)
  weight_pos : ∀ l, 0 < p.weight l

theorem low_lawful : Pass.low.Lawful where
  merge_comm := Causes.merge_comm
  merge_assoc := Causes.merge_assoc
  weight_pos l := by cases l <;> exact Nat.succ_pos _

theorem high_lawful : Pass.high.Lawful where
  merge_comm := Level.min_comm
  merge_assoc := Level.min_assoc
  weight_pos l := by cases l <;> exact Nat.succ_pos _

def join (a b : Nat × σ) : Nat × σ :=
  if a.1 = b.1 then (a.1, p.merge a.2 b.2) else if b.1 < a.1 then b else a

theorem join_of_lt (a b : Nat × σ) (h : a.1 < b.1) : p.join a b = a := by
  simp only [join]
  rw [if_neg (by omega), if_neg (by omega)]

theorem join_of_gt (a b : Nat × σ) (h : b.1 < a.1) : p.join a b = b := by
  simp only [join]
  rw [if_neg (by omega), if_pos h]

theorem join_of_eq (a b : Nat × σ) (h : a.1 = b.1) : p.join a b = (a.1, p.merge a.2 b.2) :=
  if_pos h

variable {p}

theorem Lawful.join_comm (hp : p.Lawful) (a b : Nat × σ) : p.join a b = p.join b a := by
  rcases Nat.lt_trichotomy a.1 b.1 with h | h | h
  · rw [p.join_of_lt a b h, p.join_of_gt b a h]
  · rw [p.join_of_eq a b h, p.join_of_eq b a h.symm, h, hp.merge_comm]
  · rw [p.join_of_lt b a h, p.join_of_gt a b h]

theorem Lawful.join_assoc (hp : p.Lawful) (a b c : Nat × σ) :
    p.join (p.join a b) c = p.join a (p.join b c) := by
  obtain ⟨i, x⟩ := a
  obtain ⟨j, y⟩ := b
  obtain ⟨k, z⟩ := c
  rcases Nat.lt_trichotomy i j with hij | rfl | hij
  · rw [p.join_of_lt (i, x) (j, y) hij]
    rcases Nat.lt_trichotomy j k with hjk | rfl | hjk
    · rw [p.join_of_lt (j, y) (k, z) hjk, p.join_of_lt (i, x) (j, y) hij,
        p.join_of_lt (i, x) (k, z) (Nat.lt_trans hij hjk)]
    · rw [p.join_of_eq (j, y) (j, z) rfl, p.join_of_lt (i, x) (j, z) hij,
        p.join_of_lt (i, x) (j, p.merge y z) hij]
    · rw [p.join_of_gt (j, y) (k, z) hjk]
  · rw [p.join_of_eq (i, x) (i, y) rfl]
    rcases Nat.lt_trichotomy i k with hik | rfl | hik
    · rw [p.join_of_lt (i, y) (k, z) hik, p.join_of_eq (i, x) (i, y) rfl,
        p.join_of_lt (i, p.merge x y) (k, z) hik]
    · rw [p.join_of_eq (i, y) (i, z) rfl, p.join_of_eq (i, p.merge x y) (i, z) rfl,
        p.join_of_eq (i, x) (i, p.merge y z) rfl, hp.merge_assoc]
    · rw [p.join_of_gt (i, y) (k, z) hik, p.join_of_gt (i, p.merge x y) (k, z) hik,
        p.join_of_gt (i, x) (k, z) hik]
  · rw [p.join_of_gt (i, x) (j, y) hij]
    rcases Nat.lt_trichotomy j k with hjk | rfl | hjk
    · rw [p.join_of_lt (j, y) (k, z) hjk, p.join_of_gt (i, x) (j, y) hij]
    · rw [p.join_of_eq (j, y) (j, z) rfl, p.join_of_gt (i, x) (j, p.merge y z) hij]
    · rw [p.join_of_gt (j, y) (k, z) hjk, p.join_of_gt (i, x) (k, z) (Nat.lt_trans hjk hij)]

theorem Lawful.merge_join_assoc (hp : p.Lawful) (a b c : Option (Nat × σ)) :
    (a.merge p.join b).merge p.join c = a.merge p.join (b.merge p.join c) := by
  have : Std.Associative p.join := ⟨hp.join_assoc⟩
  exact (Option.associative_merge p.join).assoc a b c

theorem Lawful.merge_join_comm (hp : p.Lawful) (a b : Option (Nat × σ)) :
    a.merge p.join b = b.merge p.join a := by
  have : Std.Commutative p.join := ⟨hp.join_comm⟩
  exact (Option.commutative_merge p.join).comm a b

variable (p)

def joinAll (as : List (Nat × σ)) : Option (Nat × σ) :=
  as.foldr (fun a best => (some a).merge p.join best) none

theorem joinAll_nil : p.joinAll [] = none := rfl

theorem joinAll_cons (a : Nat × σ) (as : List (Nat × σ)) :
    p.joinAll (a :: as) = (some a).merge p.join (p.joinAll as) := rfl

theorem joinAll_eq_none {as : List (Nat × σ)} : p.joinAll as = none ↔ as = [] := by
  cases as with
  | nil => simp [joinAll_nil]
  | cons a as => simp [joinAll_cons, Option.merge_eq_none_iff]

def tied (d : Nat) (as : List (Nat × σ)) : List σ := (as.filter fun a => a.1 = d).map Prod.snd

def mergeAll (xs : List σ) : Option σ := xs.foldr (fun x rest => (some x).merge p.merge rest) none

omit p in
theorem tied_cons_self {d : Nat} {x : σ} {as : List (Nat × σ)} :
    tied d ((d, x) :: as) = x :: tied d as := by
  simp [tied]

omit p in
theorem tied_cons_of_ne {d : Nat} {a : Nat × σ} {as : List (Nat × σ)} (h : a.1 ≠ d) :
    tied d (a :: as) = tied d as := by
  simp [tied, h]

omit p in
theorem tied_eq_nil {d : Nat} {as : List (Nat × σ)} (h : ∀ a ∈ as, d < a.1) : tied d as = [] := by
  have hfilter : as.filter (fun a => a.1 = d) = [] := by
    refine List.filter_eq_nil_iff.2 fun a ha => ?_
    have := h a ha
    simp only [decide_eq_true_eq]
    omega
  rw [tied, hfilter, List.map_nil]

omit p in
theorem mem_tied {d : Nat} {x : σ} {as : List (Nat × σ)} : x ∈ tied d as ↔ (d, x) ∈ as := by
  simp [tied]

theorem mergeAll_cons (x : σ) (xs : List σ) :
    p.mergeAll (x :: xs) = (some x).merge p.merge (p.mergeAll xs) := rfl

theorem mergeAll_eq_none {xs : List σ} : p.mergeAll xs = none ↔ xs = [] := by
  cases xs with
  | nil => simp [mergeAll]
  | cons x xs => simp [mergeAll_cons, Option.merge_eq_none_iff]

theorem mergeAll_induction {P : σ → Prop} (hmerge : ∀ x y, P x → P y → P (p.merge x y))
    {xs : List σ} (hxs : ∀ x ∈ xs, P x) {z : σ} (h : p.mergeAll xs = some z) : P z := by
  induction xs generalizing z with
  | nil => simp [mergeAll] at h
  | cons x xs ih =>
    obtain ⟨hx, hrest⟩ := List.forall_mem_cons.1 hxs
    rw [mergeAll_cons] at h
    cases hall : p.mergeAll xs with
    | none =>
      rw [hall, Option.merge_none_right] at h
      rwa [← Option.some.inj h]
    | some y =>
      rw [hall, Option.merge_some_some] at h
      rw [← Option.some.inj h]
      exact hmerge x y hx (ih hrest hall)

/-- The best arrival is the shortest, with the states of all arrivals of that length. -/
theorem least_of_joinAll {as : List (Nat × σ)} {d : Nat} {x : σ}
    (h : p.joinAll as = some (d, x)) :
    (∀ a ∈ as, d ≤ a.1) ∧ p.mergeAll (tied d as) = some x := by
  induction as generalizing d x with
  | nil => simp [joinAll_nil] at h
  | cons a as ih =>
    obtain ⟨k, y⟩ := a
    rw [joinAll_cons] at h
    cases hrest : p.joinAll as with
    | none =>
      obtain rfl := p.joinAll_eq_none.1 hrest
      obtain ⟨rfl, rfl⟩ : k = d ∧ y = x := by simpa [hrest] using h
      simp [tied, mergeAll]
    | some b =>
      obtain ⟨e, z⟩ := b
      obtain ⟨hle, hz⟩ := ih hrest
      rw [hrest, Option.merge_some_some, Option.some.injEq] at h
      rcases Nat.lt_trichotomy k e with hk | rfl | hk
      · rw [p.join_of_lt (k, y) (e, z) hk, Prod.mk.injEq] at h
        obtain ⟨rfl, rfl⟩ := h
        have hlt : ∀ a ∈ as, k < a.1 := fun a ha => Nat.lt_of_lt_of_le hk (hle a ha)
        refine ⟨List.forall_mem_cons.2 ⟨Nat.le_refl k, fun a ha => Nat.le_of_lt (hlt a ha)⟩, ?_⟩
        rw [tied_cons_self, tied_eq_nil hlt]
        rfl
      · rw [p.join_of_eq (k, y) (k, z) rfl, Prod.mk.injEq] at h
        obtain ⟨rfl, rfl⟩ := h
        refine ⟨List.forall_mem_cons.2 ⟨Nat.le_refl k, hle⟩, ?_⟩
        rw [tied_cons_self, mergeAll_cons, hz]
        rfl
      · rw [p.join_of_gt (k, y) (e, z) hk, Prod.mk.injEq] at h
        obtain ⟨rfl, rfl⟩ := h
        refine ⟨List.forall_mem_cons.2 ⟨Nat.le_of_lt hk, hle⟩, ?_⟩
        rwa [tied_cons_of_ne (Nat.ne_of_gt hk)]

theorem joinAll_le {as : List (Nat × σ)} {b : Nat × σ} (h : p.joinAll as = some b) :
    ∀ a ∈ as, b.1 ≤ a.1 := (p.least_of_joinAll h).1

theorem joinAll_attained {as : List (Nat × σ)} {b : Nat × σ} (h : p.joinAll as = some b) :
    ∃ a ∈ as, a.1 = b.1 := by
  by_contra hne
  have hnil : tied b.1 as = [] := by
    refine tied_eq_nil fun a ha => ?_
    have : a.1 ≠ b.1 := fun hd => hne ⟨a, ha, hd⟩
    have := p.joinAll_le h a ha
    omega
  have hmerge := (p.least_of_joinAll h).2
  rw [hnil] at hmerge
  simp [mergeAll] at hmerge

theorem joinAll_eq_some_iff {as : List (Nat × σ)} {d : Nat} {x : σ} :
    p.joinAll as = some (d, x) ↔ (∀ a ∈ as, d ≤ a.1) ∧ p.mergeAll (tied d as) = some x := by
  refine ⟨p.least_of_joinAll, fun ⟨hle, hmerge⟩ => ?_⟩
  cases hbest : p.joinAll as with
  | none =>
    rw [p.joinAll_eq_none.1 hbest] at hmerge
    simp [tied, mergeAll] at hmerge
  | some b =>
    obtain ⟨e, y⟩ := b
    obtain ⟨hle', hmerge'⟩ := p.least_of_joinAll hbest
    have hde : d ≤ e := by
      obtain ⟨a, ha, rfl⟩ := p.joinAll_attained hbest
      exact hle a ha
    have hed : e ≤ d := by
      by_contra hlt
      have hnil : tied d as = [] := tied_eq_nil fun a ha => by have := hle' a ha; omega
      rw [hnil] at hmerge
      simp [mergeAll] at hmerge
    obtain rfl := Nat.le_antisymm hde hed
    rw [hmerge] at hmerge'
    rw [Option.some.inj hmerge']

theorem merge_joinAll (o : Option (Nat × σ)) (as : List (Nat × σ)) :
    o.merge p.join (p.joinAll as) = p.joinAll (o.toList ++ as) := by
  cases o with
  | none => rw [Option.merge_none_left, Option.toList_none, List.nil_append]
  | some a => rfl

theorem joinAll_of_mem {as : List (Nat × σ)} {a : Nat × σ} (h : a ∈ as) :
    ∃ b, p.joinAll as = some b ∧ b.1 ≤ a.1 := by
  cases hbest : p.joinAll as with
  | none =>
    rw [p.joinAll_eq_none.1 hbest] at h
    cases h
  | some b => exact ⟨b, rfl, p.joinAll_le hbest a h⟩

variable {p}

theorem Lawful.joinAll_append (hp : p.Lawful) (as bs : List (Nat × σ)) :
    p.joinAll (as ++ bs) = (p.joinAll as).merge p.join (p.joinAll bs) := by
  induction as with
  | nil => simp [joinAll_nil]
  | cons a as ih => rw [List.cons_append, joinAll_cons, joinAll_cons, ih, hp.merge_join_assoc]

theorem Lawful.joinAll_perm (hp : p.Lawful) {as bs : List (Nat × σ)} (h : as.Perm bs) :
    p.joinAll as = p.joinAll bs := by
  refine List.Perm.foldr_eq' h (fun a _ b _ best => ?_) none
  rw [← hp.merge_join_assoc, ← hp.merge_join_assoc, hp.merge_join_comm (some b)]

theorem Lawful.mergeAll_perm (hp : p.Lawful) {xs ys : List σ} (h : xs.Perm ys) :
    p.mergeAll xs = p.mergeAll ys := by
  have : Std.Commutative p.merge := ⟨hp.merge_comm⟩
  have : Std.Associative p.merge := ⟨hp.merge_assoc⟩
  refine List.Perm.foldr_eq' h (fun x _ y _ rest => ?_) none
  have hassoc := (Option.associative_merge p.merge).assoc
  rw [← hassoc, ← hassoc, (Option.commutative_merge p.merge).comm (some y)]

theorem Lawful.mergeAll_eq_foldl (hp : p.Lawful) (x : σ) (xs : List σ) :
    p.mergeAll (x :: xs) = some (xs.foldl p.merge x) := by
  induction xs generalizing x with
  | nil => rfl
  | cons y ys ih =>
    rw [List.foldl_cons, ← ih, mergeAll_cons, mergeAll_cons, mergeAll_cons]
    cases p.mergeAll ys with
    | none => rfl
    | some z => simp [hp.merge_assoc]

theorem merge_joinAll_of_lt {b : Nat × σ} {as : List (Nat × σ)} (h : ∀ a ∈ as, b.1 < a.1) :
    (some b).merge p.join (p.joinAll as) = some b := by
  cases hbest : p.joinAll as with
  | none => rw [Option.merge_none_right]
  | some c =>
    obtain ⟨a, ha, hc⟩ := p.joinAll_attained hbest
    rw [Option.merge_some_some, p.join_of_lt b c (hc ▸ h a ha)]

end Pass

end LinkClosure
