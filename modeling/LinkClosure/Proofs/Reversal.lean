import LinkClosure.Proofs.Merging

/-!
# Reversing and merging

A linkage is reversed by turning its links round; sources that share a target
become one set then, and links of one source that are merged have their targets
united. The two operations get into each other's way: to merge and then reverse
is not the same as to reverse and then merge.

They do agree on linkages that form a one-to-one correspondence together. Then
reversing also undoes itself, and a list of alternatives can be reversed one by
one.
-/

set_option autoImplicit false

namespace LinkClosure

namespace Linkage

variable {m n o : Linkage} {x y x' y' : CoordinateSet}

def Sends (m : Linkage) (x y : CoordinateSet) : Prop := ∃ b, m.get? x = some ⟨y, b⟩

theorem mem_entries {e : CoordinateSet × Link} : e ∈ m.entries ↔ m.get? e.1 = some e.2 :=
  SortedMap.mem_entries_iff

theorem targets_eq (m : Linkage) : m.targets = m.entries.map fun e => e.2.target :=
  List.map_map

theorem mem_keys_reverse : x ∈ m.reverse.links.keys ↔ x ∈ m.targets := by
  rw [targets_eq, reverse, SortedMap.mem_keys_ofListWith, List.map_map]
  rfl

theorem isEmpty_reverse (h : m.isEmpty = false) : m.reverse.isEmpty = false := by
  obtain ⟨k, hk⟩ := isEmpty_eq_false.1 h
  obtain ⟨e, he, rfl⟩ := List.mem_map.1 hk
  rw [isEmpty_eq_false]
  refine ⟨e.2.target, ?_⟩
  rw [mem_keys_reverse, targets_eq]
  exact List.mem_map.2 ⟨e, he, rfl⟩

/-- Taken together the links of the two are one to one. -/
def Concordant (m n : Linkage) : Prop :=
  ∀ e ∈ m.entries, ∀ e' ∈ n.entries, e.1 = e'.1 ↔ e.2.target = e'.2.target

instance : DecidableRel Concordant := fun m n =>
  inferInstanceAs (Decidable (∀ e ∈ m.entries, ∀ e' ∈ n.entries, _ ↔ _))

theorem concordant_iff :
    m.Concordant n ↔ ∀ x y x' y', m.Sends x y → n.Sends x' y' → (x = x' ↔ y = y') := by
  constructor
  · intro h x y x' y' hm hn
    obtain ⟨b, hb⟩ := hm
    obtain ⟨b', hb'⟩ := hn
    exact h (x, ⟨y, b⟩) (mem_entries.2 hb) (x', ⟨y', b'⟩) (mem_entries.2 hb')
  · intro h e he e' he'
    exact h e.1 e.2.target e'.1 e'.2.target ⟨e.2.isMutable, mem_entries.1 he⟩
      ⟨e'.2.isMutable, mem_entries.1 he'⟩

theorem Concordant.target_eq (h : m.Concordant n) {l k : Link} (hm : m.get? x = some l)
    (hn : n.get? x = some k) : l.target = k.target :=
  (h (x, l) (mem_entries.2 hm) (x, k) (mem_entries.2 hn)).1 rfl

theorem Concordant.symm (h : m.Concordant n) : n.Concordant m := by
  intro e he e' he'
  rw [eq_comm, h e' he' e he, eq_comm]

theorem get?_reverse (hm : m.Concordant m) {b : Bool} :
    m.reverse.get? y = some ⟨x, b⟩ ↔ m.get? x = some ⟨y, b⟩ := by
  have hkeys : (m.entries.map fun e => (e.2.target, (⟨e.1, e.2.isMutable⟩ : Link))).Pairwise
      fun a b => a.1 ≠ b.1 := by
    rw [List.pairwise_map]
    apply (m.links.increasing.imp ne_of_compare_lt).imp_of_mem
    intro e e' he he' hne htarget
    exact hne ((hm e he e' he').2 htarget)
  show (SortedMap.ofListWith Link.merge _).get? y = _ ↔ _
  rw [SortedMap.get?_ofListWith_iff Link.merge hkeys, List.mem_map]
  constructor
  · intro h
    obtain ⟨⟨k, t, c⟩, he, heq⟩ := h
    simp only [Prod.mk.injEq, Link.mk.injEq] at heq
    obtain ⟨rfl, rfl, rfl⟩ := heq
    exact mem_entries.1 he
  · intro h
    exact ⟨(x, ⟨y, b⟩), mem_entries.2 h, rfl⟩

theorem sends_reverse (hm : m.Concordant m) : m.reverse.Sends y x ↔ m.Sends x y :=
  exists_congr fun _ => get?_reverse hm

theorem Concordant.reverse (h : m.Concordant n) (hm : m.Concordant m) (hn : n.Concordant n) :
    m.reverse.Concordant n.reverse := by
  rw [concordant_iff] at h ⊢
  intro y x y' x' hmy hny
  rw [sends_reverse hm] at hmy
  rw [sends_reverse hn] at hny
  exact (h x y x' y' hmy hny).symm

theorem ext_links (hlinks : ∀ x y b, m.get? x = some ⟨y, b⟩ ↔ n.get? x = some ⟨y, b⟩)
    (hsource : m.sourceArea = n.sourceArea) (htarget : m.targetArea = n.targetArea) : m = n := by
  have hmaps : m.links = n.links := by
    apply SortedMap.ext_get?
    intro x
    apply Option.ext
    intro l
    exact hlinks x l.target l.isMutable
  cases m
  cases n
  simp_all

theorem reverse_reverse (hm : m.Concordant m) : m.reverse.reverse = m := by
  apply ext_links
  · intro x y b
    rw [get?_reverse (hm.reverse hm hm), get?_reverse hm]
  · rfl
  · rfl

theorem get?_merge (m n : Linkage) (x : CoordinateSet) :
    (m.merge n).get? x = (m.get? x).merge Link.merge (n.get? x) :=
  SortedMap.get?_unionWith Link.merge m.links n.links x

theorem sends_merge (h : m.Concordant n) :
    (m.merge n).Sends x y ↔ m.Sends x y ∨ n.Sends x y := by
  simp only [Sends, get?_merge]
  cases hm : m.get? x with
  | none =>
    rw [Option.merge_none_left]
    simp
  | some l =>
    cases hn : n.get? x with
    | none =>
      rw [Option.merge_none_right]
      simp
    | some k =>
      have htarget : l.target = k.target := h.target_eq hm hn
      rw [Option.merge_some_some, Link.merge, ← htarget, CoordinateSet.merge_self]
      cases l
      cases k
      simp_all

theorem Concordant.merge (h : m.Concordant n) (hm : m.Concordant o) (hn : n.Concordant o) :
    (m.merge n).Concordant o := by
  rw [concordant_iff] at hm hn ⊢
  intro x y x' y' hxy ho
  rw [sends_merge h] at hxy
  rcases hxy with hxy | hxy
  · exact hm x y x' y' hxy ho
  · exact hn x y x' y' hxy ho

theorem get?_reverse_none (hn : n.Concordant n) (h : m.Concordant n) (hm : m.Sends x y)
    (hnone : n.get? x = none) : n.reverse.get? y = none := by
  cases hget : n.reverse.get? y with
  | none => rfl
  | some l =>
    have hl : n.get? l.target = some ⟨y, l.isMutable⟩ := (get?_reverse hn).1 hget
    have hx : x = l.target := (concordant_iff.1 h x y l.target y hm ⟨_, hl⟩).2 rfl
    rw [← hx, hnone] at hl
    cases hl

theorem get?_merge_reverse (hm : m.Concordant m) (hn : n.Concordant n) (h : m.Concordant n)
    {b : Bool} (hget : (m.merge n).get? x = some ⟨y, b⟩) :
    (m.reverse.merge n.reverse).get? y = some ⟨x, b⟩ := by
  rw [get?_merge] at hget ⊢
  cases hmx : m.get? x with
  | none =>
    rw [hmx, Option.merge_none_left] at hget
    rw [get?_reverse_none hm h.symm ⟨b, hget⟩ hmx, Option.merge_none_left]
    exact (get?_reverse hn).2 hget
  | some l =>
    cases hnx : n.get? x with
    | none =>
      rw [hmx, hnx, Option.merge_none_right] at hget
      have hmy : m.get? x = some ⟨y, b⟩ := hmx.trans hget
      rw [get?_reverse_none hn h ⟨b, hmy⟩ hnx, Option.merge_none_right]
      exact (get?_reverse hm).2 hmy
    | some k =>
      have htarget : l.target = k.target := h.target_eq hmx hnx
      rw [hmx, hnx, Option.merge_some_some, Link.merge, ← htarget, CoordinateSet.merge_self] at hget
      obtain ⟨rfl, rfl⟩ := Link.mk.inj (Option.some.inj hget)
      have hmy : m.reverse.get? l.target = some ⟨x, l.isMutable⟩ := (get?_reverse hm).2 hmx
      have hny : n.reverse.get? l.target = some ⟨x, k.isMutable⟩ := by
        rw [htarget]
        exact (get?_reverse hn).2 hnx
      rw [hmy, hny, Option.merge_some_some, Link.merge, CoordinateSet.merge_self]

/-- Where the links are one to one together, reversing distributes over merging. -/
theorem reverse_merge (hm : m.Concordant m) (hn : n.Concordant n) (h : m.Concordant n) :
    (m.merge n).reverse = m.reverse.merge n.reverse := by
  have hself : (m.merge n).Concordant (m.merge n) :=
    h.merge (h.merge hm h.symm).symm (h.merge h hn).symm
  apply ext_links
  · intro y x b
    rw [get?_reverse hself]
    constructor
    · exact get?_merge_reverse hm hn h
    · intro hget
      have hback := get?_merge_reverse (hm.reverse hm hm) (hn.reverse hn hn) (h.reverse hm hn) hget
      rwa [reverse_reverse hm, reverse_reverse hn] at hback
  · rfl
  · rfl

end Linkage

namespace Level

variable {a b c : Level} {ls ks : List Level}

theorem linkage?_eq_some {l : Level} {m : Linkage} :
    l.linkage? = some m ↔ l = dependent m ∨ l = commonHidden m := by
  cases l <;> simp [linkage?]

theorem linkage?_reverse (l : Level) : l.reverse.linkage? = l.linkage?.map Linkage.reverse := by
  cases l <;> rfl

theorem linkage?_reverse_of {l : Level} {m : Linkage} (h : l.linkage? = some m) :
    l.reverse.linkage? = some m.reverse := by
  rw [linkage?_reverse, h, Option.map_some]

/-- Linkages of one kind are one to one together; all else goes with everything. -/
def Concordant : Level → Level → Prop
  | dependent m, dependent n => m.Concordant n
  | commonHidden m, commonHidden n => m.Concordant n
  | _, _ => True

instance : DecidableRel Concordant
  | dependent m, dependent n => inferInstanceAs (Decidable (m.Concordant n))
  | commonHidden m, commonHidden n => inferInstanceAs (Decidable (m.Concordant n))
  | staticallyAssigned, _ | assigned, _ | independent, _ | delayed _, _ => .isTrue trivial
  | dependent _, staticallyAssigned | dependent _, assigned | dependent _, commonHidden _
  | dependent _, independent | dependent _, delayed _ => .isTrue trivial
  | commonHidden _, staticallyAssigned | commonHidden _, assigned | commonHidden _, dependent _
  | commonHidden _, independent | commonHidden _, delayed _ => .isTrue trivial

theorem Concordant.symm (h : a.Concordant b) : b.Concordant a := by
  cases a <;> cases b
  case dependent.dependent m n => exact Linkage.Concordant.symm h
  case commonHidden.commonHidden m n => exact Linkage.Concordant.symm h
  all_goals exact trivial

theorem Concordant.reverse (h : a.Concordant b) (ha : a.Concordant a) (hb : b.Concordant b) :
    a.reverse.Concordant b.reverse := by
  cases a <;> cases b
  case dependent.dependent m n => exact Linkage.Concordant.reverse h ha hb
  case commonHidden.commonHidden m n => exact Linkage.Concordant.reverse h ha hb
  all_goals exact trivial

theorem min_cases (a b : Level) :
    a.min b = a ∨ a.min b = b ∨ (∃ c, a.min b = delayed c) ∨
      (∃ m n, a = dependent m ∧ b = dependent n ∧ a.min b = dependent (m.merge n)) ∨
        ∃ m n, a = commonHidden m ∧ b = commonHidden n ∧ a.min b = commonHidden (m.merge n) := by
  cases a <;> cases b <;> simp [min, rank]

theorem Concordant.min (h : a.Concordant b) (ha : a.Concordant c) (hb : b.Concordant c) :
    (a.min b).Concordant c := by
  rcases min_cases a b with hmin | hmin | ⟨d, hmin⟩ | ⟨m, n, rfl, rfl, hmin⟩ | ⟨m, n, rfl, rfl, hmin⟩
  · rwa [hmin]
  · rwa [hmin]
  · rw [hmin]
    exact trivial
  · rw [hmin]
    cases c
    case dependent o => exact Linkage.Concordant.merge h ha hb
    all_goals exact trivial
  · rw [hmin]
    cases c
    case commonHidden o => exact Linkage.Concordant.merge h ha hb
    all_goals exact trivial

theorem reverse_reverse (h : a.Concordant a) : a.reverse.reverse = a := by
  cases a with
  | dependent m => exact congrArg dependent (Linkage.reverse_reverse h)
  | commonHidden m => exact congrArg commonHidden (Linkage.reverse_reverse h)
  | _ => rfl

theorem reverse_min (ha : a.Concordant a) (hb : b.Concordant b) (h : a.Concordant b) :
    (a.min b).reverse = a.reverse.min b.reverse := by
  cases a <;> cases b
  case dependent.dependent m n => exact congrArg dependent (Linkage.reverse_merge ha hb h)
  case commonHidden.commonHidden m n =>
    exact congrArg commonHidden (Linkage.reverse_merge ha hb h)
  all_goals rfl

instance : Std.Commutative min := ⟨min_comm⟩

instance : Std.Associative min := ⟨min_assoc⟩

theorem merge_min_assoc (a b c : Option Level) :
    (a.merge min b).merge min c = a.merge min (b.merge min c) := Std.Associative.assoc a b c

theorem merge_min_comm (a b : Option Level) : a.merge min b = b.merge min a :=
  Std.Commutative.comm a b

def minAll (ls : List Level) : Option Level := ls.foldr (fun l rest => (some l).merge min rest) none

theorem minAll_cons (l : Level) (ls : List Level) :
    minAll (l :: ls) = (some l).merge min (minAll ls) := rfl

theorem minAll_append (ls ks : List Level) :
    minAll (ls ++ ks) = (minAll ls).merge min (minAll ks) := by
  induction ls with
  | nil => exact (Option.merge_none_left).symm
  | cons l ls ih =>
    rw [List.cons_append, minAll_cons, minAll_cons, ih, merge_min_assoc]

theorem semilattice_min : Semilattice min := ⟨⟨min_comm⟩, ⟨min_assoc⟩, ⟨min_self⟩⟩

theorem minAll_congr (h : ls ⊆ ks) (h' : ks ⊆ ls) : minAll ls = minAll ks :=
  semilattice_min.combine_congr h h'

theorem concordant_minAll (hls : ∀ a ∈ ls, ∀ b ∈ ls, a.Concordant b)
    (hc : ∀ a ∈ ls, a.Concordant c) (h : minAll ls = some a) : a.Concordant c := by
  induction ls generalizing a c with
  | nil => cases h
  | cons l ls ih =>
    obtain ⟨hl, hrest⟩ := List.forall_mem_cons.1 hc
    have hls' : ∀ a ∈ ls, ∀ b ∈ ls, a.Concordant b := fun a ha b hb =>
      hls a (List.mem_cons_of_mem l ha) b (List.mem_cons_of_mem l hb)
    rw [minAll_cons] at h
    cases hall : minAll ls with
    | none =>
      rw [hall, Option.merge_none_right] at h
      rwa [← Option.some.inj h]
    | some m =>
      rw [hall, Option.merge_some_some] at h
      rw [← Option.some.inj h]
      have hlm : m.Concordant l := ih hls' (fun a ha =>
        hls a (List.mem_cons_of_mem l ha) l List.mem_cons_self) hall
      exact hlm.symm.min hl (ih hls' hrest hall)

theorem reverse_minAll (hls : ∀ a ∈ ls, ∀ b ∈ ls, a.Concordant b) :
    (minAll ls).map reverse = minAll (ls.map reverse) := by
  induction ls with
  | nil => rfl
  | cons l ls ih =>
    have hls' : ∀ a ∈ ls, ∀ b ∈ ls, a.Concordant b := fun a ha b hb =>
      hls a (List.mem_cons_of_mem l ha) b (List.mem_cons_of_mem l hb)
    rw [List.map_cons, minAll_cons, minAll_cons, ← ih hls']
    cases hall : minAll ls with
    | none => rfl
    | some m =>
      have hmm : m.Concordant m :=
        concordant_minAll hls' (fun a ha => (concordant_minAll hls' (hls' · · a ha) hall).symm) hall
      have hml : m.Concordant l := concordant_minAll hls'
        (fun a ha => hls a (List.mem_cons_of_mem l ha) l List.mem_cons_self) hall
      have hll : l.Concordant l := hls l List.mem_cons_self l List.mem_cons_self
      simp only [Option.merge_some_some, Option.map_some, reverse_min hll hmm hml.symm]

end Level

end LinkClosure
