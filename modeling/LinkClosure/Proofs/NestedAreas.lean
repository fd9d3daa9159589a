import LinkClosure.Proofs.Coordinates
import LinkClosure.Proofs.SingleLinks

/-!
# Areas that nest along a chain

In a chain of containers each is held as a whole, at one place of the next one. A
modification of the innermost reaches the outermost in the places of all of them,
the outermost place first. Forwards every step is a restart and puts a new place
in front; backwards every step is a fan-out and puts a new place behind. Nesting is
associative, so both directions come to the same area.
-/

set_option autoImplicit false

namespace LinkClosure

section Ranges

theorem any_range_succ (b : Nat → Bool) (n : Nat) :
    (List.range (n + 1)).any b = ((List.range n).any b || b n) := by
  rw [List.range_succ, List.any_append, List.any_cons, List.any_nil, Bool.or_false]

theorem any_range_back (b : Nat → Bool) (n : Nat) :
    ((List.range n).any fun i => b (n - 1 - i)) = (List.range n).any b := by
  rw [Bool.eq_iff_iff]
  simp only [List.any_eq_true, List.mem_range]
  constructor
  · rintro ⟨i, hi, hb⟩
    exact ⟨n - 1 - i, by omega, hb⟩
  · rintro ⟨i, hi, hb⟩
    refine ⟨n - 1 - i, by omega, ?_⟩
    rwa [show n - 1 - (n - 1 - i) = i by omega]

end Ranges

namespace CoordinateSet

variable {s t : CoordinateSet} {c : Coordinate} {k : Nat → CoordinateSet} {n : Nat}

section Nesting

theorem ext_mem (h : ∀ c, c ∈ s.toList ↔ c ∈ t.toList) : s = t := by
  cases s
  cases t
  exact congrArg mk (SortedSet.ext_mem h)

/-- The path that goes no deeper, on its own. -/
def here : CoordinateSet := ofCoordinate ⟨[]⟩

theorem mem_here : c ∈ here.toList ↔ c = ⟨[]⟩ := List.mem_singleton

theorem under_here (s : CoordinateSet) : s.under here = s := by
  apply ext_mem
  intro c
  simp [mem_under, mem_here, Coordinate.under]

theorem here_under (s : CoordinateSet) : here.under s = s := by
  apply ext_mem
  intro c
  simp [mem_under, mem_here, Coordinate.under]

theorem under_assoc (s t u : CoordinateSet) : (s.under t).under u = s.under (t.under u) := by
  have hpaths : ∀ a b c : Coordinate, (a.under b).under c = a.under (b.under c) := by
    intro a b c
    simp [Coordinate.under]
  apply ext_mem
  intro c
  simp only [mem_under]
  constructor
  · rintro ⟨_, ⟨a, ha, b, hb, rfl⟩, d, hd, rfl⟩
    exact ⟨a, ha, b.under d, ⟨b, hb, d, hd, rfl⟩, (hpaths a b d).symm⟩
  · rintro ⟨a, ha, _, ⟨b, hb, d, hd, rfl⟩, rfl⟩
    exact ⟨a.under b, ⟨a, ha, b, hb, rfl⟩, d, hd, hpaths a b d⟩

theorem eq_single_of_forall {p : Int} (hc : c ∈ s.toList)
    (h : ∀ c ∈ s.toList, c.segments = [p]) : s = single p := by
  have heq : ∀ c ∈ s.toList, c = .single p := by
    rintro ⟨segments⟩ hmem
    exact congrArg Coordinate.mk (h _ hmem)
  apply ext_mem
  intro d
  show d ∈ s.toList ↔ d ∈ [Coordinate.single p]
  rw [List.mem_singleton]
  constructor
  · exact heq d
  · rintro rfl
    rwa [← heq c hc]

theorem eq_single_of_under {p : Int} (h : s.under t = single p) : s = single p ∨ t = single p := by
  have hall : ∀ o ∈ s.toList, ∀ i ∈ t.toList, o.segments ++ i.segments = [p] := by
    intro o ho i hi
    have hmem : o.under i ∈ (s.under t).toList := mem_under.2 ⟨o, ho, i, hi, rfl⟩
    rw [h] at hmem
    exact congrArg Coordinate.segments (List.mem_singleton.1 hmem)
  have hsingle : Coordinate.single p ∈ (s.under t).toList := by
    rw [h]
    exact List.mem_singleton.2 rfl
  obtain ⟨o, ho, i, hi, _⟩ := mem_under.1 hsingle
  rcases List.append_eq_singleton_iff.1 (hall o ho i hi) with ⟨hnil, _⟩ | ⟨_, hnil⟩
  · right
    apply eq_single_of_forall hi
    intro j hj
    simpa [hnil] using hall o ho j hj
  · left
    apply eq_single_of_forall ho
    intro j hj
    simpa [hnil] using hall j hj i hi

theorem isConcrete_iff : s.isConcrete = true ↔ s ≠ wildcard ∧ s ≠ unmodified ∧ s ≠ unspecified := by
  have hunspecified : s.isUnspecified = true ↔ s = unspecified := isSingle_iff
  simp only [isConcrete, Bool.and_eq_true, Bool.not_eq_true', ← Bool.not_eq_true, isWildcard_iff,
    isUnmodified_iff, hunspecified, and_assoc, ne_eq]

theorem isConcrete_here : here.isConcrete = true := rfl

theorem isConcrete_under (hs : s.isConcrete = true) (ht : t.isConcrete = true) :
    (s.under t).isConcrete = true := by
  rw [isConcrete_iff] at hs ht ⊢
  refine ⟨?_, ?_, ?_⟩
  · intro h
    exact (eq_single_of_under h).elim hs.1 ht.1
  · intro h
    exact (eq_single_of_under h).elim hs.2.1 ht.2.1
  · intro h
    exact (eq_single_of_under h).elim hs.2.2 ht.2.2

end Nesting

section Stacking

/-- The areas below `n`, each inside the next one. -/
def stacked (k : Nat → CoordinateSet) : Nat → CoordinateSet
  | 0 => here
  | n + 1 => (k n).under (stacked k n)

/-- The areas below `n`, each outside of the next one. -/
def piled (k : Nat → CoordinateSet) : Nat → CoordinateSet
  | 0 => here
  | n + 1 => (piled k n).under (k n)

theorem mem_stacked :
    c ∈ (stacked k n).toList ↔ ∃ p : Nat → Coordinate, (∀ i < n, p i ∈ (k i).toList) ∧
      c.segments = (List.range n).reverse.flatMap fun i => (p i).segments := by
  induction n generalizing c with
  | zero =>
    rw [stacked, mem_here]
    constructor
    · rintro rfl
      exact ⟨fun _ => ⟨[]⟩, by simp, rfl⟩
    · rintro ⟨p, _, hc⟩
      exact congrArg Coordinate.mk hc
  | succ n ih =>
    rw [stacked, mem_under]
    simp only [List.range_succ, List.reverse_append, List.reverse_singleton, List.singleton_append,
      List.flatMap_cons]
    constructor
    · rintro ⟨o, ho, i, hi, rfl⟩
      obtain ⟨p, hp, hsegments⟩ := ih.1 hi
      refine ⟨Function.update p n o, ?_, ?_⟩
      · intro j hj
        rcases Nat.lt_succ_iff_lt_or_eq.1 hj with hj | rfl
        · rw [Function.update_of_ne (Nat.ne_of_lt hj)]
          exact hp j hj
        · rw [Function.update_self]
          exact ho
      · have hbelow : ((List.range n).reverse.flatMap fun i => (Function.update p n o i).segments) =
            (List.range n).reverse.flatMap fun i => (p i).segments := by
          apply List.flatMap_congr
          intro j hj
          rw [Function.update_of_ne (Nat.ne_of_lt (by simpa using hj))]
        rw [Function.update_self, hbelow, ← hsegments]
        rfl
    · rintro ⟨p, hp, hsegments⟩
      refine ⟨p n, hp n (Nat.lt_succ_self n),
        ⟨(List.range n).reverse.flatMap fun i => (p i).segments⟩, ih.2 ⟨p, ?_, rfl⟩, ?_⟩
      · intro i hi
        exact hp i (Nat.lt_succ_of_lt hi)
      · exact congrArg Coordinate.mk hsegments.symm

theorem isConcrete_stacked (h : ∀ i < n, (k i).isConcrete = true) :
    (stacked k n).isConcrete = true := by
  induction n with
  | zero => exact isConcrete_here
  | succ n ih =>
    exact isConcrete_under (h n (Nat.lt_succ_self n)) (ih fun i hi => h i (Nat.lt_succ_of_lt hi))

theorem isConcrete_piled (h : ∀ i < n, (k i).isConcrete = true) :
    (piled k n).isConcrete = true := by
  induction n with
  | zero => exact isConcrete_here
  | succ n ih =>
    exact isConcrete_under (ih fun i hi => h i (Nat.lt_succ_of_lt hi)) (h n (Nat.lt_succ_self n))

/-- Piling up from the last area down to the first is stacking from the first one up. -/
theorem piled_under_stacked {j : Nat} (hj : j ≤ n) :
    (piled (fun i => k (n - 1 - i)) j).under (stacked k (n - j)) = stacked k n := by
  induction j with
  | zero => exact here_under _
  | succ j ih =>
    have hnext : n - j = n - 1 - j + 1 := by omega
    have hrest : n - (j + 1) = n - 1 - j := by omega
    rw [piled, under_assoc, hrest, ← ih (by omega), hnext, stacked]

theorem piled_eq_stacked (k : Nat → CoordinateSet) (n : Nat) :
    piled (fun i => k (n - 1 - i)) n = stacked k n := by
  have h := piled_under_stacked (k := k) (Nat.le_refl n)
  rwa [Nat.sub_self, stacked, under_here] at h

end Stacking

end CoordinateSet

open CoordinateSet

namespace Level

def held (c k : CoordinateSet) (b : Bool) : Level := .dependent (.ofLink .wildcard c b .wildcard k)

def holding (c k : CoordinateSet) (b : Bool) : Level :=
  .dependent (.ofLink c .wildcard b k .wildcard)

theorem reverse_held (c k : CoordinateSet) (b : Bool) : (held c k b).reverse = holding c k b := rfl

section Steps

variable {c c' k k' : CoordinateSet} {b b' : Bool}

theorem extend_held (hc : c ≠ .wildcard) (hc' : c' ≠ .wildcard) (hk : k.isConcrete = true)
    (hk' : k'.isConcrete = true) :
    (held c k b).extend (held c' k' b') = some (held c' (k'.under k) (b || b')) := by
  have hcompose : (Linkage.ofLink .wildcard c b .wildcard k).compose
      (.ofLink .wildcard c' b' .wildcard k') =
        .composed (.ofLink .wildcard c' (b || b') .wildcard (k'.under k)) := by
    rw [Linkage.compose_restart hc, Linkage.between_of_target _ _ hc',
      nestedArea_wildcard hk hk']
  rw [held, held, extend, hcompose]
  rfl

theorem extend_holding (hc : c ≠ .wildcard) (hc' : c' ≠ .wildcard) (hk : k.isConcrete = true)
    (hk' : k'.isConcrete = true) :
    (holding c k b).extend (holding c' k' b') = some (holding c (k.under k') (b || b')) := by
  have hcompose : (Linkage.ofLink c .wildcard b k .wildcard).compose
      (.ofLink c' .wildcard b' k' .wildcard) =
        .composed (.ofLink c .wildcard (b || b') (k.under k') .wildcard) := by
    rw [Linkage.compose_fanOut hc', Linkage.between_of_source _ _ hc, nestedArea_wildcard hk' hk]
  rw [holding, holding, extend, hcompose]
  rfl

end Steps

variable {c k : Nat → CoordinateSet} {b : Nat → Bool} {n : Nat}

theorem alongLine?_held (hpos : 0 < n) (hc : ∀ i < n, c i ≠ .wildcard)
    (hk : ∀ i < n, (k i).isConcrete = true) :
    alongLine? (fun i => held (c i) (k i) (b i)) n =
      some (held (c (n - 1)) (stacked k n) ((List.range n).any b)) := by
  induction n, hpos using Nat.le_induction with
  | base =>
    rw [alongLine?_one Level.noConfusion, stacked, stacked, under_here, any_range_succ]
    rfl
  | succ n hpos ih =>
    have hc' : ∀ i < n, c i ≠ .wildcard := fun i hi => hc i (Nat.lt_succ_of_lt hi)
    have hk' : ∀ i < n, (k i).isConcrete = true := fun i hi => hk i (Nat.lt_succ_of_lt hi)
    rw [alongLine?, ih hc' hk', Option.bind_some,
      extend_held (hc' (n - 1) (Nat.sub_lt hpos Nat.one_pos)) (hc n (Nat.lt_succ_self n))
        (isConcrete_stacked hk') (hk n (Nat.lt_succ_self n)), any_range_succ b n]
    rfl

theorem alongLine?_holding (hpos : 0 < n) (hc : ∀ i < n, c i ≠ .wildcard)
    (hk : ∀ i < n, (k i).isConcrete = true) :
    alongLine? (fun i => holding (c i) (k i) (b i)) n =
      some (holding (c 0) (piled k n) ((List.range n).any b)) := by
  induction n, hpos using Nat.le_induction with
  | base =>
    rw [alongLine?_one Level.noConfusion, piled, piled, here_under, any_range_succ]
    rfl
  | succ n hpos ih =>
    have hc' : ∀ i < n, c i ≠ .wildcard := fun i hi => hc i (Nat.lt_succ_of_lt hi)
    have hk' : ∀ i < n, (k i).isConcrete = true := fun i hi => hk i (Nat.lt_succ_of_lt hi)
    rw [alongLine?, ih hc' hk', Option.bind_some,
      extend_holding (hc' 0 hpos) (hc n (Nat.lt_succ_self n)) (isConcrete_piled hk')
        (hk n (Nat.lt_succ_self n)), any_range_succ b n]
    rfl

end Level

namespace Frame

variable {g : Graph} {n : Nat} {v : Nat → Variable} {s : Nat → Level} {c k : Nat → CoordinateSet}
  {b : Nat → Bool}

theorem straightLength_dependent (hs : ∀ i, Weight.high (s i) = Weight.highDependent) (n : Nat) :
    straightLength s n = n * Weight.highDependent := by
  induction n with
  | zero => rw [straightLength, Nat.zero_mul]
  | succ n ih => rw [straightLength, ih, hs, Nat.succ_mul]

theorem straightLength_lt_top (hs : ∀ i, Weight.high (s i) = Weight.highDependent)
    (hn : n < 2 ^ 14) : straightLength s n < Distance.top := by
  rw [straightLength_dependent hs, Weight.highDependent, Distance.top]
  omega

theorem exists_row_of_line (hg : g.WellFormed) (h : g.Line n v s) (hpos : 0 < n)
    (hn : n < 2 ^ 14) (hs : ∀ i, Weight.high (s i) = Weight.highDependent) :
    ∃ row, (ofGraph g).links (v 0) none = .ok row ∧ row.get? (v n) = Level.alongLine? s n := by
  have hstored : g.level? (v 0) (v 1) = some (s 0) :=
    (h.stored _ _ _).2 ⟨0, hpos, .inl ⟨rfl, rfl, rfl⟩⟩
  obtain ⟨row, hrow, hlevels⟩ := links_line hg h (straightLength_lt_top hs hn)
    (hg.contains_source _ _ _ hstored)
  exact ⟨row, hrow, hlevels n (Nat.le_refl n)⟩

end Frame

/-- A chain of containers, built in whatever order: the innermost content and the outermost
container are linked in both directions, with an area that has, for each choice of a place
in every container, these places from the outermost to the innermost. -/
theorem areas_nest_along_chain {n : Nat} {v : Nat → Variable} {c k : Nat → CoordinateSet}
    {b : Nat → Bool} {as : List (Variable × List (Variable × Level))} (hpos : 0 < n)
    (hn : n < 2 ^ 14) (hdistinct : ∀ i ≤ n, ∀ j ≤ n, v i = v j → i = j)
    (hreturn : ∀ i ≤ n, (v i).isReturnValue = false) (hc : ∀ i < n, c i ≠ .wildcard)
    (hk : ∀ i < n, (k i).isConcrete = true)
    (has : Graph.GivesLine as n v fun i =>
      .dependent (.ofLink .wildcard (c i) (b i) .wildcard (k i))) :
    ∃ g rowA rowN, Graph.ofAdditions as = .ok g ∧
      (Frame.ofGraph g).links (v 0) none = .ok rowA ∧
      (Frame.ofGraph g).links (v n) none = .ok rowN ∧
      rowA.get? (v n) = some (.dependent
        (.ofLink .wildcard (c (n - 1)) ((List.range n).any b) .wildcard (stacked k n))) ∧
      rowN.get? (v 0) = some (.dependent
        (.ofLink (c (n - 1)) .wildcard ((List.range n).any b) (stacked k n) .wildcard)) ∧
      ∀ p, p ∈ (stacked k n).toList ↔ ∃ q : Nat → Coordinate, (∀ i < n, q i ∈ (k i).toList) ∧
        p.segments = (List.range n).reverse.flatMap fun i => (q i).segments := by
  have hlinked : ∀ i < n, ∃ m, (Level.held (c i) (k i) (b i)).linkage? = some m :=
    fun i _ => ⟨_, rfl⟩
  have hself : ∀ i < n, (Level.held (c i) (k i) (b i)).Concordant (Level.held (c i) (k i) (b i)) :=
    fun i _ => Linkage.concordant_ofLink
  obtain ⟨g, hg⟩ := has.succeeds (fun i hi => hreturn (i + 1) hi) hlinked
  have hwell : g.WellFormed := (Graph.Built.of_additions hg).wellFormed
  have hline : g.Line n v fun i => Level.held (c i) (k i) (b i) :=
    has.line hdistinct (fun i hi => hreturn (i + 1) hi) hlinked hself hg
  have hback : g.Line n (fun i => v (n - i)) fun i =>
      Level.holding (c (n - 1 - i)) (k (n - 1 - i)) (b (n - 1 - i)) := by
    simpa only [Level.reverse_held] using hline.turned (hreturn 0 (Nat.zero_le n)) hself
  obtain ⟨rowA, hrowA, hout⟩ := Frame.exists_row_of_line hwell hline hpos hn fun _ => rfl
  obtain ⟨rowN, hrowN, hin⟩ := Frame.exists_row_of_line hwell hback hpos hn fun _ => rfl
  refine ⟨g, rowA, rowN, hg, hrowA, hrowN, ?_, ?_, fun p => mem_stacked⟩
  · rw [hout, Level.alongLine?_held hpos hc hk, Level.held]
  · have hc' : ∀ i < n, c (n - 1 - i) ≠ .wildcard := fun i hi => hc _ (by omega)
    have hk' : ∀ i < n, (k (n - 1 - i)).isConcrete = true := fun i hi => hk _ (by omega)
    rw [Nat.sub_self, Level.alongLine?_holding hpos hc' hk', piled_eq_stacked,
      any_range_back, Level.holding, Nat.sub_zero] at hin
    exact hin

namespace Parcel

def letter : Variable := ⟨"letter", "letter", .local⟩
def parcel : Variable := ⟨"parcel", "parcel", .local⟩
def van : Variable := ⟨"van", "van", .field⟩

def place : Nat → Variable
  | 0 => letter
  | 1 => parcel
  | _ => van

def area : Nat → CoordinateSet
  | 0 => .single 1
  | _ => .ofStored [.single 3, .single 5]

def isMutable : Nat → Bool
  | 0 => false
  | _ => true

def level (i : Nat) : Level :=
  .dependent (.ofLink .wildcard (.single 0) (isMutable i) .wildcard (area i))

def additions : List (Variable × List (Variable × Level)) :=
  [(parcel, [(van, level 1)]), (letter, [(parcel, level 0)])]

theorem distinct : ∀ i ≤ 2, ∀ j ≤ 2, place i = place j → i = j := by decide

theorem givesLine : Graph.GivesLine additions 2 place level := by
  intro i
  have hinsertions : Insertion.ofAdditions additions =
      [⟨parcel, van, level 1⟩, ⟨letter, parcel, level 0⟩] := rfl
  rw [hinsertions, List.mem_cons, List.mem_singleton]
  constructor
  · rintro (rfl | rfl)
    · exact ⟨1, by decide, rfl⟩
    · exact ⟨0, by decide, rfl⟩
  · rintro ⟨j, hj, rfl⟩
    interval_cases j
    · exact .inr rfl
    · exact .inl rfl

end Parcel

theorem areas_nest_along_chain_parcel :
    (∀ i ≤ 2, ∀ j ≤ 2, Parcel.place i = Parcel.place j → i = j) ∧
      Graph.GivesLine Parcel.additions 2 Parcel.place Parcel.level ∧
      ∃ g rowA rowN, Graph.ofAdditions Parcel.additions = .ok g ∧
        (Frame.ofGraph g).links Parcel.letter none = .ok rowA ∧
        (Frame.ofGraph g).links Parcel.van none = .ok rowN ∧
        rowA.get? Parcel.van = some (.dependent (.ofLink .wildcard (.single 0) true .wildcard
          (.ofStored [.path [3, 1], .path [5, 1]]))) ∧
        rowN.get? Parcel.letter = some (.dependent (.ofLink (.single 0) .wildcard true
          (.ofStored [.path [3, 1], .path [5, 1]]) .wildcard)) := by
  have hstacked : stacked Parcel.area 2 = .ofStored [.path [3, 1], .path [5, 1]] := by decide
  obtain ⟨g, rowA, rowN, hg, hrowA, hrowN, hout, hin, _⟩ :=
    areas_nest_along_chain (c := fun _ => .single 0) (b := Parcel.isMutable) (by decide) (by decide)
      Parcel.distinct (by decide) (by decide) (by decide) Parcel.givesLine
  rw [hstacked] at hout hin
  exact ⟨Parcel.distinct, Parcel.givesLine, g, rowA, rowN, hg, hrowA, hrowN, hout, hin⟩

end LinkClosure
