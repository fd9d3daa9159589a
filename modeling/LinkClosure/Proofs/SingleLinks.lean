import LinkClosure.Proofs.BothEnds

/-!
# Single links in a row

A link and the one that follows it meet in one of four ways. The second starts
where the first ends, or it starts at the wildcard, or the first ends at the
wildcard, or they miss each other. Gone from the other end, the first way and the
last stay what they are and the other two change places: what was a restart is a
fan-out on the way back. They bring the areas together by the same rule, so for
single links the way back has the outcome of the way there, turned round.
-/

set_option autoImplicit false

namespace LinkClosure

def Composition.reverse : Composition → Composition
  | composed m => composed m.reverse
  | edgeless => edgeless
  | rejected => rejected

/-- A way from `near` by `inner` and `middle` to `outer`: if it is open everywhere but for the
two concrete areas, the inner one nests inside the outer one. -/
def CoordinateSet.nestedArea (near inner middle outer : CoordinateSet) : CoordinateSet :=
  if near.isWildcard && middle.isWildcard && inner.isConcrete && outer.isConcrete then
    outer.under inner
  else outer

theorem CoordinateSet.nestedArea_wildcard {s t : CoordinateSet} (hs : s.isConcrete = true)
    (ht : t.isConcrete = true) : nestedArea .wildcard s .wildcard t = t.under s := by
  rw [nestedArea, hs, ht]
  rfl

namespace Linkage

variable {m : Linkage} {x y z w s t s' t' : CoordinateSet} {b c : Bool}

def ofLink (x y : CoordinateSet) (b : Bool) (s t : CoordinateSet) : Linkage :=
  ⟨.singleton x ⟨y, b⟩, s, t⟩

theorem exists_eq_ofLink (h : m.size = 1) : ∃ x y b s t, m = ofLink x y b s t := by
  obtain ⟨⟨entries, increasing⟩, s, t⟩ := m
  obtain ⟨⟨x, y, b⟩, rfl⟩ := List.length_eq_one_iff.1 h
  exact ⟨x, y, b, s, t, rfl⟩

theorem reverse_ofLink (x y : CoordinateSet) (b : Bool) (s t : CoordinateSet) :
    (ofLink x y b s t).reverse = ofLink y x b t s := rfl

theorem concordant_ofLink : (ofLink x y b s t).Concordant (ofLink x y b s t) := by
  intro e he e' he'
  obtain rfl := List.mem_singleton.1 he
  obtain rfl := List.mem_singleton.1 he'
  exact iff_of_true rfl rfl

theorem get?_ofLink : (ofLink x y b s t).get? z = if z = x then some ⟨y, b⟩ else none := rfl

/-- What comes of a link between the ends of a way with the areas `near` and `far`: from the
wildcard to the wildcard it needs a concrete place that the ends share. -/
def between (near far : CoordinateSet) (x y : CoordinateSet) (b : Bool) (s t : CoordinateSet) :
    Composition :=
  if x.isWildcard && y.isWildcard && !near.intersectsConcretely far then .rejected
  else .composed (ofLink x y b s t)

theorem between_of_source (near far : CoordinateSet) (hx : x ≠ .wildcard) :
    between near far x y b s t = .composed (ofLink x y b s t) := by
  have hx : x.isWildcard = false := Bool.eq_false_iff.2 (mt CoordinateSet.isWildcard_iff.1 hx)
  rw [between, hx]
  rfl

theorem between_of_target (near far : CoordinateSet) (hy : y ≠ .wildcard) :
    between near far x y b s t = .composed (ofLink x y b s t) := by
  have hy : y.isWildcard = false := Bool.eq_false_iff.2 (mt CoordinateSet.isWildcard_iff.1 hy)
  rw [between, hy, Bool.and_false]
  rfl

theorem reverse_between (near far : CoordinateSet) :
    (between near far x y b s t).reverse = between far near y x b t s := by
  rw [between, between, CoordinateSet.intersectsConcretely_comm far, Bool.and_comm y.isWildcard]
  cases x.isWildcard && y.isWildcard && !near.intersectsConcretely far with
  | false => rfl
  | true => rfl

section Meeting

variable {f : Linkage} {l : Link}

theorem continuations_ofLink (f : Linkage) :
    (ofLink x y b s t).continuations f = [f.continuation y] := rfl

theorem arrivals_ofLink (f : Linkage) :
    (ofLink x y b s t).arrivals f =
      ((f.continuation y).arrivals ⟨y, b⟩).map fun l => (x, l) := List.append_nil _

theorem compose_ofLink (hf : f.isEmpty = false)
    (hl : (f.continuation y).arrivals ⟨y, b⟩ = [l]) :
    (ofLink x y b s t).compose f =
      between s f.targetArea x l.target l.isMutable
        ((ofLink x y b s t).composedSourceArea f) ((ofLink x y b s t).composedTargetArea f) := by
  have hlive : f.continuation y ≠ .dead := by
    intro hdead
    simp [hdead, Continuation.arrivals] at hl
  have hconflicts : (ofLink x y b s t).conflicts f =
      (x.isWildcard && l.target.isWildcard && !s.intersectsConcretely f.targetArea) := by
    rw [conflicts, continuations_ofLink, arrivals_ofLink, hl]
    simp [ofLink, hlive]
  have he : (ofLink x y b s t).isEmpty = false := rfl
  rw [compose_eq_composeUntested, composeUntested, he, hf, hconflicts, arrivals_ofLink, hl, between]
  rfl

theorem continuation_ofLink :
    (ofLink z w c s' t').continuation y =
      if y = z then .exact ⟨w, c⟩
      else if z = .wildcard then .restart ⟨w, c⟩
      else if y = .wildcard then .fanOut [⟨w, c⟩]
      else .dead := by
  by_cases hyz : y = z
  · simp [continuation, get?_ofLink, hyz]
  · by_cases hz : z = .wildcard
    · subst hz
      simp [continuation, get?_ofLink, hyz]
    · have hnone : (ofLink z w c s' t').get? .wildcard = none := if_neg (Ne.symm hz)
      simp only [continuation, get?_ofLink, if_neg hyz, hnone, if_neg hz,
        CoordinateSet.isWildcard_iff]
      rfl

theorem compose_exact :
    (ofLink x y b s t).compose (ofLink y w c s' t') =
      between s t' x w (!y.isWildcard && b && c) s t' := by
  have hmeet : (ofLink y w c s' t').continuation y = .exact ⟨w, c⟩ := by
    rw [continuation_ofLink, if_pos rfl]
  rw [compose_ofLink rfl (by rw [hmeet]; rfl), composedSourceArea, composedTargetArea,
    continuations_ofLink, hmeet]
  rfl

theorem compose_restart (hy : y ≠ .wildcard) :
    (ofLink x y b s t).compose (ofLink .wildcard w c s' t') =
      between s t' x w (b || c) s (CoordinateSet.nestedArea s t s' t') := by
  have hmeet : (ofLink .wildcard w c s' t').continuation y = .restart ⟨w, c⟩ := by
    rw [continuation_ofLink, if_neg hy, if_pos rfl]
  rw [compose_ofLink rfl (by rw [hmeet]; rfl), composedSourceArea, composedTargetArea,
    continuations_ofLink, hmeet]
  rfl

theorem compose_fanOut (hz : z ≠ .wildcard) :
    (ofLink x .wildcard b s t).compose (ofLink z w c s' t') =
      between s t' x w (b || c) (CoordinateSet.nestedArea t' s' t s) t' := by
  have hmeet : (ofLink z w c s' t').continuation .wildcard = .fanOut [⟨w, c⟩] := by
    rw [continuation_ofLink, if_neg hz.symm, if_neg hz, if_pos rfl]
  have hareas : (t.isWildcard && t'.isWildcard && s.isConcrete && s'.isConcrete) =
      (t'.isWildcard && t.isWildcard && s'.isConcrete && s.isConcrete) := by
    rw [Bool.and_comm t.isWildcard, Bool.and_right_comm]
  rw [compose_ofLink rfl (by rw [hmeet]; rfl), composedSourceArea, composedTargetArea,
    continuations_ofLink, hmeet, CoordinateSet.nestedArea, ← hareas]
  rfl

theorem compose_apart (hyz : y ≠ z) (hy : y ≠ .wildcard) (hz : z ≠ .wildcard) :
    (ofLink x y b s t).compose (ofLink z w c s' t') =
      if t.intersects s' then .edgeless else .rejected := by
  have hdead : (ofLink z w c s' t').continuation y = .dead := by
    rw [continuation_ofLink, if_neg hyz, if_neg hz, if_neg hy]
  have hconflicts : (ofLink x y b s t).conflicts (ofLink z w c s' t') = !t.intersects s' := by
    rw [conflicts, continuations_ofLink, arrivals_ofLink, hdead]
    simp [Continuation.arrivals, ofLink]
  rw [compose_eq_composeUntested, composeUntested, hconflicts, arrivals_ofLink, hdead]
  cases t.intersects s' with
  | false => rfl
  | true => rfl

end Meeting

/-- For single links the way back has the outcome of the way there, turned round. -/
theorem compose_reverse_ofLink :
    (ofLink z w c s' t').reverse.compose (ofLink x y b s t).reverse =
      ((ofLink x y b s t).compose (ofLink z w c s' t')).reverse := by
  rw [reverse_ofLink, reverse_ofLink]
  by_cases hyz : y = z
  · subst hyz
    rw [compose_exact, compose_exact, reverse_between, Bool.and_right_comm]
  by_cases hz : z = .wildcard
  · subst hz
    rw [compose_restart hyz, compose_fanOut hyz, reverse_between, Bool.or_comm]
  by_cases hy : y = .wildcard
  · subst hy
    rw [compose_fanOut hz, compose_restart hz, reverse_between, Bool.or_comm]
  · rw [compose_apart hyz hy hz, compose_apart (Ne.symm hyz) hz hy,
      CoordinateSet.intersects_comm s' t]
    cases t.intersects s' with
    | false => rfl
    | true => rfl

end Linkage

/-- Of two linkages with one link each, the reversed ones in the other order are rejected, come
to nothing or are composed as the two are, and then to the reverse. -/
theorem single_links_turn_round {e f : Linkage} (he : e.size = 1) (hf : f.size = 1) :
    (f.reverse.compose e.reverse = .rejected ↔ e.compose f = .rejected) ∧
      (f.reverse.compose e.reverse = .edgeless ↔ e.compose f = .edgeless) ∧
      ∀ n, f.reverse.compose e.reverse = .composed n ↔
        ∃ m, e.compose f = .composed m ∧ n = m.reverse := by
  obtain ⟨x, y, b, s, t, rfl⟩ := Linkage.exists_eq_ofLink he
  obtain ⟨z, w, c, s', t', rfl⟩ := Linkage.exists_eq_ofLink hf
  rw [Linkage.compose_reverse_ofLink]
  cases (Linkage.ofLink x y b s t).compose (Linkage.ofLink z w c s' t') with
  | composed m => simp [Composition.reverse, eq_comm]
  | edgeless => simp [Composition.reverse]
  | rejected => simp [Composition.reverse]

namespace Drawer

def inside : Linkage := .ofLink .wildcard (.single 0) true .wildcard (.single 1)

def outside : Linkage := .ofLink .wildcard (.single 0) false .wildcard (.single 3)

def through : Linkage :=
  .ofLink .wildcard (.single 0) true .wildcard (.ofCoordinate (.path [3, 1]))

end Drawer

theorem single_links_turn_round_drawer :
    Drawer.inside.size = 1 ∧ Drawer.outside.size = 1 ∧
      Drawer.inside.compose Drawer.outside = .composed Drawer.through ∧
      Drawer.outside.reverse.compose Drawer.inside.reverse = .composed Drawer.through.reverse := by
  have hthere : Drawer.inside.compose Drawer.outside = .composed Drawer.through := by decide
  refine ⟨rfl, rfl, hthere, ?_⟩
  exact ((single_links_turn_round rfl rfl).2.2 _).2 ⟨_, hthere, rfl⟩

end LinkClosure
