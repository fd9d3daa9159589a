import LinkClosure.Proofs.Composition

/-!
# Re-indexing and composing

A linkage whose links all end at sources of a following one can be re-indexed: each
source takes over the link that the following linkage has for its target. Then no
link dies, restarts or fans out when the two are composed. So both ways of putting
them together lead from the same coordinates to the same coordinates, with the
same areas. They differ in what a modification reaches. Re-indexing takes over
the second link as it is; composing keeps it mutable only if the first link is
mutable too and does not end at the wildcard.
-/

set_option autoImplicit false

namespace LinkClosure

/-- What comes of a link that is followed by one for exactly its target. -/
def Link.reaching (l k : Link) : Link :=
  ⟨k.target, !l.target.isWildcard && l.isMutable && k.isMutable⟩

theorem Link.isMutable_reaching {l k : Link} :
    (l.reaching k).isMutable = true ↔
      l.target ≠ .wildcard ∧ l.isMutable = true ∧ k.isMutable = true := by
  simp only [reaching, Bool.and_eq_true, Bool.not_eq_true', ← Bool.not_eq_true,
    CoordinateSet.isWildcard_iff, and_assoc, ne_eq]

namespace Linkage

variable {e f m : Linkage} {l k j : Link} {x : CoordinateSet}

/-- Every link ends at a source of the following linkage. -/
def EndsAtSources (e f : Linkage) : Prop :=
  ∀ x l, e.get? x = some l → ∃ k, f.get? l.target = some k

section Reindexed

theorem mapM_throughTargets {es ls : List (CoordinateSet × Link)}
    (h : es.mapM (fun e => (f.get? e.2.target).map (e.1, ·)) = some ls) :
    ls.map Prod.fst = es.map Prod.fst ∧
      (∀ e ∈ es, ∃ k, f.get? e.2.target = some k) ∧
      ∀ x k, (x, k) ∈ ls ↔ ∃ l, (x, l) ∈ es ∧ f.get? l.target = some k := by
  induction es generalizing ls with
  | nil =>
    obtain rfl : [] = ls := Option.some.inj h
    simp
  | cons e es ih =>
    simp only [List.mapM_cons, Option.bind_eq_bind, Option.bind_eq_some_iff,
      Option.map_eq_some_iff] at h
    obtain ⟨_, ⟨k, hk, rfl⟩, rest, hrest, hls⟩ := h
    obtain rfl : (e.1, k) :: rest = ls := Option.some.inj hls
    obtain ⟨hkeys, hends, hmem⟩ := ih hrest
    refine ⟨?_, ?_, ?_⟩
    · rw [List.map_cons, List.map_cons, hkeys]
    · exact List.forall_mem_cons.2 ⟨⟨k, hk⟩, hends⟩
    · intro x j
      rw [List.mem_cons, hmem]
      constructor
      · rintro (heq | ⟨l, hl, hj⟩)
        · obtain ⟨rfl, rfl⟩ := Prod.mk.inj heq
          exact ⟨e.2, List.mem_cons_self, hk⟩
        · exact ⟨l, List.mem_cons_of_mem e hl, hj⟩
      · rintro ⟨l, hl, hj⟩
        rcases List.mem_cons.1 hl with rfl | hl
        · exact .inl (Prod.ext rfl (Option.some.inj (hj.symm.trans hk)))
        · exact .inr ⟨l, hl, hj⟩

theorem throughTargets?_eq_some (h : e.throughTargets? f = some m) :
    e.EndsAtSources f ∧
      (∀ x k, m.get? x = some k ↔ ∃ l, e.get? x = some l ∧ f.get? l.target = some k) ∧
      m.sourceArea = e.sourceArea ∧ m.targetArea = f.targetArea := by
  obtain ⟨ls, hls, hm⟩ := Option.bind_eq_some_iff.1 h
  obtain rfl := Option.some.inj hm
  obtain ⟨hkeys, hends, hmem⟩ := mapM_throughTargets hls
  refine ⟨?_, ?_, rfl, rfl⟩
  · intro x l hl
    exact hends (x, l) (mem_entries.2 hl)
  · intro x k
    have hnodup : (ls.map Prod.fst).Nodup := by
      rw [hkeys]
      exact e.links.nodup_keys
    show (SortedMap.ofList ls).get? x = some k ↔ _
    rw [SortedMap.get?_ofList_iff hnodup, hmem]
    exact exists_congr fun l => and_congr_left' mem_entries

end Reindexed

section Composed

theorem merges_continues (hk : f.get? l.target = some k) :
    Link.Merges (f.Continues l) j ↔ j = l.reaching k := by
  have honly : ∀ i, i ∈ [l.reaching k] ↔ f.Continues l i := by
    intro i
    rw [← mem_arrivals_continuation, continuation, hk]
    rfl
  rw [Link.merges_iff honly, eq_comm]
  exact Option.some_inj

theorem EndsAtSources.not_dies (h : e.EndsAtSources f) (hl : e.get? x = some l) : ¬ f.Dies l := by
  obtain ⟨k, hk⟩ := h x l hl
  intro hdies
  exact hdies _ (.exact hk)

theorem EndsAtSources.isEmpty (h : e.EndsAtSources f) (he : e.isEmpty = false) :
    f.isEmpty = false := by
  obtain ⟨x, l, hl⟩ := exists_get? he
  obtain ⟨k, hk⟩ := h x l hl
  rw [isEmpty_eq_false]
  exact ⟨l.target, SortedMap.mem_keys_iff.2 (Option.isSome_iff_exists.2 ⟨k, hk⟩)⟩

theorem EndsAtSources.any_continuations (h : e.EndsAtSources f) {p : Continuation → Bool}
    (hp : ∀ k, p (.exact k) = false) : (e.continuations f).any p = false := by
  rw [List.any_eq_false]
  intro c hc
  obtain ⟨y, hy, rfl⟩ := List.mem_map.1 hc
  obtain ⟨k, hk⟩ := h y.1 y.2 (mem_entries.1 hy)
  have hexact : f.continuation y.2.target = .exact k := by rw [continuation, hk]
  rw [hexact, hp]
  exact Bool.false_ne_true

theorem EndsAtSources.areas (h : e.EndsAtSources f) :
    e.composedSourceArea f = e.sourceArea ∧ e.composedTargetArea f = f.targetArea := by
  have hfans : (e.continuations f).any Continuation.isFanOut = false :=
    h.any_continuations fun _ => rfl
  have hrestarts : (e.continuations f).any Continuation.isRestart = false :=
    h.any_continuations fun _ => rfl
  simp [composedSourceArea, composedTargetArea, hfans, hrestarts]

theorem EndsAtSources.get?_arrivals (h : e.EndsAtSources f) :
    (SortedMap.ofListWith Link.merge (e.arrivals f)).get? x = some j ↔
      ∃ l k, e.get? x = some l ∧ f.get? l.target = some k ∧ j = l.reaching k := by
  rw [Linkage.get?_arrivals]
  constructor
  · rintro ⟨l, hl, hj⟩
    obtain ⟨k, hk⟩ := h x l hl
    exact ⟨l, k, hl, hk, (merges_continues hk).1 hj⟩
  · rintro ⟨l, k, hl, hk, hj⟩
    exact ⟨l, hl, (merges_continues hk).2 hj⟩

theorem EndsAtSources.targets (h : e.EndsAtSources f)
    (hm : ∀ x k, m.get? x = some k ↔ ∃ l, e.get? x = some l ∧ f.get? l.target = some k)
    (x : CoordinateSet) :
    ((SortedMap.ofListWith Link.merge (e.arrivals f)).get? x).map Link.target =
      (m.get? x).map Link.target := by
  apply Option.ext
  intro t
  simp only [Option.map_eq_some_iff, h.get?_arrivals, hm]
  constructor
  · rintro ⟨_, ⟨l, k, hl, hk, rfl⟩, rfl⟩
    exact ⟨k, ⟨l, hl, hk⟩, rfl⟩
  · rintro ⟨k, ⟨l, hl, hk⟩, rfl⟩
    exact ⟨l.reaching k, ⟨l, k, hl, hk, rfl⟩, rfl⟩

/-- Where no link dies, only a way from the wildcard to the wildcard can clash. -/
theorem EndsAtSources.not_clashes (h : e.EndsAtSources f)
    (hloop : ∀ l k, e.get? .wildcard = some l → f.get? l.target = some k → k.target ≠ .wildcard) :
    ¬ e.Clashes f := by
  rintro (⟨⟨x, l, hl, hdies⟩, _⟩ | ⟨⟨l, j, hl, hj, hwildcard⟩, _⟩)
  · exact h.not_dies hl hdies
  · obtain ⟨k, hk⟩ := h _ l hl
    cases hj with
    | exact hk' => exact hloop l _ hl hk' hwildcard
    | restart hnone _ => simp [hk] at hnone
    | fanOut htarget hnone _ => simp [← htarget, hk] at hnone

end Composed

end Linkage

/-- Where a linkage can be re-indexed and no link leads from the wildcard to the wildcard then,
composing gives the same correspondence with the same areas. -/
theorem reindexing_agrees_with_composing {e f m : Linkage} (he : e.isEmpty = false)
    (hm : e.throughTargets? f = some m)
    (hloop : ∀ x ∈ m.entries, x.1 = .wildcard → x.2.target ≠ .wildcard) :
    ∃ n, e.compose f = .composed n ∧ n.links.keys = m.links.keys ∧
      (∀ x, (n.get? x).map Link.target = (m.get? x).map Link.target) ∧
      n.sourceArea = m.sourceArea ∧ n.targetArea = m.targetArea ∧
      ∀ x l k j, e.get? x = some l → m.get? x = some k → n.get? x = some j →
        (j.isMutable = true ↔
          l.target ≠ .wildcard ∧ l.isMutable = true ∧ k.isMutable = true) := by
  obtain ⟨hends, hlinks, hsource, htarget⟩ := Linkage.throughTargets?_eq_some hm
  have hclash : ¬ e.Clashes f := by
    apply hends.not_clashes
    intro l k hl hk
    exact hloop (.wildcard, k) (Linkage.mem_entries.2 ((hlinks _ _).2 ⟨l, hl, hk⟩)) rfl
  obtain ⟨x, l, hl⟩ := Linkage.exists_get? he
  have hcomposed := (Linkage.compose_eq_composed_iff he (hends.isEmpty he)).2
    ⟨hclash, ⟨x, l, hl, hends.not_dies hl⟩, rfl⟩
  obtain ⟨hnear, hfar⟩ := hends.areas
  refine ⟨_, hcomposed, ?_, hends.targets hlinks, hnear.trans hsource.symm, hfar.trans htarget.symm,
    ?_⟩
  · exact SortedMap.keys_eq_of_map (hends.targets hlinks)
  · intro x l k j hl hk hj
    obtain ⟨l', hl', hk⟩ := (hlinks x k).1 hk
    obtain ⟨l'', k', hl'', hk', rfl⟩ := hends.get?_arrivals.1 hj
    obtain rfl := Option.some.inj (hl.symm.trans hl')
    obtain rfl := Option.some.inj (hl.symm.trans hl'')
    obtain rfl := Option.some.inj (hk.symm.trans hk')
    exact Link.isMutable_reaching

namespace Switchboard

def entering : Linkage :=
  ⟨.ofList [(.single 0, ⟨.single 1, true⟩), (.single 2, ⟨.wildcard, true⟩)],
    .single 4, .wildcard⟩

def leaving : Linkage :=
  ⟨.ofList [(.single 1, ⟨.single 5, true⟩), (.wildcard, ⟨.single 6, true⟩)],
    .wildcard, .single 7⟩

def through : Linkage :=
  ⟨.ofList [(.single 0, ⟨.single 5, true⟩), (.single 2, ⟨.single 6, true⟩)],
    .single 4, .single 7⟩

end Switchboard

theorem reindexing_agrees_with_composing_switchboard :
    Switchboard.entering.isEmpty = false ∧
      Switchboard.entering.throughTargets? Switchboard.leaving = some Switchboard.through ∧
      (∀ x ∈ Switchboard.through.entries, x.1 = .wildcard → x.2.target ≠ .wildcard) ∧
      ∃ n, Switchboard.entering.compose Switchboard.leaving = .composed n ∧
        n.links.keys = Switchboard.through.links.keys ∧
        (∀ x, (n.get? x).map Link.target = (Switchboard.through.get? x).map Link.target) ∧
        n.sourceArea = .single 4 ∧ n.targetArea = .single 7 := by
  have he : Switchboard.entering.isEmpty = false := rfl
  have hm : Switchboard.entering.throughTargets? Switchboard.leaving = some Switchboard.through := by decide
  have hloop : ∀ x ∈ Switchboard.through.entries, x.1 = .wildcard → x.2.target ≠ .wildcard := by decide
  obtain ⟨n, hn, hkeys, htargets, hsource, htarget, _⟩ :=
    reindexing_agrees_with_composing he hm hloop
  exact ⟨he, hm, hloop, n, hn, hkeys, htargets, hsource, htarget⟩

end LinkClosure
