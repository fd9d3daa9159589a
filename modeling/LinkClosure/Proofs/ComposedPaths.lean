import LinkClosure.Proofs.Graph.Rows
import LinkClosure.Proofs.Search.Kinds

/-!
# Paths that compose

The high pass keeps one level for each variable, merged over its shortest ways
only, and goes on from that level. A path that composes edge by edge can get
lost for this reason: a shorter way reaches one of its variables with a level
that refuses the next edge. Nothing else loses it.
-/

set_option autoImplicit false

namespace LinkClosure

namespace Graph

/-- The level of a path over stored edges that starts at `u` with the level `l`. -/
def composeAlong (g : Graph) : Level → Variable → List Variable → Option Level
  | l, _, [] => some l
  | l, u, v :: vs => (g.level? u v).bind fun e => (l.extend e).bind fun m => g.composeAlong m v vs

def lengthAlong (g : Graph) : Variable → List Variable → Nat
  | _, [] => 0
  | u, v :: vs => (g.level? u v).elim 0 Weight.high + g.lengthAlong v vs

theorem composeAlong_concat (g : Graph) (l : Level) (u w : Variable) (vs : List Variable) :
    g.composeAlong l u (vs ++ [w]) =
      (g.composeAlong l u vs).bind fun m => (g.level? (vs.getLastD u) w).bind m.extend := by
  induction vs generalizing l u with
  | nil => simp [composeAlong]
  | cons v vs ih =>
    simp only [List.cons_append, composeAlong, List.getLastD_cons, ih, Option.bind_assoc]

theorem exists_of_composeAlong_concat {g : Graph} {l : Level} {u w : Variable}
    {vs : List Variable} (h : (g.composeAlong l u (vs ++ [w])).isSome) :
    ∃ own e, g.composeAlong l u vs = some own ∧ g.level? (vs.getLastD u) w = some e ∧
      (own.extend e).isSome := by
  obtain ⟨m, hm⟩ := Option.isSome_iff_exists.1 h
  rw [composeAlong_concat] at hm
  obtain ⟨own, hown, hm⟩ := Option.bind_eq_some_iff.1 hm
  obtain ⟨e, he, hm⟩ := Option.bind_eq_some_iff.1 hm
  exact ⟨own, e, hown, he, Option.isSome_iff_exists.2 ⟨m, hm⟩⟩

theorem lengthAlong_concat (g : Graph) (u w : Variable) (vs : List Variable) :
    g.lengthAlong u (vs ++ [w]) =
      g.lengthAlong u vs + (g.level? (vs.getLastD u) w).elim 0 Weight.high := by
  induction vs generalizing u with
  | nil => simp [lengthAlong]
  | cons v vs ih =>
    simp only [List.cons_append, lengthAlong, List.getLastD_cons, ih, Nat.add_assoc]

end Graph

namespace Frame

variable {σ : Type} {p : Pass σ} {g : Graph} {s u v : Variable}

/-- What a pass over all edges keeps for the variable `v`, from `s`. -/
def label? (f : Frame) (p : Pass σ) (s v : Variable) : Option (Nat × σ) :=
  (f.position? s).bind fun i => (f.position? v).bind (Search.run p Distance.top f.edges i).best?

theorem label?_eq_some {f : Frame} {a : Nat × σ} :
    f.label? p s v = some a ↔
      ∃ i j, f.position? s = some i ∧ f.position? v = some j ∧
        (Search.run p Distance.top f.edges i).best? j = some a := by
  simp [label?, Option.bind_eq_some_iff]

theorem label?_self (hp : p.Lawful) (hs : g.contains s = true) :
    (ofGraph g).label? p s s = some (0, p.initial) := by
  obtain ⟨i, hi⟩ := exists_position? hs
  exact label?_eq_some.2 ⟨i, i, hi, hi, Search.run_start hp⟩

theorem label?_step (hg : g.WellFormed) (hp : p.Lawful) {a : Nat × σ} {e : Level} {x : σ}
    (ha : (ofGraph g).label? p s u = some a) (he : g.level? u v = some e)
    (hweight : p.weight e ≤ Distance.top) (hext : p.extend a.2 e = some x) :
    ∃ b, (ofGraph g).label? p s v = some b ∧ b.1 ≤ a.1 + p.weight e := by
  obtain ⟨i, j, hi, hj, hbest⟩ := label?_eq_some.1 ha
  obtain ⟨k, hk⟩ := exists_position? (hg.contains_target u v e he)
  have hu : (ofGraph g).node j = u := (position?_eq_some (distinct_ofGraph g)).1 hj
  have hv : (ofGraph g).node k = v := (position?_eq_some (distinct_ofGraph g)).1 hk
  have hedge : (k, e) ∈ (ofGraph g).edges.get j := by
    rw [mem_edges_ofGraph, hu, hv]
    exact he
  obtain ⟨b, hb, hle⟩ := Search.run_relaxed hp hbest hedge hweight hext
  exact ⟨b, label?_eq_some.2 ⟨i, k, hi, hk, hb⟩, hle⟩

theorem mem_keys_of_label? {i : Fin (ofGraph g).nodes.size} (hi : (ofGraph g).position? s = some i)
    {a : Nat × Causes} {b : Nat × Level} (ha : (ofGraph g).label? .low s v = some a)
    (hb : (ofGraph g).label? .high s v = some b) :
    v ∈ ((ofGraph g).named ((ofGraph g).edges.row i none)).keys := by
  rw [mem_keys_named_row (distinct_ofGraph g)]
  obtain ⟨j, k, hj, hk, hlow⟩ := label?_eq_some.1 ha
  obtain ⟨j', k', hj', hk', hhigh⟩ := label?_eq_some.1 hb
  obtain rfl : i = j := Option.some.inj (hi.symm.trans hj)
  obtain rfl : i = j' := Option.some.inj (hi.symm.trans hj')
  obtain rfl : k = k' := Option.some.inj (hk.symm.trans hk')
  refine ⟨k, hk, ?_⟩
  rw [Adjacency.levelAt?]
  split_ifs
  · rfl
  · rw [levelOfPasses?_isSome]
    refine ⟨a, hlow, .inr (.inl ?_)⟩
    exact Option.isSome_iff_exists.2 ⟨b, hhigh⟩

end Frame

namespace Graph

/-- The edge from the end of `before` to `w` is refused by the level that the high pass
keeps there, which comes from no longer way, although the level of the path itself
accepts it. -/
def BlockedAt (g : Graph) (s : Variable) (before : List Variable) (w : Variable) : Prop :=
  ∃ e own d kept,
    g.level? (before.getLastD s) w = some e ∧
      g.composeAlong .staticallyAssigned s before = some own ∧ (own.extend e).isSome ∧
      (Frame.ofGraph g).label? .high s (before.getLastD s) = some (d, kept) ∧
      d ≤ g.lengthAlong s before ∧ kept.extend e = none

variable {g : Graph} {s : Variable}

/-- A path that composes reaches its end in the high pass unless it is blocked. -/
theorem high_reaches_or_blocked (hg : g.WellFormed) (hs : g.contains s = true)
    {vs : List Variable} (h : (g.composeAlong .staticallyAssigned s vs).isSome) :
    (∃ a, (Frame.ofGraph g).label? .high s (vs.getLastD s) = some a ∧
        a.1 ≤ g.lengthAlong s vs) ∨
      ∃ before w after, vs = before ++ w :: after ∧ g.BlockedAt s before w := by
  induction vs using List.reverseRecOn with
  | nil => exact .inl ⟨_, Frame.label?_self Pass.high_lawful hs, Nat.le_refl _⟩
  | append_singleton vs w ih =>
    obtain ⟨own, e, hown, he, haccepted⟩ := exists_of_composeAlong_concat h
    rcases ih (hown ▸ rfl) with ⟨⟨d, kept⟩, hkept, hd⟩ | ⟨before, w', after, hsplit, hblocked⟩
    · cases hext : kept.extend e with
      | none =>
        exact .inr ⟨vs, w, [], rfl, e, own, d, kept, he, hown, haccepted, hkept, hd, hext⟩
      | some x =>
        obtain ⟨b, hb, hle⟩ := Frame.label?_step hg Pass.high_lawful hkept he
          (Weight.high_le_top e) hext
        left
        rw [List.getLastD_concat, lengthAlong_concat, he]
        refine ⟨b, hb, ?_⟩
        simp only [Option.elim_some]
        exact Nat.le_trans hle (Nat.add_le_add_right hd _)
    · right
      refine ⟨before, w', after ++ [w], ?_, hblocked⟩
      rw [hsplit, List.append_assoc, List.cons_append]

theorem low_reaches_end (hg : g.WellFormed) (hs : g.contains s = true) {vs : List Variable}
    (h : (g.composeAlong .staticallyAssigned s vs).isSome) :
    ∃ a, (Frame.ofGraph g).label? .low s (vs.getLastD s) = some a := by
  induction vs using List.reverseRecOn with
  | nil => exact ⟨_, Frame.label?_self Pass.low_lawful hs⟩
  | append_singleton vs w ih =>
    obtain ⟨own, e, hown, he, _⟩ := exists_of_composeAlong_concat h
    obtain ⟨a, ha⟩ := ih (hown ▸ rfl)
    obtain ⟨x, hx⟩ := Causes.extend_accepts a.2 e
    obtain ⟨b, hb, _⟩ := Frame.label?_step hg Pass.low_lawful ha he (Weight.low_le_top e) hx
    rw [List.getLastD_concat]
    exact ⟨b, hb⟩

end Graph

namespace Shortcut

def start : Variable := ⟨"start", "start", .local⟩
def middle : Variable := ⟨"middle", "middle", .local⟩
def detour : Variable := ⟨"detour", "detour", .local⟩
def far : Variable := ⟨"far", "far", .local⟩

def additions : List (Variable × List (Variable × Level)) :=
  [(start, [(middle, .dependent (Linkage.single 0 0 false).barModification), (detour, .assigned)]),
    (detour, [(middle, .dependent (.single 0 1 false))]),
    (middle, [(far, .dependent (.single 1 0 false))])]

def graph : Graph := (Graph.ofAdditions additions).toOption.getD .empty

theorem ofAdditions_eq : Graph.ofAdditions additions = .ok graph := rfl

end Shortcut

/-- A path that composes ends at a variable of the row, unless one of its variables is
kept with a level, from a way that is no longer, that refuses the next edge. -/
theorem composed_path_kept_or_blocked {g : Graph} (hg : g.Built) {s : Variable}
    (hs : g.contains s = true) (vs : List Variable)
    (h : (g.composeAlong .staticallyAssigned s vs).isSome) :
    ∃ row, (Frame.ofGraph g).links s none = .ok row ∧
      (vs.getLastD s ∈ row.keys ∨
        ∃ before w after, vs = before ++ w :: after ∧ g.BlockedAt s before w) := by
  obtain ⟨i, hi⟩ := Frame.exists_position? hs
  refine ⟨_, Frame.links_eq hi none, ?_⟩
  obtain ⟨a, ha⟩ := Graph.low_reaches_end hg.wellFormed hs h
  rcases Graph.high_reaches_or_blocked hg.wellFormed hs h with ⟨b, hb, _⟩ | hblocked
  · exact .inl (Frame.mem_keys_of_label? hi ha hb)
  · exact .inr hblocked

/-- By the detour the far end composes, yet it is not in the row. -/
theorem composed_path_lost :
    Shortcut.graph.Built ∧ Shortcut.graph.contains Shortcut.start = true ∧
      (Shortcut.graph.composeAlong .staticallyAssigned Shortcut.start
        [Shortcut.detour, Shortcut.middle, Shortcut.far]).isSome ∧
      ∃ row, (Frame.ofGraph Shortcut.graph).links Shortcut.start none = .ok row ∧
        Shortcut.far ∉ row.keys := by
  have hbuilt : Shortcut.graph.Built := .of_additions Shortcut.ofAdditions_eq
  have hkeys : ((Frame.ofGraph Shortcut.graph).links Shortcut.start none).toOption.map
      SortedMap.keys = some [Shortcut.middle, Shortcut.detour, Shortcut.start] := by
    decide +kernel
  refine ⟨hbuilt, by decide, by decide, ?_⟩
  cases hlinks : (Frame.ofGraph Shortcut.graph).links Shortcut.start none with
  | error err =>
    rw [hlinks] at hkeys
    cases hkeys
  | ok row =>
    rw [hlinks] at hkeys
    have hrow : row.keys = [Shortcut.middle, Shortcut.detour, Shortcut.start] :=
      Option.some.inj hkeys
    refine ⟨row, rfl, ?_⟩
    rw [hrow]
    decide

theorem composed_path_kept_or_blocked_shortcut :
    Shortcut.graph.Built ∧ Shortcut.graph.contains Shortcut.start = true ∧
      (Shortcut.graph.composeAlong .staticallyAssigned Shortcut.start
        [Shortcut.detour, Shortcut.middle, Shortcut.far]).isSome ∧
      ∃ row, (Frame.ofGraph Shortcut.graph).links Shortcut.start none = .ok row ∧
        (Shortcut.far ∈ row.keys ∨
          ∃ before w after, [Shortcut.detour, Shortcut.middle, Shortcut.far] =
            before ++ w :: after ∧ Shortcut.graph.BlockedAt Shortcut.start before w) := by
  have hbuilt : Shortcut.graph.Built := .of_additions Shortcut.ofAdditions_eq
  have hstart : Shortcut.graph.contains Shortcut.start = true := by decide
  have hpath : (Shortcut.graph.composeAlong .staticallyAssigned Shortcut.start
      [Shortcut.detour, Shortcut.middle, Shortcut.far]).isSome := by decide
  exact ⟨hbuilt, hstart, hpath, composed_path_kept_or_blocked hbuilt hstart _ hpath⟩

end LinkClosure
