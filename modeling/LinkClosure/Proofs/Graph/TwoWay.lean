import LinkClosure.Proofs.Lifecycle

/-!
# Both ways of an edge

An edge is stored in both directions, unless it leaves a return value. The two
directions are combined at different times and with different operands: the way
back receives the reverse of what the way out has become by then. Their links may
come to differ by that. The kind of a level and the causes of a delay do not
change by reversal, and to combine them once more changes nothing. So both
directions stay of one kind and, while they are delayed, have the same causes.
-/

set_option autoImplicit false

namespace LinkClosure

namespace Level

/-- A level without its links: the kind and, for a delay, the causes. -/
def bare : Level → Level
  | dependent _ => dependent .empty
  | commonHidden _ => commonHidden .empty
  | l => l

theorem bare_min (a b : Level) : (a.min b).bare = a.bare.min b.bare := by
  cases a <;> cases b <;> simp [min, bare, rank, Linkage.merge_self]

theorem bare_reverse (l : Level) : l.reverse.bare = l.bare := by
  cases l <;> rfl

/-- Two levels are of one kind, and if they are delays, for the same causes. -/
structure Alike (a b : Level) : Prop where
  standing : a.standing = b.standing
  causes : ∀ c, a = .delayed c ↔ b = .delayed c

theorem alike_of_bare {a b : Level} (h : a.bare = b.bare) : a.Alike b := by
  cases a <;> cases b <;> simp_all [bare] <;> constructor <;> simp [standing]

theorem map_bare_merge (a b : Option Level) :
    (a.merge min b).map bare = (a.map bare).merge min (b.map bare) := by
  cases a <;> cases b <;> simp [bare_min]

theorem merge_min_self (a : Option Level) : a.merge min a = a := by
  cases a <;> simp [min_self]

theorem merge_min_absorbs {a b : Option Level} (h : a.merge min b = a) (c : Option Level) :
    (a.merge min c).merge min b = a.merge min c := by
  rw [merge_min_assoc, merge_min_comm c b, ← merge_min_assoc, h]

end Level

namespace Graph

variable {g g' : Graph} {a b u v : Variable} {l : Level}

def bare? (g : Graph) (u v : Variable) : Option Level := (g.level? u v).map Level.bare

/-- Between variables that are no return values, both directions are the same but for
their links. -/
def TwoWay (g : Graph) : Prop :=
  ∀ a b, a.isReturnValue = false → b.isReturnValue = false → g.bare? a b = g.bare? b a

theorem twoWay_empty : empty.TwoWay := fun _ _ _ _ => rfl

theorem bare?_insertNode (g : Graph) (w u v : Variable) :
    (g.insertNode w).bare? u v = g.bare? u v := by
  rw [bare?, level?_insertNode, bare?]

theorem bare?_joinEdge (g : Graph) (u v a b : Variable) (l : Level) :
    (g.joinEdge u v l).bare? a b =
      if a = u ∧ b = v then (g.bare? u v).merge Level.min (some l.bare) else g.bare? a b := by
  rw [bare?, level?_joinEdge]
  split_ifs with h
  · rw [Level.map_bare_merge]
    rfl
  · rfl

theorem bare?_back (hu : u.isReturnValue = false) :
    (g.insertEdge u v l).bare? v u =
      ((g.joinEdge u v l).bare? v u).merge Level.min
        ((g.bare? u v).merge Level.min (some l.bare)) := by
  have hreverse : some (g.levelWith u v l).reverse.bare =
      (g.bare? u v).merge Level.min (some l.bare) := by
    rw [Level.bare_reverse, ← Option.map_some, some_levelWith, Level.map_bare_merge]
    rfl
  rw [bare?, level?_insertEdge, if_pos ⟨hu, rfl, rfl⟩, Level.map_bare_merge, Option.map_some,
    hreverse]
  rfl

/-- Where both directions agree, an edge is combined with both of them alike. -/
theorem TwoWay.bare?_insertEdge (h : g.TwoWay) (hu : u.isReturnValue = false)
    (hv : v.isReturnValue = false) :
    (g.insertEdge u v l).bare? a b =
      if a = u ∧ b = v ∨ a = v ∧ b = u then (g.bare? u v).merge Level.min (some l.bare)
      else g.bare? a b := by
  by_cases hback : a = v ∧ b = u
  · obtain ⟨rfl, rfl⟩ := hback
    rw [if_pos (.inr ⟨rfl, rfl⟩), bare?_back hu, bare?_joinEdge]
    by_cases hself : a = b
    · rw [if_pos ⟨hself, hself.symm⟩, Level.merge_min_self]
    · rw [if_neg fun hboth => hself hboth.1, h a b hv hu, ← Level.merge_min_assoc,
        Level.merge_min_self]
  · have hout : (g.insertEdge u v l).bare? a b = (g.joinEdge u v l).bare? a b := by
      rw [bare?, level?_insertEdge, if_neg fun hall => hback hall.2, bare?]
    rw [hout, bare?_joinEdge]
    simp only [hback, or_false]

theorem TwoWay.insertNode (h : g.TwoWay) (w : Variable) : (g.insertNode w).TwoWay := by
  intro a b ha hb
  rw [bare?_insertNode, bare?_insertNode, h a b ha hb]

theorem TwoWay.insertEdge (h : g.TwoWay) (hv : v.isReturnValue = false) :
    (g.insertEdge u v l).TwoWay := by
  intro a b ha hb
  by_cases hu : u.isReturnValue = true
  · have hsame : ∀ c d, c.isReturnValue = false → (g.insertEdge u v l).bare? c d = g.bare? c d := by
      intro c d hc
      rw [bare?, level?_insertEdge_of_return hu hc, bare?]
    rw [hsame a b ha, hsame b a hb, h a b ha hb]
  · rw [Bool.not_eq_true] at hu
    rw [h.bare?_insertEdge hu hv, h.bare?_insertEdge hu hv, h a b ha hb]
    simp only [and_comm, or_comm]

theorem TwoWay.insertEdges (es : List (Variable × Level)) (h : g.TwoWay)
    (hes : ∀ e ∈ es, e.2 ≠ .independent ∧ e.1.isReturnValue = false) :
    (es.foldl (fun g e => g.insertEdge u e.1 e.2) g).TwoWay := by
  induction es generalizing g with
  | nil => exact h
  | cons e es ih =>
    obtain ⟨he, hrest⟩ := List.forall_mem_cons.1 hes
    exact ih (h.insertEdge he.2) hrest

theorem TwoWay.add (h : g.TwoWay) {v : Variable} {es : List (Variable × Level)}
    (hadd : g.add v es = .ok g') : g'.TwoWay := by
  obtain ⟨_, hes, rfl⟩ := add_eq_ok hadd
  exact (h.insertNode v).insertEdges es hes

theorem kept_twoWay : Kept TwoWay where
  add _ _ _ _ h hadd := h.add hadd
  freeze _ h := h

theorem Built.twoWay (h : g.Built) : g.TwoWay := by
  induction h with
  | empty => exact twoWay_empty
  | add _ hadd ih => exact ih.add hadd

/-- The stored level is at least as strong as `l`: to combine it with `l` changes nothing. -/
def Takes (g : Graph) (u v : Variable) (l : Level) : Prop :=
  ∃ m, g.level? u v = some m ∧ m.min l = m

theorem takes_iff : g.Takes u v l ↔ (g.level? u v).merge Level.min (some l) = g.level? u v := by
  unfold Takes
  cases g.level? u v <;> simp

theorem exists_merge_insertEdge (g : Graph) (u v a b : Variable) (l : Level) :
    ∃ o, (g.insertEdge u v l).level? a b = ((g.joinEdge u v l).level? a b).merge Level.min o := by
  rw [level?_insertEdge]
  split_ifs with h
  · obtain ⟨_, rfl, rfl⟩ := h
    exact ⟨_, rfl⟩
  · exact ⟨none, Option.merge_none_right.symm⟩

theorem Takes.insertEdge (h : g.Takes a b l) (u v : Variable) (m : Level) :
    (g.insertEdge u v m).Takes a b l := by
  obtain ⟨o, ho⟩ := exists_merge_insertEdge g u v a b m
  rw [takes_iff] at h ⊢
  rw [ho, level?_joinEdge]
  split_ifs with hout
  · obtain ⟨rfl, rfl⟩ := hout
    exact Level.merge_min_absorbs (Level.merge_min_absorbs h _) o
  · exact Level.merge_min_absorbs h o

theorem takes_insertEdge (g : Graph) (u v : Variable) (l : Level) :
    (g.insertEdge u v l).Takes u v l := by
  obtain ⟨o, ho⟩ := exists_merge_insertEdge g u v u v l
  rw [takes_iff, ho, level?_joinEdge, if_pos ⟨rfl, rfl⟩]
  apply Level.merge_min_absorbs
  rw [Level.merge_min_assoc, Level.merge_min_self]

theorem Takes.insertEdges (h : g.Takes a b l) (u : Variable) (es : List (Variable × Level)) :
    (es.foldl (fun g e => g.insertEdge u e.1 e.2) g).Takes a b l := by
  induction es generalizing g with
  | nil => exact h
  | cons e es ih => exact ih (h.insertEdge u e.1 e.2)

theorem takes_insertEdges (g : Graph) (u : Variable) (es : List (Variable × Level)) :
    ∀ e ∈ es, (es.foldl (fun g e => g.insertEdge u e.1 e.2) g).Takes u e.1 e.2 := by
  induction es generalizing g with
  | nil => simp
  | cons e es ih =>
    exact List.forall_mem_cons.2 ⟨(takes_insertEdge g u e.1 e.2).insertEdges u es, ih _⟩

theorem takes_add {v : Variable} {es : List (Variable × Level)} (h : g.add v es = .ok g') :
    ∀ e ∈ es, g'.Takes v e.1 e.2 := by
  obtain ⟨_, _, rfl⟩ := add_eq_ok h
  exact takes_insertEdges _ v es

structure EvenEdges (g : Graph) : Prop where
  both : ∀ a b, a.isReturnValue = false → b.isReturnValue = false →
    ((g.level? a b).isSome ↔ (g.level? b a).isSome)
  alike : ∀ a b l m, a.isReturnValue = false → b.isReturnValue = false →
    g.level? a b = some l → g.level? b a = some m → l.Alike m
  related : ∀ a b l, g.level? a b = some l → l ≠ .independent
  observing : ∀ a b l, g.level? a b = some l → b.isReturnValue = false
  takes : ∀ v es g', g.add v es = .ok g' → ∀ e ∈ es, g'.Takes v e.1 e.2

theorem WellFormed.evenEdges (hg : g.WellFormed) (h : g.TwoWay) : g.EvenEdges where
  both a b ha hb := by
    have hbare := congrArg Option.isSome (h a b ha hb)
    rw [bare?, bare?, Option.isSome_map, Option.isSome_map] at hbare
    rw [hbare]
  alike a b l m ha hb hl hm := by
    have hbare := h a b ha hb
    rw [bare?, bare?, hl, hm] at hbare
    exact Level.alike_of_bare (Option.some.inj hbare)
  related := hg.ne_independent
  observing := hg.target_not_return
  takes _ _ _ hadd := takes_add hadd

end Graph

/-- At any time of any session the edges between variables that are no return values go
both ways, with one kind and the same causes of delay, no edge leads to a return
value, and no edge that was accepted is lost. -/
theorem sessions_keep_edges_even (settings : Option Settings) (rs : List Request)
    (name : String) : (((Session.start settings).run rs).1.graph name).EvenEdges := by
  have hstart := Session.mirrors_start settings
  have hempty : (Session.start settings).graph name = .empty := hstart.graph name
  apply Graph.WellFormed.evenEdges
  · exact hstart.run_keeps Graph.kept_wellFormed (hempty ▸ Graph.wellFormed_empty) rs
  · exact hstart.run_keeps Graph.kept_twoWay (hempty ▸ Graph.twoWay_empty) rs

end LinkClosure
