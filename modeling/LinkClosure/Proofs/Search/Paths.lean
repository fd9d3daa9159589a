import LinkClosure.Proofs.Graph.Paths
import LinkClosure.Proofs.Graph.Rows
import LinkClosure.Proofs.Search.Kinds

/-!
# Labels and the paths behind them

A label has come over an edge from a settled node, so there is a path behind it
whose weights add up to its length; and no path that the pass can follow is
shorter than the label at its end.

The length of a label is capped where it would not fit a word. Below that it is
exact, for graphs of any size.
-/

set_option autoImplicit false

namespace LinkClosure

namespace Search

variable {σ : Type} {n : Nat} {p : Pass σ} {limit : Nat} {edges : Adjacency n} {i : Fin n}

/-- A label is that of the start, or has come over an edge of a settled node. -/
def Traced (p : Pass σ) (limit : Nat) (edges : Adjacency n) (i : Fin n) (s : Search σ n) : Prop :=
  ∀ v a, s.best? v = some a →
    (v = i ∧ a.1 = 0) ∨
      ∃ u b l, s.isSettled u = true ∧ s.best? u = some b ∧ (v, l) ∈ edges.get u ∧
        p.weight l ≤ limit ∧ a.1 = Distance.add b.1 (p.weight l)

theorem Traced.start : Traced p limit edges i (start p i) := by
  intro v a ha
  rw [best?_start] at ha
  split_ifs at ha with hv
  exact .inl ⟨hv, by rw [← Option.some.inj ha]⟩

theorem Traced.settle (hp : p.Lawful) {s : Search σ n} (hs : Traced p limit edges i s) :
    Traced p limit edges i (s.settle p limit edges) := by
  cases hnear : s.nearest? with
  | none => rwa [settle_of_nearest?_none hnear]
  | some c =>
    obtain ⟨u, l⟩ := c
    have near := nearest_of_nearest? hnear
    -- An old label keeps its trace, since the node it has come from stays settled.
    have hold : ∀ v a b, s.best? v = some b → b.1 = a →
        (v = i ∧ a = 0) ∨
          ∃ w c m, (s.settle p limit edges).isSettled w = true ∧
            (s.settle p limit edges).best? w = some c ∧ (v, m) ∈ edges.get w ∧
            p.weight m ≤ limit ∧ a = Distance.add c.1 (p.weight m) := by
      rintro v a b hb rfl
      rcases hs v b hb with h | ⟨w, c, m, hw, hc, hm⟩
      · exact .inl h
      · obtain ⟨hset, hbest⟩ := settle_keeps hw
        exact .inr ⟨w, c, m, hset, hbest.trans hc, hm⟩
    intro v a ha
    by_cases hv : v = u ∨ s.isSettled v = true
    · rw [best?_settle_of_settled hnear hv] at ha
      exact hold v a.1 a ha rfl
    · rw [not_or, Bool.not_eq_true] at hv
      rcases best?_settle_cases hp hnear hv.1 hv.2 ha with ⟨b, hb, hba⟩ | ⟨m, hm, hlimit, hlen⟩
      · exact hold v a.1 b hb hba
      · refine .inr ⟨u, (l.distance, l.state), m, ?_, ?_, hm, hlimit, hlen⟩
        · rw [isSettled_settle hnear]
          simp
        · rw [best?_settle_of_settled hnear (.inl rfl), near.best?]

theorem run_traced (hp : p.Lawful) {v : Fin n} {a : Nat × σ}
    (ha : (run p limit edges i).best? v = some a) :
    (v = i ∧ a.1 = 0) ∨
      ∃ u b l, (run p limit edges i).best? u = some b ∧ (v, l) ∈ edges.get u ∧
        p.weight l ≤ limit ∧ a.1 = Distance.add b.1 (p.weight l) := by
  have hrun : Traced p limit edges i (run p limit edges i) :=
    run_induction (motive := Traced p limit edges i) .start fun _ hs => hs.settle hp
  rcases hrun v a ha with h | ⟨u, b, l, _, h⟩
  · exact .inl h
  · exact .inr ⟨u, b, l, h⟩

theorem run_states (hp : p.Lawful) {P : σ → Prop} (hinitial : P p.initial)
    (hextend : ∀ x y (u : Fin n), ∀ e ∈ edges.get u, P x → p.extend x e.2 = some y → P y)
    (hmerge : ∀ x y, P x → P y → P (p.merge x y)) {v : Fin n} {a : Nat × σ}
    (ha : (run p limit edges i).best? v = some a) : P a.2 := by
  apply run_labels (P := fun _ a => P a.2) hp hinitial _ _ ha
  · intro u b w e x _ hb _ he _ hext
    exact hextend b.2 x u (w, e) he hb hext
  · intro w d x y hx hy
    exact hmerge x y hx hy

end Search

def Pass.length {σ : Type} (p : Pass σ) (ls : List Level) : Nat := (ls.map p.weight).sum

theorem Pass.length_cons {σ : Type} (p : Pass σ) (l : Level) (ls : List Level) :
    p.length (l :: ls) = p.weight l + p.length ls := List.sum_cons

def Pass.Admits {σ : Type} (p : Pass σ) (limit : Nat) (ls : List Level) : Prop :=
  ∀ l ∈ ls, p.weight l ≤ limit

theorem Pass.admits_cons {σ : Type} {p : Pass σ} {limit : Nat} {l : Level} {ls : List Level} :
    p.Admits limit (l :: ls) ↔ p.weight l ≤ limit ∧ p.Admits limit ls := List.forall_mem_cons

namespace Frame

variable {σ : Type} {p : Pass σ} {limit : Nat} {g : Graph} {i j : Fin (ofGraph g).nodes.size}
  {v : Variable} {ls : List Level}

/-- There is a path behind every label, and its length is that of the label. -/
theorem leads_of_label (hp : p.Lawful) {d : Nat} {x : σ}
    (h : (Search.run p limit (ofGraph g).edges i).best? j = some (d, x)) (hfit : d < Distance.top) :
    ∃ ls, g.Leads ((ofGraph g).node i) ((ofGraph g).node j) ls ∧ p.Admits limit ls ∧
      p.length ls = d := by
  induction d using Nat.strong_induction_on generalizing j x with
  | _ d ih =>
    rcases Search.run_traced hp h with ⟨rfl, hzero⟩ | ⟨u, ⟨e, y⟩, l, hu, hl, hlimit, hlen⟩
    · refine ⟨[], Graph.leads_self g _, ?_, hzero.symm⟩
      intro l hl
      cases hl
    · have hpos := hp.weight_pos l
      have hsum : d = e + p.weight l := by
        have hcapped : d = min (e + p.weight l) Distance.top := hlen
        omega
      obtain ⟨ls, hleads, hadmits, hlength⟩ := ih e (by omega) hu (by omega)
      refine ⟨l :: ls, hleads.step (mem_edges_ofGraph.1 hl), ?_, ?_⟩
      · exact Pass.admits_cons.2 ⟨hlimit, hadmits⟩
      · rw [Pass.length_cons, hlength]
        omega

/-- A path that the pass can follow edge by edge is no shorter than the label at its
end. -/
theorem label_of_leads (hg : g.WellFormed) (hp : p.Lawful)
    (h : g.Leads ((ofGraph g).node i) v ls) (hadmits : p.Admits limit ls)
    (haccepts : ∀ u b, (Search.run p limit (ofGraph g).edges i).best? u = some b →
      ∀ l ∈ ls, ∃ x, p.extend b.2 l = some x) :
    ∃ k b, (ofGraph g).node k = v ∧
      (Search.run p limit (ofGraph g).edges i).best? k = some b ∧ b.1 ≤ p.length ls := by
  induction h using Graph.Leads.induction with
  | start => exact ⟨i, (0, p.initial), rfl, Search.run_start hp, Nat.zero_le _⟩
  | step u v ls l hu hl ih =>
    obtain ⟨hlimit, hrest⟩ := Pass.admits_cons.1 hadmits
    obtain ⟨k, b, rfl, hb, hle⟩ :=
      ih hrest fun w c hc m hm => haccepts w c hc m (List.mem_cons_of_mem l hm)
    obtain ⟨k', hk'⟩ := exists_position? (hg.contains_target _ _ _ hl)
    have hnode : (ofGraph g).node k' = v := (position?_eq_some (distinct_ofGraph g)).1 hk'
    obtain ⟨x, hx⟩ := haccepts k b hb l List.mem_cons_self
    obtain ⟨c, hc, hstep⟩ :=
      Search.run_relaxed hp hb (mem_edges_ofGraph.2 (hnode ▸ hl)) hlimit hx
    refine ⟨k', c, hnode, hc, ?_⟩
    rw [Pass.length_cons]
    omega

end Frame

end LinkClosure
