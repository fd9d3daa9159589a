import LinkClosure.Proofs.Search.Paths

/-!
# What labels take from their paths

A trait of a state is a matter of single edges: an edge gives it to the path, or
lets the path keep what it had. Where merging adds the traits of the
alternatives up, a label has the trait exactly if some path of the label's
length has it. The causes that the low pass collects are traits of this sort:
for each node they are the causes on all paths of exactly the label's length.
-/

set_option autoImplicit false

namespace LinkClosure

/-- A property of states, the edges that give it to a path, and the edges that let a path
keep it. -/
structure Trait (σ : Type) where
  holds : σ → Prop
  gives : Level → Prop
  keeps : Level → Prop

namespace Trait

variable {σ : Type} {n : Nat} (t : Trait σ) (p : Pass σ)

def Along : List Level → Prop
  | [] => t.holds p.initial
  | l :: ls => t.gives l ∨ t.keeps l ∧ Along ls

/-- The labels of a run have the trait by the edges that they come over. -/
structure Tracked (limit : Nat) (edges : Adjacency n) (i : Fin n) : Prop where
  /-- An edge does to a label what it does to a path. -/
  followed : ∀ u b v l y, (Search.run p limit edges i).best? u = some b → (v, l) ∈ edges.get u →
    p.extend b.2 l = some y → (t.holds y ↔ t.gives l ∨ t.keeps l ∧ t.holds b.2)
  /-- A label has the trait if one of the arrivals does that it is merged from. -/
  gathered : ∀ v d x, v ≠ i → (Search.run p limit edges i).best? v = some (d, x) →
    (t.holds x ↔
      ∃ y, (d, y) ∈ p.arrivals limit edges (Search.run p limit edges i).best? v ∧ t.holds y)

variable {t p}

theorem holds_mergeAll {C : σ → Prop} (hkind : ∀ x y, C x → C y → C (p.merge x y))
    (hmerge : ∀ x y, C x → C y → (t.holds (p.merge x y) ↔ t.holds x ∨ t.holds y))
    {xs : List σ} (hxs : ∀ x ∈ xs, C x) {z : σ} (h : p.mergeAll xs = some z) :
    t.holds z ↔ ∃ x ∈ xs, t.holds x := by
  induction xs generalizing z with
  | nil => cases h
  | cons x xs ih =>
    obtain ⟨hx, hrest⟩ := List.forall_mem_cons.1 hxs
    simp only [List.mem_cons, exists_eq_or_imp]
    rw [Pass.mergeAll_cons] at h
    cases hall : p.mergeAll xs with
    | none =>
      have hnil : xs = [] := p.mergeAll_eq_none.1 hall
      rw [hall, Option.merge_none_right] at h
      rw [← Option.some.inj h, hnil]
      simp
    | some y =>
      rw [hall, Option.merge_some_some] at h
      rw [← Option.some.inj h, ← ih hrest hall]
      exact hmerge x y hx (p.mergeAll_induction hkind hrest hall)

theorem holds_iff_arrival (hp : p.Lawful) {limit bound : Nat} {edges : Adjacency n} {i v : Fin n}
    (hfit : Search.Fits p limit edges bound) {C : σ → Prop}
    (hkind : ∀ x y, C x → C y → C (p.merge x y))
    (hmerge : ∀ x y, C x → C y → (t.holds (p.merge x y) ↔ t.holds x ∨ t.holds y)) {d : Nat} {x : σ}
    (hv : v ≠ i) (h : (Search.run p limit edges i).best? v = some (d, x))
    (harrivals : ∀ y, (d, y) ∈ p.arrivals limit edges (Search.run p limit edges i).best? v → C y) :
    t.holds x ↔
      ∃ y, (d, y) ∈ p.arrivals limit edges (Search.run p limit edges i).best? v ∧ t.holds y := by
  rw [Search.run_equation_of_ne hp hfit hv] at h
  rw [holds_mergeAll hkind hmerge (fun y hy => harrivals y (Pass.mem_tied.1 hy))
    (p.least_of_joinAll h).2]
  simp only [Pass.mem_tied]

end Trait

namespace Frame

variable {σ : Type} {p : Pass σ} {t : Trait σ} {limit bound : Nat} {g : Graph}
  {i j : Fin (ofGraph g).nodes.size} {d : Nat} {x : σ}

/-- The pass follows every path within the limit, and all its lengths are exact. -/
structure Unhindered (p : Pass σ) (limit bound : Nat) (g : Graph) : Prop where
  wellFormed : g.WellFormed
  lawful : p.Lawful
  fits : Search.Fits p limit (ofGraph g).edges bound
  accepts : ∀ i u b, (Search.run p limit (ofGraph g).edges i).best? u = some b →
    ∀ v w l, g.level? v w = some l → ∃ x, p.extend b.2 l = some x

theorem Unhindered.label_of_leads (h : Unhindered p limit bound g) {ls : List Level}
    (hleads : g.Leads ((ofGraph g).node i) ((ofGraph g).node j) ls)
    (hadmits : p.Admits limit ls) :
    ∃ b, (Search.run p limit (ofGraph g).edges i).best? j = some b ∧ b.1 ≤ p.length ls := by
  have haccepts : ∀ u b, (Search.run p limit (ofGraph g).edges i).best? u = some b →
      ∀ l ∈ ls, ∃ x, p.extend b.2 l = some x := by
    intro u b hb l hl
    obtain ⟨v, w, hstored⟩ := hleads.stored l hl
    exact h.accepts i u b hb v w l hstored
  obtain ⟨k, b, hk, hb, hle⟩ :=
    Frame.label_of_leads h.wellFormed h.lawful hleads hadmits haccepts
  obtain rfl := node_inj (distinct_ofGraph g) hk
  exact ⟨b, hb, hle⟩

theorem exists_arrival (hp : p.Lawful) (hfit : Search.Fits p limit (ofGraph g).edges bound)
    (hj : j ≠ i) (h : (Search.run p limit (ofGraph g).edges i).best? j = some (d, x)) :
    ∃ y, (d, y) ∈ p.arrivals limit (ofGraph g).edges
      (Search.run p limit (ofGraph g).edges i).best? j := by
  rw [Search.run_equation_of_ne hp hfit hj] at h
  obtain ⟨⟨e, y⟩, hy, rfl⟩ := p.joinAll_attained h
  exact ⟨y, hy⟩

theorem leads_before (hp : p.Lawful) (hfit : Search.Fits p limit (ofGraph g).edges bound)
    (h : (Search.run p limit (ofGraph g).edges i).best? j = some (d, x)) {u} {b : Nat × σ}
    {l : Level} (hb : (Search.run p limit (ofGraph g).edges i).best? u = some b)
    (hd : d = b.1 + p.weight l) :
    ∃ ls, g.Leads ((ofGraph g).node i) ((ofGraph g).node u) ls ∧ p.Admits limit ls ∧
      p.length ls = b.1 := by
  have hle : d ≤ Distance.top := Nat.le_trans (Search.run_le hp hfit h) hfit.room
  have hpos := hp.weight_pos l
  exact leads_of_label hp hb (by omega)

theorem leads_of_fits (hp : p.Lawful) (hfit : Search.Fits p limit (ofGraph g).edges bound)
    (h : (Search.run p limit (ofGraph g).edges i).best? j = some (d, x)) :
    ∃ ls, g.Leads ((ofGraph g).node i) ((ofGraph g).node j) ls ∧ p.Admits limit ls ∧
      p.length ls = d := by
  by_cases hj : j = i
  · rw [hj, Search.run_start hp] at h
    rw [hj, ← (Prod.mk.inj (Option.some.inj h)).1]
    exact ⟨[], Graph.leads_self g _, by simp [Pass.Admits], rfl⟩
  · obtain ⟨y, hy⟩ := exists_arrival hp hfit hj h
    obtain ⟨u, b, l, hb, hl, hlimit, _, hd⟩ := Pass.mem_arrivals.1 hy
    obtain ⟨ls, hleads, hadmits, hlength⟩ := leads_before hp hfit h hb hd
    refine ⟨l :: ls, hleads.step (mem_edges_ofGraph.1 hl), Pass.admits_cons.2 ⟨hlimit, hadmits⟩, ?_⟩
    rw [Pass.length_cons, hlength, Nat.add_comm]
    exact hd.symm

theorem along_of_holds (hp : p.Lawful) (hfit : Search.Fits p limit (ofGraph g).edges bound)
    (ht : t.Tracked p limit (ofGraph g).edges i)
    (h : (Search.run p limit (ofGraph g).edges i).best? j = some (d, x)) (hx : t.holds x) :
    ∃ ls, g.Leads ((ofGraph g).node i) ((ofGraph g).node j) ls ∧ p.Admits limit ls ∧
      p.length ls = d ∧ t.Along p ls := by
  induction d using Nat.strong_induction_on generalizing j x with
  | _ d ih =>
    by_cases hj : j = i
    · rw [hj, Search.run_start hp] at h
      obtain ⟨rfl, rfl⟩ := Prod.mk.inj (Option.some.inj h)
      rw [hj]
      exact ⟨[], Graph.leads_self g _, by simp [Pass.Admits], rfl, hx⟩
    · obtain ⟨y, hy, hholds⟩ := (ht.gathered j d x hj h).1 hx
      obtain ⟨u, b, l, hb, hl, hlimit, hext, hd⟩ := Pass.mem_arrivals.1 hy
      have hsum : d = b.1 + p.weight l := hd
      have hpos := hp.weight_pos l
      obtain ⟨ls, hleads, hadmits, hlength, halong⟩ :
          ∃ ls, g.Leads ((ofGraph g).node i) ((ofGraph g).node u) ls ∧ p.Admits limit ls ∧
            p.length ls = b.1 ∧ t.Along p (l :: ls) := by
        rcases (ht.followed u b j l y hb hl hext).1 hholds with hgives | ⟨hkeeps, hbefore⟩
        · obtain ⟨ls, hleads, hadmits, hlength⟩ := leads_before hp hfit h hb hsum
          exact ⟨ls, hleads, hadmits, hlength, .inl hgives⟩
        · obtain ⟨ls, hleads, hadmits, hlength, halong⟩ := ih b.1 (by omega) hb hbefore
          exact ⟨ls, hleads, hadmits, hlength, .inr ⟨hkeeps, halong⟩⟩
      refine ⟨l :: ls, hleads.step (mem_edges_ofGraph.1 hl),
        Pass.admits_cons.2 ⟨hlimit, hadmits⟩, ?_, halong⟩
      rw [Pass.length_cons, hlength, hsum, Nat.add_comm]

theorem holds_of_along (hopen : Unhindered p limit bound g)
    (ht : t.Tracked p limit (ofGraph g).edges i) {v : Variable} {ls : List Level}
    (hleads : g.Leads ((ofGraph g).node i) v ls)
    (hadmits : p.Admits limit ls) (halong : t.Along p ls) (hj : (ofGraph g).node j = v)
    (h : (Search.run p limit (ofGraph g).edges i).best? j = some (p.length ls, x)) :
    t.holds x := by
  have hp := hopen.lawful
  induction hleads using Graph.Leads.induction generalizing j x with
  | start =>
    rw [node_inj (distinct_ofGraph g) hj, Search.run_start hp] at h
    rwa [← (Prod.mk.inj (Option.some.inj h)).2]
  | step u v ls l hu hl ih =>
    obtain ⟨hlimit, hrest⟩ := Pass.admits_cons.1 hadmits
    have hpos := hp.weight_pos l
    rw [Pass.length_cons] at h
    obtain ⟨k, hk⟩ := exists_node (hopen.wellFormed.contains_source _ _ _ hl)
    subst hk
    obtain ⟨⟨e, b⟩, hb, hle⟩ := hopen.label_of_leads hu hrest
    obtain ⟨z, hz⟩ := hopen.accepts i k (e, b) hb _ _ l hl
    obtain ⟨a, ha, hstep⟩ := Search.run_relaxed hp hb (mem_edges_ofGraph.2 (hj ▸ hl)) hlimit hz
    obtain rfl := Option.some.inj (h.symm.trans ha)
    have he : e = p.length ls := by
      have hup : e ≤ p.length ls := hle
      have hdown : p.weight l + p.length ls ≤ e + p.weight l := hstep
      omega
    have hne : j ≠ i := by
      rintro rfl
      rw [Search.run_start hp] at h
      have hzero := (Prod.mk.inj (Option.some.inj h)).1
      omega
    have hedge := mem_edges_ofGraph.2 (hj ▸ hl)
    refine (ht.gathered j _ x hne h).2 ⟨z, Pass.mem_arrivals.2 ⟨k, (e, b), l, hb, hedge, hlimit, hz,
      ?_⟩, (ht.followed k (e, b) j l z hb hedge hz).2 ?_⟩
    · rw [he]
      exact Nat.add_comm _ _
    · rcases halong with hgives | ⟨hkeeps, hbefore⟩
      · exact .inl hgives
      · exact .inr ⟨hkeeps, ih hrest hbefore rfl (he ▸ hb)⟩

/-- The traits of a label are those of the paths of its length. -/
theorem holds_iff_along (hopen : Unhindered p limit bound g)
    (ht : t.Tracked p limit (ofGraph g).edges i)
    (h : (Search.run p limit (ofGraph g).edges i).best? j = some (d, x)) :
    t.holds x ↔
      ∃ ls, g.Leads ((ofGraph g).node i) ((ofGraph g).node j) ls ∧ p.Admits limit ls ∧
        p.length ls = d ∧ t.Along p ls := by
  constructor
  · exact along_of_holds hopen.lawful hopen.fits ht h
  · rintro ⟨ls, hleads, hadmits, rfl, halong⟩
    exact holds_of_along hopen ht hleads hadmits halong rfl h

end Frame

namespace Causes

theorem mem_merge {x : String} {c d : Causes} :
    x ∈ (c.merge d).labels ↔ x ∈ c.labels ∨ x ∈ d.labels := SortedSet.mem_union

theorem ext_mem {c d : Causes} (h : ∀ x, x ∈ c.labels ↔ x ∈ d.labels) : c = d := by
  cases c
  cases d
  exact congrArg mk (SortedSet.ext_mem h)

def Along (x : String) (ls : List Level) : Prop := ∃ c, Level.delayed c ∈ ls ∧ x ∈ c.labels

def On (x : String) (l : Level) : Prop := ∃ c, l = .delayed c ∧ x ∈ c.labels

theorem along_cons {x : String} {l : Level} {ls : List Level} :
    Along x (l :: ls) ↔ On x l ∨ Along x ls := by
  simp only [Along, On, List.mem_cons, or_and_right, exists_or]
  rw [exists_congr fun c => and_congr_left' eq_comm]

theorem mem_extend {x : String} {c d : Causes} {l : Level} (h : c.extend l = some d) :
    x ∈ d.labels ↔ On x l ∨ x ∈ c.labels := by
  cases l with
  | delayed e =>
    rw [← Option.some.inj h, mem_merge, or_comm]
    simp [On]
  | _ =>
    rw [← Option.some.inj h]
    simp [On]

/-- The trait of states that collect a cause: delays give it, and it is never lost. -/
def collecting {σ : Type} (x : String) (holds : σ → Prop) : Trait σ :=
  ⟨holds, On x, fun _ => True⟩

theorem along_collecting {σ : Type} {p : Pass σ} {x : String} {holds : σ → Prop}
    (hinitial : ¬ holds p.initial) {ls : List Level} :
    (collecting x holds).Along p ls ↔ Along x ls := by
  induction ls with
  | nil =>
    constructor
    · intro h
      exact absurd h hinitial
    · rintro ⟨c, hc, _⟩
      cases hc
  | cons l ls ih =>
    rw [along_cons, ← ih]
    exact or_congr_right (iff_of_eq (true_and _))

def trait (x : String) : Trait Causes := collecting x fun c => x ∈ c.labels

theorem tracked_trait {n limit bound : Nat} {edges : Adjacency n} {i : Fin n}
    (hfit : Search.Fits .low limit edges bound) (x : String) :
    (trait x).Tracked .low limit edges i where
  followed _ _ _ _ _ _ _ h := by
    simp only [trait, collecting, true_and]
    exact mem_extend h
  gathered _ _ _ hv h :=
    Trait.holds_iff_arrival Pass.low_lawful hfit (C := fun _ => True) (fun _ _ _ _ => trivial)
      (fun _ _ _ _ => mem_merge) hv h fun _ _ => trivial

theorem along_trait {x : String} {ls : List Level} : (trait x).Along .low ls ↔ Along x ls := by
  apply along_collecting
  intro h
  cases h

theorem along_reverse {x : String} {ls : List Level} : Along x ls.reverse ↔ Along x ls := by
  simp only [Along, List.mem_reverse]

end Causes

namespace Frame

variable {limit bound : Nat} {g : Graph} {i j : Fin (ofGraph g).nodes.size} {c : Causes} {d : Nat}
  {x : String}

theorem unhindered_low (hg : g.WellFormed)
    (hfit : Search.Fits .low limit (ofGraph g).edges bound) : Unhindered .low limit bound g where
  wellFormed := hg
  lawful := Pass.low_lawful
  fits := hfit
  accepts _ _ b _ _ _ l _ := Causes.extend_accepts b.2 l

theorem mem_causes (hg : g.WellFormed) (hfit : Search.Fits .low limit (ofGraph g).edges bound)
    (h : (Search.run .low limit (ofGraph g).edges i).best? j = some (d, c)) :
    x ∈ c.labels ↔
      ∃ ls, g.Leads ((ofGraph g).node i) ((ofGraph g).node j) ls ∧ Pass.low.Admits limit ls ∧
        Pass.low.length ls = d ∧ Causes.Along x ls := by
  have hiff := holds_iff_along (unhindered_low hg hfit) (Causes.tracked_trait hfit x) h
  simp only [Causes.along_trait] at hiff
  exact hiff

end Frame

end LinkClosure
