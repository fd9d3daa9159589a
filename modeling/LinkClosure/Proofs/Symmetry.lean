import LinkClosure.Proofs.Floors
import LinkClosure.Proofs.Graph.TwoWay
import LinkClosure.Proofs.Search.Traits

/-!
# Rows of scalar graphs are symmetric

A scalar graph has assignments and delays only. Its edges are the same in both
directions, and no path is ever refused, so the labels of both passes are a
matter of paths: the length is that of the shortest paths, the causes are those
on all of them, and a label of the high pass is static assignment if one of them
has nothing else. A path and its reverse agree in all this.

Ties need care in the high pass. With more than 1024 variables an assignment can
be as long as many static assignments, and the merge of a delay with a static
assignment would lose causes. But no path without a delay is as long as a single
delay, so delays are merged with delays only.
-/

set_option autoImplicit false

namespace LinkClosure

namespace Level

variable {a e m : Level}

/-- Assignments and delays: the levels without links. -/
def Scalar (l : Level) : Prop := l.isAssignment = true ∨ l.isDelayed = true

instance : DecidablePred Scalar := fun l =>
  inferInstanceAs (Decidable (l.isAssignment = true ∨ l.isDelayed = true))

theorem Scalar.bare (h : a.Scalar) : a.bare = a := by
  cases a <;> simp_all [Scalar, Level.bare, isAssignment, isDelayed]

theorem Scalar.extend (ha : a.Scalar) (he : e.Scalar) : ∃ m, a.extend e = some m ∧ m.Scalar := by
  cases a <;> cases e <;> simp_all [Scalar, Level.extend, isAssignment, isDelayed]

theorem Scalar.min (ha : a.Scalar) (he : e.Scalar) : (a.min e).Scalar := by
  cases a <;> cases e <;> simp_all [Scalar, Level.min, rank, isAssignment, isDelayed]

theorem Scalar.isDelayed_extend (ha : a.Scalar) (he : e.Scalar) (h : a.extend e = some m) :
    m.isDelayed = (a.isDelayed || e.isDelayed) := by
  cases a <;> cases e <;> simp [Scalar, Level.extend, isAssignment, isDelayed] at ha he h ⊢ <;>
    simp [← h]

theorem Scalar.static_extend (ha : a.Scalar) (he : e.Scalar) (h : a.extend e = some m) :
    m = .staticallyAssigned ↔ e = .staticallyAssigned ∧ a = .staticallyAssigned := by
  cases a <;> cases e <;> simp [Scalar, Level.extend, isAssignment, isDelayed] at ha he h ⊢ <;>
    simp [← h]

theorem Scalar.on_extend (ha : a.Scalar) (he : e.Scalar) (h : a.extend e = some m) (x : String) :
    Causes.On x m ↔ Causes.On x e ∨ Causes.On x a := by
  cases a <;> cases e <;> simp [Scalar, Level.extend, isAssignment, isDelayed] at ha he h <;>
    simp [← h, Causes.On, Causes.mem_merge, or_comm]

theorem min_eq_static :
    a.min e = .staticallyAssigned ↔ a = .staticallyAssigned ∨ e = .staticallyAssigned := by
  cases a <;> cases e <;> simp [Level.min, rank]

theorem isDelayed_min {P : Bool → Prop} (ha : P a.isDelayed) (he : P e.isDelayed) :
    P (a.min e).isDelayed := by
  cases a <;> cases e <;> first | exact ha | exact he

theorem on_min (h : a.isDelayed = e.isDelayed) (x : String) :
    Causes.On x (a.min e) ↔ Causes.On x a ∨ Causes.On x e := by
  cases a <;> cases e <;> simp_all [Level.min, rank, isDelayed, Causes.On, Causes.mem_merge]

theorem Scalar.high_le (ha : a.Scalar) (h : a.isDelayed = false) : Weight.high a ≤ 1024 := by
  cases a <;> simp_all [Scalar, isAssignment, isDelayed, Weight.high,
    Weight.highStaticallyAssigned, Weight.highAssigned]

theorem Scalar.eq_of_alike (ha : a.Scalar) (he : e.Scalar)
    (hstatic : a = .staticallyAssigned ↔ e = .staticallyAssigned)
    (hdelayed : a.isDelayed = e.isDelayed) (hcauses : ∀ x, Causes.On x a ↔ Causes.On x e) :
    a = e := by
  cases a <;> cases e <;> simp_all [Scalar, isAssignment, isDelayed, Causes.On]
  exact Causes.ext_mem hcauses

end Level

namespace Graph

variable {g : Graph}

def Scalar (g : Graph) : Prop := ∀ u v l, g.level? u v = some l → l.Scalar

theorem scalar_iff : g.Scalar ↔ ∀ n ∈ g.adjacency.entries, ∀ e ∈ n.2.entries, e.2.Scalar := by
  simp only [Scalar, level?_eq_some]
  constructor
  · intro h n hn e he
    exact h n.1 e.1 e.2 ⟨n.2, hn, he⟩
  · rintro h u v l ⟨es, hes, he⟩
    exact h (u, es) hes (v, l) he

instance (g : Graph) : Decidable g.Scalar := decidable_of_iff _ scalar_iff.symm

theorem TwoWay.symmetric (h : g.TwoWay) (hg : g.WellFormed) (hscalar : g.Scalar)
    (hreturn : ∀ v, g.contains v = true → v.isReturnValue = false) : g.Symmetric := by
  have hback : ∀ u v l, g.level? u v = some l → g.level? v u = some l := by
    intro u v l hl
    have hbare := h u v (hreturn u (hg.contains_source u v l hl))
      (hreturn v (hg.contains_target u v l hl))
    rw [bare?, bare?, hl, Option.map_some, eq_comm, Option.map_eq_some_iff] at hbare
    obtain ⟨m, hm, hml⟩ := hbare
    rw [(hscalar v u m hm).bare, (hscalar u v l hl).bare] at hml
    rw [hm, hml]
  intro u v
  apply Option.ext
  intro l
  exact ⟨hback u v l, hback v u l⟩

end Graph

namespace Pass

variable {σ : Type} {p : Pass σ} {limit : Nat} {ls : List Level}

theorem length_reverse (p : Pass σ) (ls : List Level) : p.length ls.reverse = p.length ls := by
  rw [length, length, List.map_reverse, List.sum_reverse]

theorem admits_reverse : p.Admits limit ls.reverse ↔ p.Admits limit ls := by
  simp [Admits]

end Pass

namespace Frame

variable {g : Graph} {i j : Fin (ofGraph g).nodes.size} {limit bound : Nat}

section Reversal

variable {σ : Type} {p : Pass σ} {d e : Nat} {x y : σ}

theorem Unhindered.label_back (h : Unhindered p limit bound g) (hsym : g.Symmetric)
    (hx : (Search.run p limit (ofGraph g).edges i).best? j = some (d, x)) :
    ∃ b, (Search.run p limit (ofGraph g).edges j).best? i = some b ∧ b.1 ≤ d := by
  obtain ⟨ls, hleads, hadmits, rfl⟩ := leads_of_fits h.lawful h.fits hx
  obtain ⟨b, hb, hle⟩ := h.label_of_leads (hleads.symm hsym) (Pass.admits_reverse.2 hadmits)
  rw [Pass.length_reverse] at hle
  exact ⟨b, hb, hle⟩

theorem Unhindered.distance_symm (h : Unhindered p limit bound g) (hsym : g.Symmetric)
    (hx : (Search.run p limit (ofGraph g).edges i).best? j = some (d, x))
    (hy : (Search.run p limit (ofGraph g).edges j).best? i = some (e, y)) : d = e := by
  obtain ⟨b, hb, hle⟩ := h.label_back hsym hx
  obtain ⟨b', hb', hle'⟩ := h.label_back hsym hy
  rw [hy] at hb
  rw [hx] at hb'
  rw [← Option.some.inj hb] at hle
  rw [← Option.some.inj hb'] at hle'
  exact Nat.le_antisymm hle' hle

theorem Unhindered.holds_symm (h : Unhindered p limit bound g) (hsym : g.Symmetric) {t : Trait σ}
    (ht : ∀ k, t.Tracked p limit (ofGraph g).edges k)
    (hreverse : ∀ ls, t.Along p ls → t.Along p ls.reverse)
    (hx : (Search.run p limit (ofGraph g).edges i).best? j = some (d, x))
    (hy : (Search.run p limit (ofGraph g).edges j).best? i = some (d, y)) :
    t.holds x ↔ t.holds y := by
  have hback : ∀ i j x y, (Search.run p limit (ofGraph g).edges i).best? j = some (d, x) →
      (Search.run p limit (ofGraph g).edges j).best? i = some (d, y) → t.holds x → t.holds y := by
    intro i j x y hx hy hholds
    obtain ⟨ls, hleads, hadmits, hlength, halong⟩ := (holds_iff_along h (ht i) hx).1 hholds
    apply (holds_iff_along h (ht j) hy).2
    refine ⟨ls.reverse, hleads.symm hsym, Pass.admits_reverse.2 hadmits, ?_, hreverse ls halong⟩
    rw [Pass.length_reverse, hlength]
  exact ⟨hback i j x y hx hy, hback j i y x hy hx⟩

/-- Where the states of both directions agree, so do the runs. -/
theorem Unhindered.best?_symm (h : Unhindered p limit bound g) (hsym : g.Symmetric)
    (hstate : ∀ i j d x y, (Search.run p limit (ofGraph g).edges i).best? j = some (d, x) →
      (Search.run p limit (ofGraph g).edges j).best? i = some (d, y) → x = y) :
    (Search.run p limit (ofGraph g).edges i).best? j =
      (Search.run p limit (ofGraph g).edges j).best? i := by
  have hback : ∀ i j a, (Search.run p limit (ofGraph g).edges i).best? j = some a →
      (Search.run p limit (ofGraph g).edges j).best? i = some a := by
    intro i j a ha
    obtain ⟨⟨e, y⟩, hy, _⟩ := h.label_back hsym ha
    obtain rfl : a.1 = e := h.distance_symm hsym ha hy
    obtain rfl : a.2 = y := hstate i j a.1 a.2 y ha hy
    exact hy
  apply Option.ext
  intro a
  exact ⟨hback i j a, hback j i a⟩

end Reversal

theorem best?_low_symm (hg : g.WellFormed) (hsym : g.Symmetric)
    (hfit : Search.Fits .low limit (ofGraph g).edges bound) :
    (Search.run .low limit (ofGraph g).edges i).best? j =
      (Search.run .low limit (ofGraph g).edges j).best? i := by
  have hopen := unhindered_low hg hfit
  apply hopen.best?_symm hsym
  intro i j d c c' hc hc'
  apply Causes.ext_mem
  intro x
  apply hopen.holds_symm hsym (fun k => Causes.tracked_trait (i := k) hfit x) _ hc hc'
  intro ls h
  rw [Causes.along_trait] at h ⊢
  exact Causes.along_reverse.2 h

section High

variable {floor : Option Level} {d : Nat} {m : Level} {ls : List Level}

theorem scalar_high (hscalar : g.Scalar) {a : Nat × Level}
    (ha : (Search.run .high limit (ofGraph g).edges i).best? j = some a) : a.2.Scalar := by
  apply Search.run_states (P := Level.Scalar) Pass.high_lawful (.inl rfl) _ _ ha
  · intro l k u e he hl hext
    obtain ⟨k', hk', hscalar'⟩ := hl.extend (hscalar _ _ _ (mem_edges_ofGraph.1 he))
    rwa [← Option.some.inj (hk'.symm.trans hext)]
  · intro l k hl hk
    exact hl.min hk

theorem unhindered_high (hg : g.WellFormed) (hscalar : g.Scalar)
    (hfit : Search.Fits .high limit (ofGraph g).edges bound) :
    Unhindered .high limit bound g where
  wellFormed := hg
  lawful := Pass.high_lawful
  fits := hfit
  accepts i u b hb v w l hl := by
    obtain ⟨m, hm, _⟩ := (scalar_high hscalar hb).extend (hscalar v w l hl)
    exact ⟨m, hm⟩

theorem highDelayed_le (hscalar : g.Scalar) {a : Nat × Level}
    (ha : (Search.run .high limit (ofGraph g).edges i).best? j = some a)
    (hm : a.2.isDelayed = true) : Weight.highDelayed ≤ a.1 := by
  revert hm
  apply Search.run_labels (P := fun _ a => a.2.isDelayed = true → Weight.highDelayed ≤ a.1)
    Pass.high_lawful _ _ _ ha
  · intro hstart
    cases hstart
  · intro u b v e k hb hlong _ he _ hext hk
    have hstored := mem_edges_ofGraph.1 he
    have hdelayed := (scalar_high hscalar hb).isDelayed_extend (hscalar _ _ _ hstored) hext
    rw [hk, eq_comm, Bool.or_eq_true] at hdelayed
    show Weight.highDelayed ≤ min (b.1 + Weight.high e) Distance.top
    have htop : Weight.highDelayed ≤ Distance.top := by decide
    rcases hdelayed with hb' | he'
    · have := hlong hb'
      omega
    · rw [Level.isDelayed_iff_high] at he'
      omega
  · intro v e k l hk hl
    exact Level.isDelayed_min (P := fun delayed => delayed = true → Weight.highDelayed ≤ e) hk hl

theorem leads_undelayed (hscalar : g.Scalar) {a : Nat × Level}
    (ha : (Search.run .high limit (ofGraph g).edges i).best? j = some a)
    (hm : a.2.isDelayed = false) :
    ∃ ls, g.Leads ((ofGraph g).node i) ((ofGraph g).node j) ls ∧ Pass.high.Admits limit ls ∧
      ∀ l ∈ ls, l.isDelayed = false := by
  revert hm
  apply Search.run_labels (P := fun j a => a.2.isDelayed = false →
    ∃ ls, g.Leads ((ofGraph g).node i) ((ofGraph g).node j) ls ∧ Pass.high.Admits limit ls ∧
      ∀ l ∈ ls, l.isDelayed = false) Pass.high_lawful _ _ _ ha
  · intro _
    exact ⟨[], Graph.leads_self g _, by simp [Pass.Admits], by simp⟩
  · intro u b v e k hb hpath _ he hlimit hext hk
    have hstored := mem_edges_ofGraph.1 he
    have hdelayed := (scalar_high hscalar hb).isDelayed_extend (hscalar _ _ _ hstored) hext
    rw [hk, eq_comm, Bool.or_eq_false_iff] at hdelayed
    obtain ⟨ls, hleads, hadmits, hls⟩ := hpath hdelayed.1
    exact ⟨e :: ls, hleads.step hstored, Pass.admits_cons.2 ⟨hlimit, hadmits⟩,
      List.forall_mem_cons.2 ⟨hdelayed.2, hls⟩⟩
  · intro v e k l hk hl
    exact Level.isDelayed_min (P := fun delayed => delayed = false → _) hk hl

theorem lt_highDelayed (hg : g.WellFormed) (hsize : g.size ≤ 2 ^ 14) (hscalar : g.Scalar)
    (h : (Search.run .high limit (ofGraph g).edges i).best? j = some (d, m))
    (hleads : g.Leads ((ofGraph g).node i) ((ofGraph g).node j) ls)
    (hadmits : Pass.high.Admits limit ls) (hls : ∀ l ∈ ls, l.isDelayed = false) :
    d < Weight.highDelayed := by
  have hn : (ofGraph g).nodes.size ≤ 2 ^ 14 := by rwa [size_ofGraph hg]
  have hopen := unhindered_high hg hscalar
    (Search.fits_of_size Pass.high_graded hn (proper_ofGraph hg) limit)
  obtain ⟨ks, hshort, hsub, hlength⟩ := hleads.exists_short hg (contains_node i)
  have hsubset : ∀ l ∈ ks, l ∈ ls := fun l hl => hsub.subset hl
  obtain ⟨b, hb, hle⟩ := hopen.label_of_leads hshort fun l hl => hadmits l (hsubset l hl)
  have hweights : ∀ w ∈ ks.map Weight.high, w ≤ 1024 := by
    intro w hw
    obtain ⟨l, hl, rfl⟩ := List.mem_map.1 hw
    obtain ⟨u, v, hstored⟩ := hshort.stored l hl
    exact (hscalar u v l hstored).high_le (hls l (hsubset l hl))
  have hsum := List.sum_le_card_nsmul _ 1024 hweights
  rw [h] at hb
  rw [← Option.some.inj hb] at hle
  have hlen : Pass.high.length ks = (ks.map Weight.high).sum := rfl
  simp only [List.length_map, smul_eq_mul] at hsum
  simp only [Weight.highDelayed]
  omega

theorem isDelayed_arrival (hg : g.WellFormed) (hsize : g.size ≤ 2 ^ 14) (hscalar : g.Scalar)
    (h : (Search.run .high limit (ofGraph g).edges i).best? j = some (d, m)) {k : Level}
    (hk : (d, k) ∈ Pass.high.arrivals limit (ofGraph g).edges
      (Search.run .high limit (ofGraph g).edges i).best? j) :
    k.isDelayed = decide (Weight.highDelayed ≤ d) := by
  obtain ⟨u, b, l, hb, hl, hlimit, hext, hd⟩ := Pass.mem_arrivals.1 hk
  have hstored := mem_edges_ofGraph.1 hl
  have hsum : d = b.1 + Weight.high l := hd
  have hdelayed := (scalar_high hscalar hb).isDelayed_extend (hscalar _ _ _ hstored) hext
  cases hkd : k.isDelayed with
  | true =>
    rw [hkd, eq_comm, Bool.or_eq_true] at hdelayed
    rw [eq_comm, decide_eq_true_eq]
    rcases hdelayed with hb' | hl'
    · have := highDelayed_le hscalar hb hb'
      omega
    · rw [Level.isDelayed_iff_high] at hl'
      omega
  | false =>
    rw [hkd, eq_comm, Bool.or_eq_false_iff] at hdelayed
    rw [eq_comm, decide_eq_false_iff_not, Nat.not_le]
    obtain ⟨ls, hleads, hadmits, hls⟩ := leads_undelayed hscalar hb hdelayed.1
    exact lt_highDelayed hg hsize hscalar h (hleads.step hstored)
      (Pass.admits_cons.2 ⟨hlimit, hadmits⟩) (List.forall_mem_cons.2 ⟨hdelayed.2, hls⟩)

theorem isDelayed_label (hg : g.WellFormed) (hsize : g.size ≤ 2 ^ 14) (hscalar : g.Scalar)
    (h : (Search.run .high limit (ofGraph g).edges i).best? j = some (d, m)) :
    m.isDelayed = decide (Weight.highDelayed ≤ d) := by
  cases hm : m.isDelayed with
  | true =>
    rw [eq_comm, decide_eq_true_eq]
    exact highDelayed_le hscalar h hm
  | false =>
    rw [eq_comm, decide_eq_false_iff_not, Nat.not_le]
    obtain ⟨ls, hleads, hadmits, hls⟩ := leads_undelayed hscalar h hm
    exact lt_highDelayed hg hsize hscalar h hleads hadmits hls

def staticTrait : Trait Level :=
  ⟨fun l => l = .staticallyAssigned, fun _ => False, fun l => l = .staticallyAssigned⟩

theorem tracked_static (hscalar : g.Scalar)
    (hfit : Search.Fits .high limit (ofGraph g).edges bound) :
    staticTrait.Tracked .high limit (ofGraph g).edges i where
  followed u b v l y hb hl h := by
    simp only [staticTrait, false_or]
    exact (scalar_high hscalar hb).static_extend (hscalar _ _ _ (mem_edges_ofGraph.1 hl)) h
  gathered v d x hv h :=
    Trait.holds_iff_arrival Pass.high_lawful hfit (C := fun _ => True) (fun _ _ _ _ => trivial)
      (fun _ _ _ _ => Level.min_eq_static) hv h fun _ _ => trivial

theorem along_static : staticTrait.Along .high ls ↔ ∀ l ∈ ls, l = .staticallyAssigned := by
  induction ls with
  | nil => simp [Trait.Along, staticTrait, Pass.high]
  | cons l ls ih => simp [Trait.Along, ← ih, staticTrait]

theorem tracked_causes (hg : g.WellFormed) (hsize : g.size ≤ 2 ^ 14) (hscalar : g.Scalar)
    (hfit : Search.Fits .high limit (ofGraph g).edges bound) (x : String) :
    (Causes.collecting x (Causes.On x)).Tracked .high limit (ofGraph g).edges i where
  followed u b v l y hb hl h := by
    simp only [Causes.collecting, true_and]
    exact (scalar_high hscalar hb).on_extend (hscalar _ _ _ (mem_edges_ofGraph.1 hl)) h x
  gathered v d k hv h := by
    apply Trait.holds_iff_arrival Pass.high_lawful hfit
      (C := fun k => k.isDelayed = decide (Weight.highDelayed ≤ d)) _ _ hv h
    · exact fun y hy => isDelayed_arrival hg hsize hscalar h hy
    · intro a b ha hb
      exact Level.isDelayed_min (P := fun delayed => delayed = _) ha hb
    · intro a b ha hb
      exact Level.on_min (ha.trans hb.symm) x

theorem best?_high_symm (hg : g.WellFormed) (hsym : g.Symmetric) (hsize : g.size ≤ 2 ^ 14)
    (hscalar : g.Scalar) (hfit : Search.Fits .high limit (ofGraph g).edges bound) :
    (Search.run .high limit (ofGraph g).edges i).best? j =
      (Search.run .high limit (ofGraph g).edges j).best? i := by
  have hopen := unhindered_high hg hscalar hfit
  apply hopen.best?_symm hsym
  intro i j d l k hl hk
  apply (scalar_high hscalar hl).eq_of_alike (scalar_high hscalar hk)
  · apply hopen.holds_symm hsym (fun k => tracked_static (i := k) hscalar hfit) _ hl hk
    intro ls h
    rw [along_static] at h ⊢
    simpa using h
  · rw [isDelayed_label hg hsize hscalar hl, isDelayed_label hg hsize hscalar hk]
  · intro x
    have hinitial : ¬ Causes.On x Pass.high.initial := by
      rintro ⟨c, hc, _⟩
      cases hc
    apply hopen.holds_symm hsym (fun k => tracked_causes (i := k) hg hsize hscalar hfit x) _ hl hk
    intro ls h
    rw [Causes.along_collecting hinitial] at h ⊢
    exact Causes.along_reverse.2 h

theorem levelAt?_symm (hg : g.WellFormed) (hsym : g.Symmetric) (hsize : g.size ≤ 2 ^ 14)
    (hscalar : g.Scalar) (floor : Option Level) :
    (ofGraph g).edges.levelAt? i floor j = (ofGraph g).edges.levelAt? j floor i := by
  have hn : (ofGraph g).nodes.size ≤ 2 ^ 14 := by rwa [size_ofGraph hg]
  have hproper := proper_ofGraph hg
  rw [Adjacency.levelAt?, Adjacency.levelAt?, Adjacency.lowSearch, Adjacency.lowSearch,
    Adjacency.highSearch, Adjacency.highSearch,
    best?_low_symm hg hsym (Search.fits_of_size Pass.low_graded hn hproper _),
    best?_high_symm hg hsym hsize hscalar (Search.fits_of_size Pass.high_graded hn hproper _)]
  simp only [eq_comm]

end High

end Frame

/-- In a graph with assignments and delays only, two variables have each other in their
rows with the same level, or neither has the other. -/
theorem scalar_rows_symmetric {g : Graph} (hg : g.Built) (hsize : g.size ≤ 2 ^ 14)
    (hscalar : g.Scalar) (hreturn : ∀ v, g.contains v = true → v.isReturnValue = false)
    {a b : Variable} (ha : g.contains a = true) (hb : g.contains b = true)
    (floor : Option Level) :
    ∃ row row', (Frame.ofGraph g).links a floor = .ok row ∧
      (Frame.ofGraph g).links b floor = .ok row' ∧ row.get? b = row'.get? a := by
  have hwf := hg.wellFormed
  have hsym : g.Symmetric := hg.twoWay.symmetric hwf hscalar hreturn
  obtain ⟨i, row, rfl, hrow, hentry, _⟩ := Frame.exists_row ha floor
  obtain ⟨j, row', rfl, hrow', hentry', _⟩ := Frame.exists_row hb floor
  refine ⟨row, row', hrow, hrow', ?_⟩
  rw [hentry, hentry']
  exact Frame.levelAt?_symm hwf hsym hsize hscalar floor

namespace Fork

def left : Variable := ⟨"left", "left", .local⟩
def upper : Variable := ⟨"upper", "upper", .local⟩
def lower : Variable := ⟨"lower", "lower", .field⟩
def right : Variable := ⟨"right", "right", .this⟩

def additions : List (Variable × List (Variable × Level)) :=
  [(left, [(upper, .staticallyAssigned), (lower, .delayed (.single "loop"))]),
    (right, [(upper, .delayed (.single "body")), (lower, .staticallyAssigned)]),
    (lower, [(upper, .delayed (.single "far"))])]

def graph : Graph := (Graph.ofAdditions additions).toOption.getD .empty

theorem ofAdditions_eq : Graph.ofAdditions additions = .ok graph := rfl

theorem not_return (v : Variable) (hv : graph.contains v = true) : v.isReturnValue = false := by
  have hkeys : ∀ v ∈ graph.adjacency.keys, v.isReturnValue = false := by decide
  exact hkeys v (Graph.mem_keys.2 hv)

end Fork

theorem scalar_rows_symmetric_fork :
    Fork.graph.Built ∧ Fork.graph.size ≤ 2 ^ 14 ∧ Fork.graph.Scalar ∧
      (∀ v, Fork.graph.contains v = true → v.isReturnValue = false) ∧
      Fork.graph.contains Fork.left = true ∧ Fork.graph.contains Fork.right = true ∧
      ∃ row row', (Frame.ofGraph Fork.graph).links Fork.left (some .assigned) = .ok row ∧
        (Frame.ofGraph Fork.graph).links Fork.right (some .assigned) = .ok row' ∧
        row.get? Fork.right = row'.get? Fork.left := by
  have hbuilt : Fork.graph.Built := .of_additions Fork.ofAdditions_eq
  have hsize : Fork.graph.size ≤ 2 ^ 14 := by decide
  have hscalar : Fork.graph.Scalar := by decide
  have hleft : Fork.graph.contains Fork.left = true := by decide
  have hright : Fork.graph.contains Fork.right = true := by decide
  exact ⟨hbuilt, hsize, hscalar, Fork.not_return, hleft, hright,
    scalar_rows_symmetric hbuilt hsize hscalar Fork.not_return hleft hright _⟩

/-- The causes of both ways are pooled, seen from either end. -/
example : ((Frame.ofGraph Fork.graph).links Fork.right none).toOption.bind (·.get? Fork.left) =
    some (.delayed (.ofList ["body", "loop"])) := by
  decide +kernel

end LinkClosure
