import LinkClosure.Proofs.Delays
import LinkClosure.Proofs.Text.Legible

/-!
# Rows of graphs without delays

A row tells delays by the length of a path in the low pass alone: a length from
the weight of a delay up to that of an assignment. Static assignments have
length one, so 1024 of them in a row are as long as a delay. In a graph without
delays an entry is delayed just where static assignments lead but every path of
them is that long, and such an entry has no causes. It takes more than 1024
variables.
-/

set_option autoImplicit false

namespace LinkClosure

namespace Level

/-- Neither a delay nor the independent level: what composing known levels gives. -/
def Known (l : Level) : Prop := l ≠ .independent ∧ l.isDelayed = false

theorem Known.extend {l e m : Level} (hl : l.Known) (he : e.Known) (h : l.extend e = some m) :
    m.Known := by
  obtain ⟨hm, _, _, hcases⟩ := high_extend hl.1 he.1 h
  refine ⟨hm, ?_⟩
  rw [← Bool.not_eq_true, isDelayed_iff_high]
  have hl' : ¬ Weight.high l = Weight.highDelayed := by
    rw [← isDelayed_iff_high, hl.2]
    exact Bool.noConfusion
  have he' : ¬ Weight.high e = Weight.highDelayed := by
    rw [← isDelayed_iff_high, he.2]
    exact Bool.noConfusion
  omega

theorem Known.min {a b : Level} (ha : a.Known) (hb : b.Known) : (a.min b).Known := by
  refine ⟨min_ne_independent ha.1 hb.1, ?_⟩
  have hda := ha.2
  have hdb := hb.2
  cases a <;> cases b <;> simp_all [Level.min, rank, isDelayed]

end Level

namespace Graph

variable {g : Graph} {s v : Variable} {ls : List Level}

def Undelayed (g : Graph) : Prop := ∀ u v l, g.level? u v = some l → l.isDelayed = false

theorem Undelayed.statically (hno : g.Undelayed) (h : g.LeadsLightly s v ls) :
    g.LeadsStatically s v ls := by
  refine ⟨h.leads, fun l hl => (h.light l hl).resolve_right ?_⟩
  obtain ⟨u, w, hstored⟩ := h.leads.stored l hl
  rw [hno u w l hstored]
  exact Bool.noConfusion

/-- Static assignments lead to `v`, all paths of them have at least 1024 edges, and some
path has fewer than the weight of an assignment. -/
structure FarStatically (g : Graph) (s v : Variable) : Prop where
  far : ∀ ls, g.LeadsStatically s v ls → 1024 ≤ ls.length
  bounded : ∃ ls, g.LeadsStatically s v ls ∧ ls.length < 1048576

theorem FarStatically.size_gt (hg : g.WellFormed) (hs : g.contains s = true)
    (h : g.FarStatically s v) : 1024 < g.size := by
  obtain ⟨ls, hls, _⟩ := h.bounded
  obtain ⟨ks, hks, hlength⟩ := hls.exists_short hg hs
  have := h.far ks hks
  omega

end Graph

namespace Frame

variable {g : Graph} {i j : Fin (ofGraph g).nodes.size} {limit : Nat} {floor : Option Level}

theorem causes_of_undelayed (hno : g.Undelayed) {a : Nat × Causes}
    (ha : (Search.run .low limit (ofGraph g).edges i).best? j = some a) : a.2 = .none := by
  apply Search.run_states (P := fun c => c = .none) Pass.low_lawful rfl _ _ ha
  · intro c d u e he hc hext
    have hdelayed := hno _ _ _ (mem_edges_ofGraph.1 he)
    obtain ⟨k, l⟩ := e
    cases l
    case delayed => cases hdelayed
    all_goals exact (Option.some.inj hext).symm.trans hc
  · intro c d hc hd
    rw [hc, hd]
    rfl

theorem known_of_undelayed (hg : g.WellFormed) (hno : g.Undelayed) {a : Nat × Level}
    (ha : (Search.run .high limit (ofGraph g).edges i).best? j = some a) : a.2.Known := by
  apply Search.run_states (P := Level.Known) Pass.high_lawful ⟨Level.noConfusion, rfl⟩ _ _ ha
  · intro l m u e he hl hext
    have hstored := mem_edges_ofGraph.1 he
    exact hl.extend ⟨hg.ne_independent _ _ _ hstored, hno _ _ _ hstored⟩ hext
  · intro l m hl hm
    exact hl.min hm

theorem admits_static (floor : Option Level) {ls : List Level}
    (h : ∀ l ∈ ls, l = .staticallyAssigned) :
    Pass.low.Admits (floorLimit Weight.low floor) ls := by
  intro l hl
  rw [h l hl]
  cases floor with
  | none => exact Weight.low_le_top .staticallyAssigned
  | some f => exact Pass.low_lawful.weight_pos f

/-- The low pass is at a delay's distance just where static assignments lead far. -/
theorem delayDistance_iff (hg : g.WellFormed) (hno : g.Undelayed) (floor : Option Level) :
    (∃ a, ((ofGraph g).edges.lowSearch i floor).best? j = some a ∧
        Weight.isDelayDistance a.1 = true) ↔
      g.FarStatically ((ofGraph g).node i) ((ofGraph g).node j) := by
  have hadmits : ∀ ks, g.LeadsLightly ((ofGraph g).node i) ((ofGraph g).node j) ks →
      Pass.low.Admits (floorLimit Weight.low floor) ks :=
    fun ks hks => admits_static floor (hno.statically hks).static
  have hlength : ∀ {ks}, g.LeadsStatically ((ofGraph g).node i) ((ofGraph g).node j) ks →
      Pass.low.length ks = ks.length := fun hks => Level.low_length_static hks.static
  constructor
  · rintro ⟨⟨d, c⟩, hlow, hdelay⟩
    simp only [Weight.isDelayDistance, Bool.and_eq_true, decide_eq_true_eq] at hdelay
    have hfrom : 1024 ≤ d := hdelay.1
    have hto : d < Weight.lowAssigned := hdelay.2
    obtain ⟨ls, hleads, _, hls⟩ := leads_of_label Pass.low_lawful hlow
      (Nat.lt_trans hto (by decide))
    have hshort : Pass.low.length ls < Weight.lowAssigned := by rwa [hls]
    have hlight : g.LeadsLightly ((ofGraph g).node i) ((ofGraph g).node j) ls :=
      ⟨hleads, Level.light_of_low_length hshort⟩
    obtain ⟨d', c', hlow', _, hle, _⟩ := low_label_of_light hg hadmits hlight hshort
    have hd : d = d' := (Prod.mk.inj (Option.some.inj (hlow.symm.trans hlow'))).1
    constructor
    · intro ks hks
      have := hle ks hks.lightly
      rw [hlength hks] at this
      omega
    · refine ⟨ls, hno.statically hlight, ?_⟩
      rwa [← hlength (hno.statically hlight)]
  · intro h
    obtain ⟨ls, hls, hshort⟩ := h.bounded
    rw [← hlength hls] at hshort
    obtain ⟨d, c, hlow, hd, _, ks, hks, rfl⟩ := low_label_of_light hg hadmits hls.lightly hshort
    have hfar := h.far ks (hno.statically hks)
    rw [← hlength (hno.statically hks)] at hfar
    refine ⟨_, hlow, ?_⟩
    simp only [Weight.isDelayDistance, Bool.and_eq_true, decide_eq_true_eq]
    exact ⟨hfar, hd⟩

theorem levelAt?_delayed_iff (hg : g.WellFormed) (hno : g.Undelayed) {c : Causes} :
    (ofGraph g).edges.levelAt? i floor j = some (.delayed c) ↔
      c = .none ∧ g.FarStatically ((ofGraph g).node i) ((ofGraph g).node j) := by
  by_cases hj : j = i
  · rw [Adjacency.levelAt?, if_pos hj, hj]
    constructor
    · intro h
      cases h
    · intro h
      have := h.2.far [] ⟨Graph.leads_self g _, fun l hl => by cases hl⟩
      simp at this
  rw [Adjacency.levelAt?, if_neg hj, ← delayDistance_iff hg hno floor]
  cases hlow : ((ofGraph g).edges.lowSearch i floor).best? j with
  | none => simp [levelOfPasses?]
  | some a =>
    have hcauses : a.2 = .none := causes_of_undelayed hno hlow
    by_cases hdelay : Weight.isDelayDistance a.1 = true
    · have hlevel : levelOfPasses? (some a) (((ofGraph g).edges.highSearch i floor).best? j) =
          some (.delayed .none) := by
        simp [levelOfPasses?, hdelay, hcauses]
      rw [hlevel]
      constructor
      · intro h
        exact ⟨(Level.delayed.inj (Option.some.inj h)).symm, a, rfl, hdelay⟩
      · intro h
        rw [h.1]
    · cases hhigh : ((ofGraph g).edges.highSearch i floor).best? j with
      | none =>
        have hempty : Causes.none.isEmpty = true := rfl
        simp [levelOfPasses?, hdelay, hcauses, hempty]
      | some b =>
        have hknown : b.2 ≠ .delayed c := by
          intro h
          have := (known_of_undelayed hg hno hhigh).2
          rw [h] at this
          cases this
        simp [levelOfPasses?, hdelay, hknown]

end Frame

/-! Variables that are statically assigned one to the next. -/

namespace Chain

def link (k : Nat) : Variable := .ofName .local ("v" ++ toString k)

theorem link_injective : Function.Injective link := by
  intro j k h
  have hname : "v" ++ toString j = "v" ++ toString k := congrArg Variable.name h
  have hlist := congrArg String.toList hname
  rw [String.toList_append, String.toList_append] at hlist
  exact Text.toString_nat_injective (String.toList_inj.1 (List.append_cancel_left hlist))

def graph : Nat → Graph
  | 0 => .empty
  | n + 1 =>
    ((graph n).insertNode (link n)).insertEdge (link n) (link (n + 1)) .staticallyAssigned

theorem add_eq (n : Nat) (h : (graph n).frozen = false) :
    (graph n).add (link n) [(link (n + 1), .staticallyAssigned)] = .ok (graph (n + 1)) := by
  apply Graph.add_of_accepted h
  intro e he
  rw [List.mem_singleton.1 he]
  exact ⟨Level.noConfusion, rfl⟩

theorem frozen_eq (n : Nat) : (graph n).frozen = false := by
  induction n with
  | zero => rfl
  | succ n ih => rw [graph, Graph.frozen_insertEdge, Graph.frozen_insertNode, ih]

theorem built (n : Nat) : (graph n).Built := by
  induction n with
  | zero => exact .empty
  | succ n ih => exact .add ih (add_eq n (frozen_eq n))

theorem merge_static {o : Option Level} (h : ∀ l, o = some l → l = .staticallyAssigned) :
    o.merge Level.min (some .staticallyAssigned) = some .staticallyAssigned := by
  cases o with
  | none => rfl
  | some l =>
    rw [h l rfl]
    rfl

theorem level?_insertEdge_iff {g : Graph}
    (hg : ∀ a b l, g.level? a b = some l → l = .staticallyAssigned) {u v a b : Variable}
    (hu : u.isReturnValue = false) {l : Level} :
    (g.insertEdge u v .staticallyAssigned).level? a b = some l ↔
      l = .staticallyAssigned ∧ (a = u ∧ b = v ∨ a = v ∧ b = u) ∨ g.level? a b = some l := by
  have hjoined : ∀ a b, (g.joinEdge u v .staticallyAssigned).level? a b =
      if a = u ∧ b = v then some .staticallyAssigned else g.level? a b := by
    intro a b
    rw [Graph.level?_joinEdge, merge_static (hg u v)]
  have hwith : (g.levelWith u v .staticallyAssigned).reverse = .staticallyAssigned := by
    have hsome := g.some_levelWith u v .staticallyAssigned
    rw [merge_static (hg u v)] at hsome
    rw [Option.some.inj hsome]
    rfl
  have hstatic : ∀ l, (g.joinEdge u v .staticallyAssigned).level? v u = some l →
      l = .staticallyAssigned := by
    intro l hl
    rw [hjoined] at hl
    split_ifs at hl
    · exact (Option.some.inj hl).symm
    · exact hg v u l hl
  have hold := hg a b l
  rw [Graph.level?_insertEdge, hwith, merge_static hstatic, hjoined]
  by_cases hback : a = v ∧ b = u
  · rw [if_pos ⟨hu, hback⟩, Option.some.injEq, eq_comm]
    simp only [hback, and_self, or_true, and_true]
    exact ⟨.inl, fun h => h.elim id (hback.1 ▸ hback.2 ▸ hold)⟩
  · rw [if_neg fun h => hback h.2]
    by_cases hout : a = u ∧ b = v
    · rw [if_pos hout, Option.some.injEq, eq_comm]
      simp only [hout, and_self, true_or, and_true]
      exact ⟨.inl, fun h => h.elim id (hout.1 ▸ hout.2 ▸ hold)⟩
    · rw [if_neg hout]
      simp only [hback, hout, or_self, and_false, false_or]

theorem level?_iff {n : Nat} {a b : Variable} {l : Level} :
    (graph n).level? a b = some l ↔
      l = .staticallyAssigned ∧
        ∃ k < n, a = link k ∧ b = link (k + 1) ∨ a = link (k + 1) ∧ b = link k := by
  induction n generalizing a b l with
  | zero => simp [graph, Graph.level?_empty]
  | succ n ih =>
    have hstatic : ∀ a b l, ((graph n).insertNode (link n)).level? a b = some l →
        l = .staticallyAssigned := by
      intro a b l hl
      rw [Graph.level?_insertNode, ih] at hl
      exact hl.1
    rw [graph, level?_insertEdge_iff hstatic rfl, Graph.level?_insertNode, ih, ← and_or_left,
      Nat.exists_lt_succ_right, or_comm]

theorem undelayed (n : Nat) : (graph n).Undelayed := by
  intro u v l h
  rw [(level?_iff.1 h).1]
  rfl

theorem le_length {n : Nat} {v : Variable} {ls : List Level} (h : (graph n).Leads (link 0) v ls) :
    ∃ k, v = link k ∧ k ≤ ls.length := by
  induction h using Graph.Leads.induction with
  | start => exact ⟨0, rfl, Nat.le_refl 0⟩
  | step u v ls l _ hl ih =>
    obtain ⟨j, rfl, hj⟩ := ih
    obtain ⟨_, k, _, ⟨hu, rfl⟩ | ⟨hu, rfl⟩⟩ := level?_iff.1 hl
    · have := link_injective hu
      refine ⟨k + 1, rfl, ?_⟩
      rw [List.length_cons]
      omega
    · have := link_injective hu
      refine ⟨k, rfl, ?_⟩
      rw [List.length_cons]
      omega

theorem leads {n k : Nat} (hk : k ≤ n) :
    (graph n).Leads (link 0) (link k) (List.replicate k .staticallyAssigned) := by
  induction k with
  | zero => exact Graph.leads_self _ _
  | succ k ih =>
    rw [List.replicate_succ]
    apply (ih (by omega)).step
    exact level?_iff.2 ⟨rfl, k, hk, .inl ⟨rfl, rfl⟩⟩

theorem contains_first {n : Nat} (hn : 0 < n) : (graph n).contains (link 0) = true :=
  (built n).wellFormed.contains_source _ _ _ (level?_iff.2 ⟨rfl, 0, hn, .inl ⟨rfl, rfl⟩⟩)

theorem farStatically {n : Nat} (hn : 1024 ≤ n) (hn' : n < 1048576) :
    (graph n).FarStatically (link 0) (link n) where
  far ls hls := by
    obtain ⟨k, hk, hle⟩ := le_length hls.leads
    have := link_injective hk
    omega
  bounded := by
    refine ⟨_, ⟨leads (Nat.le_refl n), fun l hl => List.eq_of_mem_replicate hl⟩, ?_⟩
    rwa [List.length_replicate]

end Chain

/-- In a graph without delays, an entry is delayed just where static assignments lead but
no path of them has fewer than 1024 edges. -/
theorem delayed_entries_without_delays {g : Graph} (hg : g.Built) (hno : g.Undelayed)
    {s : Variable} (hs : g.contains s = true) (floor : Option Level) :
    ∃ row, (Frame.ofGraph g).links s floor = .ok row ∧
      (∀ v c, row.get? v = some (.delayed c) ↔ c = .none ∧ g.FarStatically s v) ∧
      (g.size ≤ 1024 → ∀ v c, row.get? v ≠ some (.delayed c)) := by
  have hwf := hg.wellFormed
  obtain ⟨i, row, rfl, hrow, hentry, hinside⟩ := Frame.exists_row hs floor
  have hiff : ∀ v c, row.get? v = some (.delayed c) ↔
      c = .none ∧ g.FarStatically ((Frame.ofGraph g).node i) v := by
    intro v c
    by_cases hv : g.contains v = true
    · obtain ⟨j, rfl⟩ := Frame.exists_node hv
      rw [hentry]
      exact Frame.levelAt?_delayed_iff hwf hno
    · constructor
      · intro h
        exact absurd (hinside v _ h) hv
      · intro h
        obtain ⟨ls, hls, _⟩ := h.2.bounded
        exact absurd (hls.leads.contains hwf hs) hv
  refine ⟨row, hrow, hiff, ?_⟩
  intro hsize v c h
  have := ((hiff v c).1 h).2.size_gt hwf hs
  omega

theorem delayed_entries_without_delays_chain :
    (Chain.graph 1024).Built ∧ (Chain.graph 1024).Undelayed ∧
      (Chain.graph 1024).contains (Chain.link 0) = true ∧
      ∃ row, (Frame.ofGraph (Chain.graph 1024)).links (Chain.link 0) (some .assigned) = .ok row ∧
        (∀ v c, row.get? v = some (.delayed c) ↔
          c = .none ∧ (Chain.graph 1024).FarStatically (Chain.link 0) v) ∧
        ((Chain.graph 1024).size ≤ 1024 → ∀ v c, row.get? v ≠ some (.delayed c)) := by
  have hbuilt := Chain.built 1024
  have hno := Chain.undelayed 1024
  have hfirst := Chain.contains_first (n := 1024) (by omega)
  exact ⟨hbuilt, hno, hfirst, delayed_entries_without_delays hbuilt hno hfirst _⟩

/-- A chain of 1024 static assignments ends in a delay. -/
theorem chain_ends_delayed :
    (Chain.graph 1024).Built ∧ (Chain.graph 1024).Undelayed ∧
      ∃ row, (Frame.ofGraph (Chain.graph 1024)).links (Chain.link 0) none = .ok row ∧
        row.get? (Chain.link 1024) = some (.delayed .none) := by
  have hfar := Chain.farStatically (Nat.le_refl 1024) (by omega)
  have hbuilt := Chain.built 1024
  have hfirst := Chain.contains_first (n := 1024) (by omega)
  refine ⟨hbuilt, Chain.undelayed 1024, ?_⟩
  obtain ⟨i, row, hi, hrow, hentry, _⟩ := Frame.exists_row hfirst none
  obtain ⟨ls, hls, _⟩ := hfar.bounded
  obtain ⟨j, hj⟩ := Frame.exists_node (hls.leads.contains hbuilt.wellFormed hfirst)
  refine ⟨row, hrow, ?_⟩
  rw [← hi, ← hj] at hfar
  rw [← hj, hentry]
  exact (Frame.levelAt?_delayed_iff hbuilt.wellFormed (Chain.undelayed 1024)).2 ⟨rfl, hfar⟩

end LinkClosure
