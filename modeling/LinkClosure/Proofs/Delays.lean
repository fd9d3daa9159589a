import LinkClosure.Proofs.Floors
import LinkClosure.Proofs.Search.Traits

/-!
# Where delays and static assignments stand in a row

Delays give way to static assignment and win over everything else. So a row
shows static assignment exactly where a path of static assignments leads, and a
delay wherever no such path but a path of static assignments and delays leads.
The causes that it shows are those on the paths with the fewest delays and,
among these, the fewest static assignments.

The passes know of lengths only. With at most 1024 variables a length in the
low pass below the weight of an assignment counts the static assignments and
the delays of a path separately, and to compare lengths is to compare delays
first.
-/

set_option autoImplicit false

namespace LinkClosure

namespace Level

def delays (ls : List Level) : Nat := ls.countP isDelayed

def statics (ls : List Level) : Nat := ls.count .staticallyAssigned

def Light (ls : List Level) : Prop := ∀ l ∈ ls, l = .staticallyAssigned ∨ l.isDelayed = true

theorem low_lt_assigned {l : Level} :
    Weight.low l < Weight.lowAssigned ↔ l = .staticallyAssigned ∨ l.isDelayed = true := by
  cases l <;> simp [Weight.low, Weight.lowStaticallyAssigned, Weight.lowDelayed,
    Weight.lowAssigned, Weight.lowDependent, Weight.lowCommonHidden, Distance.top, isDelayed]

theorem high_lt_assigned {l : Level} :
    Weight.high l < Weight.highAssigned ↔ l = .staticallyAssigned := by
  cases l <;> simp [Weight.high, Weight.highStaticallyAssigned, Weight.highDelayed,
    Weight.highAssigned, Weight.highDependent, Weight.highCommonHidden, Distance.top]

@[simp] theorem statics_static (ls : List Level) :
    statics (.staticallyAssigned :: ls) = statics ls + 1 := List.count_cons_self

@[simp] theorem statics_delayed (c : Causes) (ls : List Level) :
    statics (.delayed c :: ls) = statics ls := List.count_cons_of_ne (by simp)

@[simp] theorem delays_static (ls : List Level) :
    delays (.staticallyAssigned :: ls) = delays ls := List.countP_cons_of_neg (by simp [isDelayed])

@[simp] theorem delays_delayed (c : Causes) (ls : List Level) :
    delays (.delayed c :: ls) = delays ls + 1 := List.countP_cons_of_pos rfl

theorem Light.induction {motive : (ls : List Level) → Light ls → Prop}
    (nil : ∀ h, motive [] h)
    (static : ∀ ls h h', motive ls h → motive (.staticallyAssigned :: ls) h')
    (delayed : ∀ c ls h h', motive ls h → motive (.delayed c :: ls) h') {ls : List Level}
    (h : Light ls) : motive ls h := by
  induction ls with
  | nil => exact nil h
  | cons l ls ih =>
    obtain ⟨hl, hrest⟩ := List.forall_mem_cons.1 h
    rcases hl with rfl | hl
    · exact static ls hrest h (ih hrest)
    · cases l <;> simp only [isDelayed, Bool.false_eq_true] at hl
      exact delayed _ ls hrest h (ih hrest)

theorem Light.low_length {ls : List Level} (h : Light ls) :
    Pass.low.length ls = statics ls + 1024 * delays ls := by
  induction h using Light.induction with
  | nil => rfl
  | static ls _ _ ih =>
    have hweight : Pass.low.weight .staticallyAssigned = 1 := rfl
    rw [Pass.length_cons, hweight, ih, statics_static, delays_static]
    omega
  | delayed c ls _ _ ih =>
    have hweight : Pass.low.weight (.delayed c) = 1024 := rfl
    rw [Pass.length_cons, hweight, ih, statics_delayed, delays_delayed]
    omega

theorem Light.length_eq {ls : List Level} (h : Light ls) :
    ls.length = statics ls + delays ls := by
  induction h using Light.induction with
  | nil => rfl
  | static ls _ _ ih =>
    rw [List.length_cons, statics_static, delays_static]
    omega
  | delayed c ls _ _ ih =>
    rw [List.length_cons, statics_delayed, delays_delayed]
    omega

theorem Light.sublist {ks ls : List Level} (h : Light ls) (hsub : ks.Sublist ls) : Light ks :=
  fun l hl => h l (hsub.subset hl)

theorem Light.admits {ls : List Level} (h : Light ls) {limit : Nat}
    (hlimit : Weight.lowDelayed ≤ limit) : Pass.low.Admits limit ls := by
  induction h using Light.induction with
  | nil =>
    intro l hl
    cases hl
  | static ls _ _ ih => exact Pass.admits_cons.2 ⟨Nat.le_trans (by decide) hlimit, ih⟩
  | delayed c ls _ _ ih => exact Pass.admits_cons.2 ⟨hlimit, ih⟩

theorem low_length_static {ls : List Level} (h : ∀ l ∈ ls, l = .staticallyAssigned) :
    Pass.low.length ls = ls.length := by
  rw [List.eq_replicate_of_mem h]
  simp [Pass.length, Pass.low, Weight.low, Weight.lowStaticallyAssigned]

theorem high_length_static {ls : List Level} (h : ∀ l ∈ ls, l = .staticallyAssigned) :
    Pass.high.length ls = ls.length := by
  rw [List.eq_replicate_of_mem h]
  simp [Pass.length, Pass.high, Weight.high, Weight.highStaticallyAssigned]

theorem extend_static {l : Level} (h : l ≠ .independent) :
    ∃ m, l.extend .staticallyAssigned = some m := by
  cases l <;> simp_all [extend]

end Level

theorem Pass.weight_le_length {σ : Type} (p : Pass σ) {l : Level} {ls : List Level}
    (h : l ∈ ls) : p.weight l ≤ p.length ls :=
  List.le_sum_of_mem (List.mem_map_of_mem h)

theorem Level.light_of_low_length {ls : List Level}
    (h : Pass.low.length ls < Weight.lowAssigned) : Level.Light ls := by
  intro l hl
  exact Level.low_lt_assigned.1 (Nat.lt_of_le_of_lt (Pass.low.weight_le_length hl) h)

namespace Graph

variable {g : Graph} {s v : Variable} {ls : List Level} {d : Nat}

structure LeadsStatically (g : Graph) (s v : Variable) (ls : List Level) : Prop where
  leads : g.Leads s v ls
  static : ∀ l ∈ ls, l = .staticallyAssigned

structure LeadsLightly (g : Graph) (s v : Variable) (ls : List Level) : Prop where
  leads : g.Leads s v ls
  light : Level.Light ls

/-- Of these paths one with the fewest delays and, among those, the fewest static
assignments. -/
structure FewestDelays (g : Graph) (s v : Variable) (ls : List Level) : Prop where
  leads : g.LeadsLightly s v ls
  least : ∀ ks, g.LeadsLightly s v ks →
    Level.delays ls < Level.delays ks ∨
      Level.delays ls = Level.delays ks ∧ Level.statics ls ≤ Level.statics ks

theorem LeadsStatically.exists_short (hg : g.WellFormed) (hs : g.contains s = true)
    (h : g.LeadsStatically s v ls) : ∃ ks, g.LeadsStatically s v ks ∧ ks.length < g.size := by
  obtain ⟨ks, hleads, hsub, hlength⟩ := h.leads.exists_short hg hs
  exact ⟨ks, ⟨hleads, fun l hl => h.static l (hsub.subset hl)⟩, hlength⟩

theorem LeadsStatically.lightly (h : g.LeadsStatically s v ls) : g.LeadsLightly s v ls :=
  ⟨h.leads, fun l hl => .inl (h.static l hl)⟩

theorem LeadsLightly.lowDelayed_le (h : g.LeadsLightly s v ls)
    (hstatic : ¬ ∃ ks, g.LeadsStatically s v ks) : Weight.lowDelayed ≤ Pass.low.length ls := by
  by_contra hlt
  apply hstatic
  refine ⟨ls, h.leads, fun l hl => (h.light l hl).resolve_right fun hdelayed => hlt ?_⟩
  have hweight : Weight.low l ≤ Pass.low.length ls := Pass.low.weight_le_length hl
  cases l <;> simp only [Level.isDelayed, Bool.false_eq_true] at hdelayed
  exact hweight

/-- A path of static assignments and delays can be replaced by one that has no more of
either, and fewer than 1024 of both together. -/
theorem LeadsLightly.exists_short (hg : g.WellFormed) (hs : g.contains s = true)
    (hsize : g.size ≤ 1024) (h : g.LeadsLightly s v ls) :
    ∃ ks, g.LeadsLightly s v ks ∧ Level.delays ks ≤ Level.delays ls ∧
      Level.statics ks ≤ Level.statics ls ∧ Level.statics ks + Level.delays ks < 1024 := by
  obtain ⟨ks, hleads, hsub, hlength⟩ := h.leads.exists_short hg hs
  have hlight : Level.Light ks := h.light.sublist hsub
  refine ⟨ks, ⟨hleads, hlight⟩, hsub.countP_le, hsub.count_le _, ?_⟩
  rw [← hlight.length_eq]
  omega

theorem fewestDelays_iff (hg : g.WellFormed) (hs : g.contains s = true) (hsize : g.size ≤ 1024)
    (hle : ∀ ks, g.LeadsLightly s v ks → d ≤ Pass.low.length ks)
    (hattained : ∃ ks, g.LeadsLightly s v ks ∧ Pass.low.length ks = d) :
    g.FewestDelays s v ls ↔ g.LeadsLightly s v ls ∧ Pass.low.length ls = d := by
  have hcounts : ∀ ks, g.LeadsLightly s v ks →
      d ≤ Level.statics ks + 1024 * Level.delays ks := by
    intro ks hks
    rw [← hks.light.low_length]
    exact hle ks hks
  constructor
  · intro h
    refine ⟨h.leads, ?_⟩
    obtain ⟨ks, hks, rfl⟩ := hattained
    obtain ⟨ks', hks', hdelays, hstatics, hshort⟩ := hks.exists_short hg hs hsize
    obtain ⟨ls', hls', hdelays', hstatics', hshort'⟩ := h.leads.exists_short hg hs hsize
    have hleast := h.least ks' hks'
    have hself := h.least ls' hls'
    have hmin := hcounts ls h.leads
    rw [hks.light.low_length] at hmin ⊢
    rw [h.leads.light.low_length]
    omega
  · rintro ⟨hls, rfl⟩
    refine ⟨hls, fun ks hks => ?_⟩
    obtain ⟨ks', hks', hdelays, hstatics, hshort⟩ := hks.exists_short hg hs hsize
    obtain ⟨ls', hls', hdelays', hstatics', hshort'⟩ := hls.exists_short hg hs hsize
    have hmin := hcounts ks' hks'
    have hself := hcounts ls' hls'
    rw [hls.light.low_length] at hmin hself
    omega

end Graph

namespace Frame

variable {g : Graph} {i j : Fin (ofGraph g).nodes.size} {limit : Nat} {ls : List Level}
  {floor : Option Level}

theorem lowDelayed_le_floorLimit (h : floor ≠ some .staticallyAssigned) :
    Weight.lowDelayed ≤ floorLimit Weight.low floor := by
  cases floor with
  | none => decide
  | some f =>
    have hne : f ≠ .staticallyAssigned := fun hf => h (congrArg some hf)
    cases f <;> simp_all [floorLimit, Weight.low, Weight.lowDelayed, Weight.lowAssigned,
      Weight.lowDependent, Weight.lowCommonHidden, Distance.top]

theorem low_label_of_light (hg : g.WellFormed)
    (hadmits : ∀ ks, g.LeadsLightly ((ofGraph g).node i) ((ofGraph g).node j) ks →
      Pass.low.Admits limit ks)
    (h : g.LeadsLightly ((ofGraph g).node i) ((ofGraph g).node j) ls)
    (hshort : Pass.low.length ls < Weight.lowAssigned) :
    ∃ d c, (Search.run .low limit (ofGraph g).edges i).best? j = some (d, c) ∧
      d < Weight.lowAssigned ∧
      (∀ ks, g.LeadsLightly ((ofGraph g).node i) ((ofGraph g).node j) ks →
        d ≤ Pass.low.length ks) ∧
      ∃ ks, g.LeadsLightly ((ofGraph g).node i) ((ofGraph g).node j) ks ∧
        Pass.low.length ks = d := by
  have hlabel : ∀ ks, g.LeadsLightly ((ofGraph g).node i) ((ofGraph g).node j) ks →
      ∃ b, (Search.run .low limit (ofGraph g).edges i).best? j = some b ∧
        b.1 ≤ Pass.low.length ks := by
    intro ks hks
    obtain ⟨k, b, hk, hb, hle⟩ := label_of_leads hg Pass.low_lawful hks.leads
      (hadmits ks hks) fun _ b _ l _ => Causes.extend_accepts b.2 l
    obtain rfl := node_inj (distinct_ofGraph g) hk
    exact ⟨b, hb, hle⟩
  obtain ⟨⟨d, c⟩, hb, hle⟩ := hlabel ls h
  have hd : d < Weight.lowAssigned := Nat.lt_of_le_of_lt hle hshort
  refine ⟨d, c, hb, hd, ?_, ?_⟩
  · intro ks hks
    obtain ⟨b, hb', hle'⟩ := hlabel ks hks
    rwa [← Option.some.inj (hb.symm.trans hb')] at hle'
  · obtain ⟨ks, hleads, _, hlength⟩ := leads_of_label Pass.low_lawful hb
      (Nat.lt_trans hd (by decide))
    exact ⟨ks, ⟨hleads, Level.light_of_low_length (hlength ▸ hd)⟩, hlength⟩

theorem high_continues (hn : (ofGraph g).nodes.size ≤ 1024) (hproper : (ofGraph g).edges.Proper)
    {a : Nat × Level} (ha : ((ofGraph g).edges.highSearch i floor).best? j = some a) :
    ∃ m, a.2.extend .staticallyAssigned = some m := by
  apply Level.extend_static
  by_cases hj : j = i
  · rw [hj] at ha
    rw [← Option.some.inj ((Search.run_start Pass.high_lawful).symm.trans ha)]
    exact Level.noConfusion
  · exact (Search.run_high_telling hn hproper ha hj).proper

theorem leadsStatically_of_high (hg : g.WellFormed) (hsize : g.size ≤ 1024) (hj : j ≠ i) {d : Nat}
    (hd : ((ofGraph g).edges.highSearch i floor).best? j = some (d, .staticallyAssigned)) :
    ∃ ls, g.LeadsStatically ((ofGraph g).node i) ((ofGraph g).node j) ls := by
  have hn : (ofGraph g).nodes.size ≤ 1024 := by rwa [size_ofGraph hg]
  have hlt : d < Weight.highAssigned := (Search.run_high_telling hn (proper_ofGraph hg) hd hj).lt
  obtain ⟨ls, hleads, _, hlength⟩ := leads_of_label Pass.high_lawful hd
    (Nat.lt_trans hlt (by decide))
  refine ⟨ls, hleads, fun l hl => Level.high_lt_assigned.1 ?_⟩
  have hle : Weight.high l ≤ Pass.high.length ls := Pass.high.weight_le_length hl
  rw [hlength] at hle
  exact Nat.lt_of_le_of_lt hle hlt

theorem high_of_leadsStatically (hg : g.WellFormed) (hsize : g.size ≤ 1024)
    (floor : Option Level) (hj : j ≠ i)
    (h : g.LeadsStatically ((ofGraph g).node i) ((ofGraph g).node j) ls) :
    ∃ d, ((ofGraph g).edges.highSearch i floor).best? j = some (d, .staticallyAssigned) := by
  have hn : (ofGraph g).nodes.size ≤ 1024 := by rwa [size_ofGraph hg]
  have hproper := proper_ofGraph hg
  obtain ⟨ks, hks, hlength⟩ := h.exists_short hg (contains_node i)
  have hadmits : Pass.high.Admits (floorLimit Weight.high floor) ks := by
    intro l hl
    rw [hks.static l hl]
    cases floor with
    | none => exact Weight.high_le_top .staticallyAssigned
    | some f => exact Weight.high_pos f
  have haccepts : ∀ u b, ((ofGraph g).edges.highSearch i floor).best? u = some b →
      ∀ l ∈ ks, ∃ x, b.2.extend l = some x := by
    intro u b hb l hl
    rw [hks.static l hl]
    exact high_continues hn hproper hb
  obtain ⟨k, ⟨d, m⟩, hk, hb, hle⟩ := label_of_leads hg Pass.high_lawful hks.leads hadmits haccepts
  obtain rfl := node_inj (distinct_ofGraph g) hk
  have hm : m = .staticallyAssigned := by
    apply Level.high_lt_assigned.1
    have htelling := (Search.run_high_telling hn hproper hb hj).le
    rw [Level.high_length_static hks.static] at hle
    simp only [Weight.highAssigned] at hle htelling ⊢
    omega
  exact ⟨d, hm ▸ hb⟩

theorem levelAt?_static_iff (hg : g.WellFormed) (hsize : g.size ≤ 1024)
    (hfloor : floor ≠ some .staticallyAssigned) (hj : j ≠ i) :
    (ofGraph g).edges.levelAt? i floor j = some .staticallyAssigned ↔
      ∃ ls, g.LeadsStatically ((ofGraph g).node i) ((ofGraph g).node j) ls := by
  rw [Adjacency.levelAt?, if_neg hj, levelOfPasses?_eq_some rfl]
  constructor
  · rintro ⟨x, d, _, _, hhigh⟩
    exact leadsStatically_of_high hg hsize hj hhigh
  · rintro ⟨ls, hls⟩
    obtain ⟨d, hhigh⟩ := high_of_leadsStatically hg hsize floor hj hls
    obtain ⟨ks, hks, hlength⟩ := hls.exists_short hg (contains_node i)
    have hlen : Pass.low.length ks = ks.length := Level.low_length_static hks.static
    have hassigned : Pass.low.length ks < Weight.lowAssigned := by
      simp only [Weight.lowAssigned]
      omega
    obtain ⟨e, c, hlow, _, hle, _⟩ := low_label_of_light hg
      (fun _ h => h.light.admits (lowDelayed_le_floorLimit hfloor)) hks.lightly hassigned
    refine ⟨(e, c), d, hlow, ?_, hhigh⟩
    have hshort := hle ks hks.lightly
    have hsmall : ¬ Weight.lowDelayed ≤ e := by
      simp only [Weight.lowDelayed]
      omega
    simp [Weight.isDelayDistance, hsmall]

theorem mem_causes_iff_fewest (hg : g.WellFormed) (hsize : g.size ≤ 1024)
    (hlimit : Weight.lowDelayed ≤ limit) {d : Nat} {c : Causes}
    (hlow : (Search.run .low limit (ofGraph g).edges i).best? j = some (d, c))
    (hd : d < Weight.lowAssigned)
    (hle : ∀ ks, g.LeadsLightly ((ofGraph g).node i) ((ofGraph g).node j) ks →
      d ≤ Pass.low.length ks)
    (hattained : ∃ ks, g.LeadsLightly ((ofGraph g).node i) ((ofGraph g).node j) ks ∧
      Pass.low.length ks = d) (x : String) :
    x ∈ c.labels ↔
      ∃ ks, g.FewestDelays ((ofGraph g).node i) ((ofGraph g).node j) ks ∧ Causes.Along x ks := by
  have hn : (ofGraph g).nodes.size ≤ 1024 := by rwa [size_ofGraph hg]
  have hfit := Search.fits_any_limit Pass.low_graded hn (proper_ofGraph hg) limit
  rw [mem_causes hg hfit hlow]
  simp only [Graph.fewestDelays_iff hg (contains_node i) hsize hle hattained]
  constructor
  · rintro ⟨ks, hleads, _, rfl, halong⟩
    exact ⟨ks, ⟨⟨hleads, Level.light_of_low_length hd⟩, rfl⟩, halong⟩
  · rintro ⟨ks, ⟨hks, rfl⟩, halong⟩
    exact ⟨ks, hks.leads, hks.light.admits hlimit, rfl, halong⟩

/-- Where only a detour by delays leads, a row shows the causes of the paths with the
fewest delays. -/
theorem levelAt?_delayed (hg : g.WellFormed) (hsize : g.size ≤ 1024)
    (hfloor : floor ≠ some .staticallyAssigned) (hj : j ≠ i)
    (hstatic : ¬ ∃ ks, g.LeadsStatically ((ofGraph g).node i) ((ofGraph g).node j) ks)
    (h : g.LeadsLightly ((ofGraph g).node i) ((ofGraph g).node j) ls) :
    ∃ c, (ofGraph g).edges.levelAt? i floor j = some (.delayed c) ∧
      ∀ x, x ∈ c.labels ↔
        ∃ ks, g.FewestDelays ((ofGraph g).node i) ((ofGraph g).node j) ks ∧
          Causes.Along x ks := by
  have hlimit := lowDelayed_le_floorLimit hfloor
  obtain ⟨ks₀, hks₀, _, _, hfew⟩ := h.exists_short hg (contains_node i) hsize
  have hshort : Pass.low.length ks₀ < Weight.lowAssigned := by
    rw [hks₀.light.low_length]
    simp only [Weight.lowAssigned]
    omega
  obtain ⟨d, c, hlow, hd, hle, ks, hks, hlength⟩ :=
    low_label_of_light hg (fun _ h => h.light.admits hlimit) hks₀ hshort
  have hdelay : Weight.lowDelayed ≤ d := by
    rw [← hlength]
    exact hks.lowDelayed_le hstatic
  refine ⟨c, ?_, mem_causes_iff_fewest hg hsize hlimit hlow hd hle ⟨ks, hks, hlength⟩⟩
  rw [Adjacency.levelAt?, if_neg hj, Adjacency.lowSearch, hlow]
  simp [levelOfPasses?, Weight.isDelayDistance, hdelay, hd]

end Frame

/-- Static assignments and delays have their exact place in every row, with any floor
but static assignment. -/
theorem static_and_delayed_entries {g : Graph} (hg : g.Built) (hsize : g.size ≤ 1024)
    {s : Variable} (hs : g.contains s = true) {floor : Option Level}
    (hfloor : floor ≠ some .staticallyAssigned) :
    ∃ row, (Frame.ofGraph g).links s floor = .ok row ∧
      ∀ v, v ≠ s →
        (row.get? v = some .staticallyAssigned ↔ ∃ ls, g.LeadsStatically s v ls) ∧
          ((¬ ∃ ls, g.LeadsStatically s v ls) → (∃ ls, g.LeadsLightly s v ls) →
            ∃ c, row.get? v = some (.delayed c) ∧
              ∀ x, x ∈ c.labels ↔ ∃ ls, g.FewestDelays s v ls ∧ Causes.Along x ls) := by
  have hwf := hg.wellFormed
  obtain ⟨i, row, rfl, hrow, hentry, hinside⟩ := Frame.exists_row hs floor
  refine ⟨row, hrow, fun v hv => ?_⟩
  by_cases hcontains : g.contains v = true
  · obtain ⟨j, rfl⟩ := Frame.exists_node hcontains
    have hne : j ≠ i := fun h => hv (h ▸ rfl)
    rw [hentry]
    constructor
    · exact Frame.levelAt?_static_iff hwf hsize hfloor hne
    · rintro hstatic ⟨ls, hls⟩
      exact Frame.levelAt?_delayed hwf hsize hfloor hne hstatic hls
  · constructor
    · constructor
      · intro h
        exact absurd (hinside v _ h) hcontains
      · rintro ⟨ls, hls⟩
        exact absurd (hls.leads.contains hwf hs) hcontains
    · rintro _ ⟨ls, hls⟩
      exact absurd (hls.leads.contains hwf hs) hcontains

namespace Relay

def origin : Variable := ⟨"origin", "origin", .local⟩
def left : Variable := ⟨"left", "left", .local⟩
def right : Variable := ⟨"right", "right", .local⟩
def goal : Variable := ⟨"goal", "goal", .local⟩

def additions : List (Variable × List (Variable × Level)) :=
  [(origin, [(left, .staticallyAssigned), (right, .staticallyAssigned)]),
    (left, [(goal, .delayed (.single "body"))]),
    (right, [(goal, .delayed (.single "type"))]),
    (goal, [(⟨"far", "far", .field⟩, .delayed (.single "far")), (origin, .assigned)]),
    (⟨"far", "far", .field⟩, [(origin, .delayed (.single "other"))])]

def graph : Graph := (Graph.ofAdditions additions).toOption.getD .empty

theorem ofAdditions_eq : Graph.ofAdditions additions = .ok graph := rfl

end Relay

theorem static_and_delayed_entries_relay :
    Relay.graph.Built ∧ Relay.graph.size ≤ 1024 ∧ Relay.graph.contains Relay.origin = true ∧
      ∃ row, (Frame.ofGraph Relay.graph).links Relay.origin (some .assigned) = .ok row ∧
        ∀ v, v ≠ Relay.origin →
          (row.get? v = some .staticallyAssigned ↔
              ∃ ls, Relay.graph.LeadsStatically Relay.origin v ls) ∧
            ((¬ ∃ ls, Relay.graph.LeadsStatically Relay.origin v ls) →
              (∃ ls, Relay.graph.LeadsLightly Relay.origin v ls) →
              ∃ c, row.get? v = some (.delayed c) ∧
                ∀ x, x ∈ c.labels ↔
                  ∃ ls, Relay.graph.FewestDelays Relay.origin v ls ∧ Causes.Along x ls) := by
  have hbuilt : Relay.graph.Built := .of_additions Relay.ofAdditions_eq
  have hsize : Relay.graph.size ≤ 1024 := by decide
  have hcontains : Relay.graph.contains Relay.origin = true := by decide
  exact ⟨hbuilt, hsize, hcontains,
    static_and_delayed_entries hbuilt hsize hcontains (by decide)⟩

example : ((Frame.ofGraph Relay.graph).links Relay.origin (some .assigned)).toOption.bind
    (·.get? Relay.goal) = some (.delayed (.ofList ["body", "type"])) := by decide +kernel

end LinkClosure
