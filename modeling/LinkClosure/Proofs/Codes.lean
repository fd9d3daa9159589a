import LinkClosure.Graph.Frame
import LinkClosure.Proofs.Coordinates
import LinkClosure.Proofs.Text.Separated

/-!
# What a code tells

The code of a level is a letter for all delays, the bare rank for a level without
links, and the label of its linkage for any other. In a label the dash ends the
sources and the rank, but it is a minus sign as well. It is one only at the
beginning of a position, and there no end is expected: sets have members, members
have positions. So a code tells the rank and the links of a level, and the areas
where one of them is concrete.
-/

set_option autoImplicit false

namespace LinkClosure

open Text

namespace Position

def markers : List (Int × Char) :=
  [(everywhere, '*'), (unspecified, '?'), (unmodified, 'X'), (fields, 'F')]

theorem markers_inj : ∀ x ∈ markers, ∀ y ∈ markers, x.2 = y.2 → x.1 = y.1 := by decide

theorem markers_ne_number : ∀ x ∈ markers, isIntChar x.2 = false := by decide

theorem render_cases (p : Int) :
    (∃ c, (p, c) ∈ markers ∧ (render p).toList = [c]) ∨ render p = toString p := by
  unfold render
  split_ifs with h1 h2 h3 h4
  · exact .inl ⟨'*', by simp [markers, h1], rfl⟩
  · exact .inl ⟨'?', by simp [markers, h2], rfl⟩
  · exact .inl ⟨'X', by simp [markers, h3], rfl⟩
  · exact .inl ⟨'F', by simp [markers, h4], rfl⟩
  · exact .inr rfl

theorem marker_ne_number {p q : Int} {c : Char} (hc : (p, c) ∈ markers) (rest rest' : List Char) :
    c :: rest ≠ (toString q).toList ++ rest' := by
  intro h
  cases hq : (toString q).toList with
  | nil => exact toString_int_ne_nil q hq
  | cons d ds =>
    rw [hq] at h
    obtain rfl : c = d := (List.cons.inj h).1
    have hd : isIntChar c = true := isIntChar_of_mem_toString (hq ▸ List.mem_cons_self)
    rw [markers_ne_number _ hc] at hd
    cases hd

theorem legible_render : Legible (fun c => c.isDigit = false) render := by
  intro p q rest rest' hrest hrest' h
  rcases render_cases p with ⟨c, hc, hp⟩ | hp <;> rcases render_cases q with ⟨d, hd, hq⟩ | hq <;>
    rw [hp, hq] at h
  · obtain ⟨hcd, hrests⟩ := List.cons.inj h
    exact ⟨markers_inj _ hc _ hd hcd, hrests⟩
  · exact absurd h (marker_ne_number hc rest rest')
  · exact absurd h.symm (marker_ne_number hd rest' rest)
  · exact legible_int p q rest rest' hrest hrest' h

end Position

theorem Coordinate.legible_render :
    LegibleOn (fun c : Coordinate => c.segments ≠ []) (fun d => d.isDigit = false ∧ d ≠ '.')
      render := by
  have hsegments := (Position.legible_render.on fun _ => True).separated
    (rfl : ".".toList = ['.']) (by decide)
  have hinj : Function.Injective Coordinate.segments := by
    rintro ⟨a⟩ ⟨b⟩ rfl
    rfl
  exact hsegments.comap hinj fun c hc => ⟨hc, fun _ _ => trivial⟩

def CoordinateSet.Stop (d : Char) : Prop := (d.isDigit = false ∧ d ≠ '.') ∧ d ≠ ';'

instance : DecidablePred CoordinateSet.Stop := fun d =>
  inferInstanceAs (Decidable ((d.isDigit = false ∧ d ≠ '.') ∧ d ≠ ';'))

theorem CoordinateSet.legible_render : LegibleOn Filled Stop render := by
  have hmembers := Coordinate.legible_render.separated (rfl : ";".toList = [';']) (by decide)
  have hinj : Function.Injective CoordinateSet.toList := by
    rintro ⟨a⟩ ⟨b⟩ h
    exact congrArg CoordinateSet.mk (SortedSet.toList_inj.1 h)
  exact hmembers.comap hinj fun s hs => ⟨hs.nonempty, hs.paths⟩

namespace Linkage

variable {m n : Linkage} {r s : Int}

def markedEnd (x : CoordinateSet × Bool) : String := x.1.render ++ if x.2 then "M" else ""

def sourceEnds (m : Linkage) : List (CoordinateSet × Bool) :=
  m.entries.map fun e => (e.1, e.2.isMutable)

def targetEnds (m : Linkage) : List (CoordinateSet × Bool) :=
  m.entries.map fun e => (e.2.target, e.2.isMutable)

/-- What may follow the ends of a linkage. -/
def Stop (d : Char) : Prop := (CoordinateSet.Stop d ∧ d ≠ 'M') ∧ d ≠ ','

instance : DecidablePred Stop := fun d =>
  inferInstanceAs (Decidable ((CoordinateSet.Stop d ∧ d ≠ 'M') ∧ d ≠ ','))

theorem legible_ends :
    LegibleOn (fun xs : List (CoordinateSet × Bool) => xs ≠ [] ∧ ∀ x ∈ xs, x.1.Filled) Stop
      fun xs => ",".intercalate (xs.map markedEnd) := by
  have hmarked := CoordinateSet.legible_render.marked (rfl : "M".toList = ['M']) (by decide)
  exact hmarked.separated (rfl : ",".toList = [',']) (by decide)

theorem entries_eq_of_ends (hsources : m.sourceEnds = n.sourceEnds)
    (htargets : m.targetEnds = n.targetEnds) : m.entries = n.entries := by
  have hinj : ∀ e f : CoordinateSet × Link,
      ((e.1, e.2.isMutable), (e.2.target, e.2.isMutable)) =
        ((f.1, f.2.isMutable), (f.2.target, f.2.isMutable)) → e = f := by
    rintro ⟨k, t, a⟩ ⟨k', t', a'⟩ h
    simp_all
  have hzip : ∀ k : Linkage, k.sourceEnds.zip k.targetEnds =
      k.entries.map fun e => ((e.1, e.2.isMutable), (e.2.target, e.2.isMutable)) :=
    fun _ => List.zip_map'
  apply (List.map_inj_right hinj).1
  rw [← hzip, ← hzip, hsources, htargets]

def hasConcreteArea (m : Linkage) : Bool := m.sourceArea.isConcrete || m.targetArea.isConcrete

def areas (m : Linkage) : CoordinateSet × CoordinateSet := (m.sourceArea, m.targetArea)

def areaSuffix (m : Linkage) : String :=
  if m.hasConcreteArea then "|" ++ m.sourceArea.render ++ "-" ++ m.targetArea.render else ""

theorem label_eq (r : Int) (m : Linkage) :
    m.label r = ",".intercalate (m.sourceEnds.map markedEnd) ++ "-" ++ toString r ++ "-" ++
      ",".intercalate (m.targetEnds.map markedEnd) ++ m.areaSuffix := by
  rw [sourceEnds, targetEnds, List.map_map, List.map_map]
  rfl

theorem toList_label (r : Int) (m : Linkage) :
    (m.label r).toList = (",".intercalate (m.sourceEnds.map markedEnd)).toList ++
      '-' :: ((toString r).toList ++
        '-' :: ((",".intercalate (m.targetEnds.map markedEnd)).toList ++ m.areaSuffix.toList)) := by
  rw [label_eq]
  simp

theorem filled_sourceEnds (hm : m.Over CoordinateSet.Filled) (hlinks : m.entries ≠ []) :
    m.sourceEnds ≠ [] ∧ ∀ x ∈ m.sourceEnds, x.1.Filled := by
  constructor
  · simpa [sourceEnds] using hlinks
  · intro x hx
    obtain ⟨e, he, rfl⟩ := List.mem_map.1 hx
    exact (hm.links e he).1

theorem filled_targetEnds (hm : m.Over CoordinateSet.Filled) (hlinks : m.entries ≠ []) :
    m.targetEnds ≠ [] ∧ ∀ x ∈ m.targetEnds, x.1.Filled := by
  constructor
  · simpa [targetEnds] using hlinks
  · intro x hx
    obtain ⟨e, he, rfl⟩ := List.mem_map.1 hx
    exact (hm.links e he).2

theorem toList_areaSuffix (h : m.hasConcreteArea = true) :
    m.areaSuffix.toList =
      '|' :: (m.sourceArea.render.toList ++ '-' :: m.targetArea.render.toList) := by
  simp [areaSuffix, h]

theorem ends_areaSuffix (m : Linkage) : Ends Stop m.areaSuffix.toList := by
  cases h : m.hasConcreteArea with
  | false =>
    rw [areaSuffix, h]
    exact ends_nil
  | true =>
    rw [toList_areaSuffix h]
    exact ends_cons (by decide)

theorem label_eq_iff (hm : m.Over CoordinateSet.Filled) (hn : n.Over CoordinateSet.Filled)
    (hmlinks : m.entries ≠ []) (hnlinks : n.entries ≠ []) :
    m.label r = n.label s ↔ r = s ∧ m.entries = n.entries ∧ m.areaSuffix = n.areaSuffix := by
  have hdash : Stop '-' := by decide
  constructor
  · intro h
    have htext := congrArg String.toList h
    rw [toList_label, toList_label] at htext
    obtain ⟨hsources, htext⟩ := legible_ends _ _ _ _ (filled_sourceEnds hm hmlinks)
      (filled_sourceEnds hn hnlinks) (ends_cons hdash) (ends_cons hdash) htext
    obtain ⟨hrank, htext⟩ := legible_int r s _ _ (ends_cons (by decide)) (ends_cons (by decide))
      (List.cons.inj htext).2
    obtain ⟨htargets, hareas⟩ := legible_ends _ _ _ _ (filled_targetEnds hm hmlinks)
      (filled_targetEnds hn hnlinks) (ends_areaSuffix m) (ends_areaSuffix n)
      (List.cons.inj htext).2
    exact ⟨hrank, entries_eq_of_ends hsources htargets, String.toList_inj.1 hareas⟩
  · rintro ⟨rfl, hentries, hareas⟩
    rw [label_eq, label_eq, hareas, sourceEnds, targetEnds, hentries]
    rfl

theorem hasConcreteArea_eq_of_suffix (h : m.areaSuffix = n.areaSuffix) :
    m.hasConcreteArea = n.hasConcreteArea := by
  have hshown : ∀ k : Linkage, k.hasConcreteArea = decide (k.areaSuffix ≠ "") := by
    intro k
    cases hk : k.hasConcreteArea with
    | false => simp [areaSuffix, hk]
    | true =>
      have hne : k.areaSuffix ≠ "" := by
        intro hempty
        have htext := toList_areaSuffix hk
        rw [hempty] at htext
        cases htext
      simp [hne]
  rw [hshown, hshown, h]

theorem areaSuffix_eq_iff (hm : m.Over CoordinateSet.Filled) (hn : n.Over CoordinateSet.Filled) :
    m.areaSuffix = n.areaSuffix ↔
      (m.hasConcreteArea = true ∨ n.hasConcreteArea = true → m.areas = n.areas) := by
  constructor
  · intro h hconcrete
    rw [hasConcreteArea_eq_of_suffix h, or_self] at hconcrete
    have hdash : CoordinateSet.Stop '-' := by decide
    have htext := congrArg String.toList h
    rw [toList_areaSuffix hconcrete,
      toList_areaSuffix ((hasConcreteArea_eq_of_suffix h).trans hconcrete)] at htext
    obtain ⟨hsource, hrest⟩ := CoordinateSet.legible_render _ _ _ _ hm.source hn.source
      (ends_cons hdash) (ends_cons hdash) (List.cons.inj htext).2
    have htarget := CoordinateSet.legible_render.inj hm.target hn.target
      (String.toList_inj.1 (List.cons.inj hrest).2)
    exact Prod.ext hsource htarget
  · intro h
    by_cases hconcrete : m.hasConcreteArea = true ∨ n.hasConcreteArea = true
    · obtain ⟨hsource, htarget⟩ := Prod.mk.inj (h hconcrete)
      have hshown : m.hasConcreteArea = n.hasConcreteArea := by
        rw [hasConcreteArea, hasConcreteArea, hsource, htarget]
      rw [areaSuffix, areaSuffix, hshown, hsource, htarget]
    · rw [not_or] at hconcrete
      rw [areaSuffix, areaSuffix, if_neg hconcrete.1, if_neg hconcrete.2]

end Linkage

def isLabelChar (c : Char) : Bool := isIntChar c || "*?XF.;,M|".toList.contains c

theorem Position.isLabelChar_render (p : Int) : ∀ c ∈ (render p).toList, isLabelChar c = true := by
  have hmarkers : ∀ x ∈ markers, isLabelChar x.2 = true := by decide
  intro c hc
  rcases render_cases p with ⟨d, hd, hp⟩ | hp <;> rw [hp] at hc
  · rw [List.mem_singleton.1 hc]
    exact hmarkers _ hd
  · rw [isLabelChar, isIntChar_of_mem_toString hc, Bool.true_or]

theorem CoordinateSet.isLabelChar_render (s : CoordinateSet) :
    ∀ c ∈ s.render.toList, isLabelChar c = true := by
  refine forall_mem_intercalate (rfl : ";".toList = [';']) (by decide) fun t ht => ?_
  obtain ⟨x, _, rfl⟩ := List.mem_map.1 ht
  refine forall_mem_intercalate (rfl : ".".toList = ['.']) (by decide) fun u hu => ?_
  obtain ⟨p, _, rfl⟩ := List.mem_map.1 hu
  exact Position.isLabelChar_render p

namespace Linkage

theorem isLabelChar_ends (xs : List (CoordinateSet × Bool)) :
    ∀ c ∈ (",".intercalate (xs.map markedEnd)).toList, isLabelChar c = true := by
  have hmark : ∀ b : Bool, ∀ c ∈ (if b then "M" else "").toList, isLabelChar c = true := by
    intro b c hc
    cases b with
    | false => simp at hc
    | true =>
      obtain rfl : c = 'M' := by simpa using hc
      rfl
  refine forall_mem_intercalate (rfl : ",".toList = [',']) (by decide) fun t ht => ?_
  obtain ⟨x, _, rfl⟩ := List.mem_map.1 ht
  rw [markedEnd, String.toList_append]
  exact List.forall_mem_append.2 ⟨x.1.isLabelChar_render, hmark x.2⟩

theorem isLabelChar_areaSuffix (m : Linkage) :
    ∀ c ∈ m.areaSuffix.toList, isLabelChar c = true := by
  cases h : m.hasConcreteArea with
  | false =>
    rw [areaSuffix, h]
    simp
  | true =>
    rw [toList_areaSuffix h]
    refine List.forall_mem_cons.2 ⟨by decide, List.forall_mem_append.2 ⟨?_, ?_⟩⟩
    · exact m.sourceArea.isLabelChar_render
    · exact List.forall_mem_cons.2 ⟨by decide, m.targetArea.isLabelChar_render⟩

theorem isLabelChar_label (r : Int) (m : Linkage) :
    ∀ c ∈ (m.label r).toList, isLabelChar c = true := by
  have hrank : ∀ c ∈ (toString r).toList, isLabelChar c = true := by
    intro c hc
    rw [isLabelChar, isIntChar_of_mem_toString hc, Bool.true_or]
  rw [toList_label]
  refine List.forall_mem_append.2 ⟨isLabelChar_ends _, List.forall_mem_cons.2 ⟨by decide, ?_⟩⟩
  refine List.forall_mem_append.2 ⟨hrank, List.forall_mem_cons.2 ⟨by decide, ?_⟩⟩
  exact List.forall_mem_append.2 ⟨isLabelChar_ends _, m.isLabelChar_areaSuffix⟩

end Linkage

namespace Level

variable {l m : Level}

def entries (l : Level) : List (CoordinateSet × Link) := (l.linkage?.map Linkage.entries).getD []

def hasConcreteArea (l : Level) : Bool := l.linkage?.any Linkage.hasConcreteArea

def areas? (l : Level) : Option (CoordinateSet × CoordinateSet) := l.linkage?.map Linkage.areas

/-- Two levels that are abridged to the same code: delays, or levels of one rank with the
same links and, where there are links and a concrete area, with the same areas. -/
def Similar (l m : Level) : Prop :=
  (l.isDelayed = true ∧ m.isDelayed = true) ∨
    (l.rank = m.rank ∧ l.entries = m.entries ∧
      (l.entries ≠ [] → l.hasConcreteArea = true ∨ m.hasConcreteArea = true →
        l.areas? = m.areas?))

theorem hasLinks_iff : l.hasLinks = true ↔ l.entries ≠ [] := by
  cases l <;> simp [hasLinks, entries, linkage?, Linkage.isEmpty, Linkage.entries, SortedMap.isEmpty]

theorem isDelayed_iff_rank : l.isDelayed = true ↔ l.rank = -1 := by
  cases l <;> simp [isDelayed, rank]

theorem code_of_delayed (h : l.isDelayed = true) : Frame.code l = "D" := by
  rw [Frame.code, if_pos h]

theorem code_of_bare (h : l.isDelayed = false) (hlinks : l.entries = []) :
    Frame.code l = toString l.rank := by
  have hno : ¬ l.hasLinks = true := by
    rw [hasLinks_iff]
    exact not_not_intro hlinks
  rw [Frame.code, h, renderShort, if_neg hno]
  rfl

theorem code_of_links (hlinks : l.entries ≠ []) :
    ∃ k, l.linkage? = some k ∧ Frame.code l = k.label l.rank := by
  have hhas := hasLinks_iff.2 hlinks
  cases l with
  | dependent k =>
    have hk : k.isEmpty = false := by simpa [hasLinks, linkage?] using hhas
    exact ⟨k, rfl, by simp [Frame.code, isDelayed, renderShort, hhas, render, linkage?, hk]⟩
  | commonHidden k =>
    have hk : k.isEmpty = false := by simpa [hasLinks, linkage?] using hhas
    exact ⟨k, rfl, by simp [Frame.code, isDelayed, renderShort, hhas, render, linkage?, hk]⟩
  | _ => exact absurd rfl hlinks

theorem isLabelChar_code (h : l.isDelayed = false) :
    ∀ c ∈ (Frame.code l).toList, isLabelChar c = true := by
  by_cases hlinks : l.entries = []
  · rw [code_of_bare h hlinks]
    intro c hc
    rw [isLabelChar, isIntChar_of_mem_toString hc, Bool.true_or]
  · obtain ⟨k, _, hcode⟩ := code_of_links hlinks
    rw [hcode]
    exact k.isLabelChar_label l.rank

theorem notMem_code (l : Level) : ':' ∉ (Frame.code l).toList ∧ ')' ∉ (Frame.code l).toList := by
  cases h : l.isDelayed with
  | true =>
    rw [code_of_delayed h]
    decide
  | false =>
    have hlabel := isLabelChar_code h
    exact ⟨fun hc => absurd (hlabel _ hc) (by decide), fun hc => absurd (hlabel _ hc) (by decide)⟩

theorem isDelayed_iff_code : l.isDelayed = true ↔ 'D' ∈ (Frame.code l).toList := by
  cases h : l.isDelayed with
  | true =>
    rw [code_of_delayed h]
    decide
  | false =>
    refine ⟨Bool.noConfusion, fun hc => ?_⟩
    exact absurd (isLabelChar_code h _ hc) (by decide)

theorem hasLinks_iff_code (h : l.isDelayed = false) :
    l.entries ≠ [] ↔ '-' ∈ (Frame.code l).toList := by
  by_cases hlinks : l.entries = []
  · rw [code_of_bare h hlinks]
    cases l <;> simp_all [rank, isDelayed] <;> decide
  · obtain ⟨k, _, hcode⟩ := code_of_links hlinks
    rw [hcode, Linkage.toList_label]
    simp [hlinks]

theorem code_eq_iff_of_links (hl : l.Over CoordinateSet.Filled) (hm : m.Over CoordinateSet.Filled)
    (hlinks : l.entries ≠ []) (hlinks' : m.entries ≠ []) :
    Frame.code l = Frame.code m ↔ l.rank = m.rank ∧ l.entries = m.entries ∧
      (l.hasConcreteArea = true ∨ m.hasConcreteArea = true → l.areas? = m.areas?) := by
  obtain ⟨k, hk, hcode⟩ := code_of_links hlinks
  obtain ⟨n, hn, hcode'⟩ := code_of_links hlinks'
  simp only [entries, hasConcreteArea, areas?, hk, hn, Option.map_some, Option.getD_some,
    Option.any_some, Option.some.injEq] at hlinks hlinks' ⊢
  rw [hcode, hcode', Linkage.label_eq_iff (hl k hk) (hm n hn) hlinks hlinks',
    Linkage.areaSuffix_eq_iff (hl k hk) (hm n hn)]

theorem code_eq_iff_of_known (hl : l.Over CoordinateSet.Filled) (hm : m.Over CoordinateSet.Filled)
    (hdl : l.isDelayed = false) (hdm : m.isDelayed = false) :
    Frame.code l = Frame.code m ↔ l.rank = m.rank ∧ l.entries = m.entries ∧
      (l.entries ≠ [] → l.hasConcreteArea = true ∨ m.hasConcreteArea = true →
        l.areas? = m.areas?) := by
  by_cases hlinks : l.entries = [] <;> by_cases hlinks' : m.entries = []
  · rw [code_of_bare hdl hlinks, code_of_bare hdm hlinks']
    constructor
    · intro h
      exact ⟨legible_int.injective h, hlinks.trans hlinks'.symm, fun hne => absurd hlinks hne⟩
    · rintro ⟨hrank, _⟩
      rw [hrank]
  · constructor
    · intro h
      rw [← Ne, hasLinks_iff_code hdm, ← h, ← hasLinks_iff_code hdl] at hlinks'
      exact absurd hlinks hlinks'
    · rintro ⟨_, hentries, _⟩
      exact absurd (hentries ▸ hlinks) hlinks'
  · constructor
    · intro h
      rw [← Ne, hasLinks_iff_code hdl, h, ← hasLinks_iff_code hdm] at hlinks
      exact absurd hlinks' hlinks
    · rintro ⟨_, hentries, _⟩
      exact absurd (hentries ▸ hlinks') hlinks
  · rw [code_eq_iff_of_links hl hm hlinks hlinks']
    simp only [ne_eq, hlinks, not_false_eq_true, true_implies]

theorem code_eq_iff (hl : l.Over CoordinateSet.Filled) (hm : m.Over CoordinateSet.Filled) :
    Frame.code l = Frame.code m ↔ l.Similar m := by
  constructor
  · intro h
    have hdelayed : l.isDelayed = m.isDelayed := by
      rw [Bool.eq_iff_iff, isDelayed_iff_code, isDelayed_iff_code, h]
    cases hdm : m.isDelayed with
    | true => exact .inl ⟨hdelayed.trans hdm, hdm⟩
    | false => exact .inr ((code_eq_iff_of_known hl hm (hdelayed.trans hdm) hdm).1 h)
  · rintro (⟨hdl, hdm⟩ | h)
    · rw [code_of_delayed hdl, code_of_delayed hdm]
    · have hdelayed : l.isDelayed = m.isDelayed := by
        rw [Bool.eq_iff_iff, isDelayed_iff_rank, isDelayed_iff_rank, h.1]
      cases hdm : m.isDelayed with
      | true => rw [code_of_delayed (hdelayed.trans hdm), code_of_delayed hdm]
      | false => exact (code_eq_iff_of_known hl hm (hdelayed.trans hdm) hdm).2 h

end Level

end LinkClosure
