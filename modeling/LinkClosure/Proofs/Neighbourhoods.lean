import LinkClosure.Neighbourhood
import LinkClosure.Proofs.Merging
import Mathlib.Tactic.SplitIfs

/-!
# Merging neighbourhoods

Seen from one variable, a merge combines the levels of both sides, the other one
raised to the minimum first. Static assignment needs no case of its own, since
combining lets it absorb all else. So the laws of combining levels are laws of
merging: without a minimum it is a semilattice with the empty neighbourhood as
neutral and the marker as absorbing element. With a minimum the other side may
become weaker before it is combined, but nothing that the accumulator has ever
does, in one merge and in any number of them.
-/

set_option autoImplicit false

namespace LinkClosure

namespace Level

/-- To combine `a` with `b` changes nothing: `b` is part of what `a` says already. -/
def Covers (a b : Level) : Prop := a.min b = a

variable {a b c : Level}

theorem covers_refl (a : Level) : a.Covers a := min_self a

theorem Covers.trans (hab : a.Covers b) (hbc : b.Covers c) : a.Covers c := by
  rw [Covers] at hab hbc ⊢
  calc a.min c = (a.min b).min c := by rw [hab]
    _ = a.min (b.min c) := min_assoc a b c
    _ = a := by rw [hbc, hab]

theorem covers_min_left (a b : Level) : (a.min b).Covers a := by
  rw [Covers, min_comm, ← min_assoc, min_self]

theorem Covers.standing_le (h : a.Covers b) : a.standing ≤ b.standing := by
  have hmin := standing_min a b
  rw [h] at hmin
  exact hmin ▸ Nat.min_le_right _ _

theorem Covers.static (h : a.Covers staticallyAssigned) : a = staticallyAssigned := by
  rw [← h, min_comm, static_min]

theorem Covers.delayed {d : Causes} (h : a.Covers (.delayed d)) :
    a = staticallyAssigned ∨ ∃ e, a = .delayed e ∧ e.merge d = e := by
  cases a <;> simp_all [Covers, min]

end Level

namespace Neighbourhood

variable {a b : Neighbourhood} {m n r : SortedMap Variable Level} {minimum : Option Level}

theorem mergeLevels_eq (mine theirs : Level) : mergeLevels mine theirs = mine.min theirs := by
  rw [mergeLevels]
  by_cases hmine : mine = .staticallyAssigned
  · simp [hmine, Level.static_min]
  by_cases htheirs : theirs = .staticallyAssigned
  · simp [htheirs, Level.min_comm mine, Level.static_min]
  · simp [hmine, htheirs, Level.min_comm mine]

/-- Every level of the other side has a maximum with the minimum. -/
def Raisable (minimum : Option Level) : Neighbourhood → Prop
  | notYetSet => True
  | resolved n => ∀ v l, n.get? v = some l → ∃ k, raise minimum l = .ok k

theorem raisable_iff :
    (resolved n).Raisable minimum ↔ ∀ e ∈ n.entries, (raise minimum e.2).isOk = true := by
  have hok : ∀ x : Except Level.Clash Level, (∃ k, x = .ok k) ↔ x.isOk = true := by
    intro x
    cases x <;> simp [Except.isOk, Except.toBool]
  simp only [Raisable, ← SortedMap.mem_entries_iff, hok, Prod.forall]

instance (minimum : Option Level) : DecidablePred (Raisable minimum)
  | notYetSet => .isTrue trivial
  | resolved _ => decidable_of_iff _ raisable_iff.symm

def offered? (minimum : Option Level) (n : SortedMap Variable Level) (v : Variable) :
    Option Level :=
  (n.get? v).bind fun l => (raise minimum l).toOption

theorem mapM_raise {es : List (Variable × Level)}
    (h : ∀ e ∈ es, ∃ k, raise minimum e.2 = .ok k) :
    ∃ rs, es.mapM (fun e => (raise minimum e.2).map fun l => (e.1, l)) = .ok rs ∧
      rs.map Prod.fst = es.map Prod.fst ∧
      ∀ v, SortedMap.lookupIn v rs =
        (SortedMap.lookupIn v es).bind fun l => (raise minimum l).toOption := by
  induction es with
  | nil => exact ⟨[], rfl, rfl, fun _ => rfl⟩
  | cons e es ih =>
    obtain ⟨⟨k, hk⟩, hrest⟩ := List.forall_mem_cons.1 h
    obtain ⟨rs, hrs, hkeys, hlookup⟩ := ih hrest
    refine ⟨(e.1, k) :: rs, ?_, ?_, ?_⟩
    · rw [List.mapM_cons, hk, hrs]
      rfl
    · rw [List.map_cons, List.map_cons, hkeys]
    · intro v
      rw [SortedMap.lookupIn, SortedMap.lookupIn]
      split_ifs
      · rw [Option.bind_some, hk]
        rfl
      · exact hlookup v

theorem raise_of_mapM {es rs : List (Variable × Level)}
    (h : es.mapM (fun e => (raise minimum e.2).map fun l => (e.1, l)) = .ok rs) :
    ∀ e ∈ es, ∃ k, raise minimum e.2 = .ok k := by
  induction es generalizing rs with
  | nil => simp
  | cons e es ih =>
    rw [List.mapM_cons] at h
    cases hk : raise minimum e.2 with
    | error clash =>
      rw [hk] at h
      cases h
    | ok k =>
      rw [hk] at h
      cases hrest : es.mapM (fun e => (raise minimum e.2).map fun l => (e.1, l)) with
      | error clash =>
        rw [hrest] at h
        cases h
      | ok rs' => exact List.forall_mem_cons.2 ⟨⟨k, hk⟩, ih hrest⟩

theorem merge_resolved (h : (resolved n).Raisable minimum) (m : SortedMap Variable Level) :
    ∃ r, (resolved m).merge (resolved n) minimum = .ok (.resolved r) ∧
      ∀ v, r.get? v = (m.get? v).merge Level.min (offered? minimum n v) := by
  have hraise : ∀ e ∈ n.entries, ∃ k, raise minimum e.2 = .ok k :=
    fun e he => h e.1 e.2 (SortedMap.mem_entries_iff.1 he)
  obtain ⟨rs, hrs, hkeys, hlookup⟩ := mapM_raise hraise
  have hdistinct : rs.Pairwise fun x y => x.1 ≠ y.1 := by
    rw [← List.pairwise_map (f := Prod.fst) (R := fun x y => x ≠ y), hkeys]
    exact n.nodup_keys
  refine ⟨rs.foldl (fun acc e => acc.insertWith mergeLevels e.1 e.2) m, ?_, ?_⟩
  · rw [merge, hrs]
    rfl
  · intro v
    have hjoin : mergeLevels = Level.min := funext fun x => funext (mergeLevels_eq x)
    rw [SortedMap.get?_foldl_insertWith _ m v hdistinct, hlookup, hjoin]
    rfl

theorem raisable_of_merge (h : (resolved m).merge (resolved n) minimum = .ok b) :
    (resolved n).Raisable minimum := by
  intro v l hl
  cases hrs : n.entries.mapM (fun e => (raise minimum e.2).map fun l => (e.1, l)) with
  | error clash =>
    rw [merge, hrs] at h
    cases h
  | ok rs => exact raise_of_mapM hrs (v, l) (SortedMap.mem_entries_iff.2 hl)

theorem raisable_none (a : Neighbourhood) : a.Raisable none := by
  cases a with
  | notYetSet => trivial
  | resolved n => exact fun _ l _ => ⟨l, rfl⟩

theorem merge_none (m n : SortedMap Variable Level) :
    (resolved m).merge (resolved n) none = .ok (.resolved (m.unionWith Level.min n)) := by
  obtain ⟨r, hr, hget⟩ := merge_resolved (raisable_none (resolved n)) m
  have hunion : r = m.unionWith Level.min n := by
    apply SortedMap.ext_get?
    intro v
    have hoffered : offered? none n v = n.get? v := by
      rw [offered?]
      cases n.get? v <;> rfl
    rw [hget, hoffered, SortedMap.get?_unionWith]
  rw [hr, hunion]

theorem merge_notYetSet (a : Neighbourhood) (minimum : Option Level) :
    a.merge notYetSet minimum = .ok notYetSet := by
  cases a <;> rfl

theorem notYetSet_merge (a : Neighbourhood) (minimum : Option Level) :
    notYetSet.merge a minimum = .ok notYetSet := rfl

theorem merge_comm (a b : Neighbourhood) : a.merge b none = b.merge a none := by
  cases a with
  | notYetSet => rw [merge_notYetSet, notYetSet_merge]
  | resolved m =>
    cases b with
    | notYetSet => rw [merge_notYetSet, notYetSet_merge]
    | resolved n => rw [merge_none, merge_none, SortedMap.unionWith_comm Level.min_comm]

theorem merge_assoc (a b c : Neighbourhood) :
    ((a.merge b none).bind fun d => d.merge c none) =
      (b.merge c none).bind fun d => a.merge d none := by
  cases b with
  | notYetSet => cases a <;> cases c <;> rfl
  | resolved n =>
    cases a with
    | notYetSet =>
      cases c with
      | notYetSet => rfl
      | resolved o =>
        rw [merge_none]
        rfl
    | resolved m =>
      cases c with
      | notYetSet =>
        rw [merge_none]
        rfl
      | resolved o =>
        rw [merge_none, merge_none]
        simp only [Except.bind, merge_none, SortedMap.unionWith_assoc Level.min_assoc]

theorem merge_self (a : Neighbourhood) : a.merge a none = .ok a := by
  cases a with
  | notYetSet => rfl
  | resolved m => rw [merge_none, SortedMap.unionWith_self Level.min_self]

theorem empty_merge (a : Neighbourhood) : empty.merge a none = .ok a := by
  cases a with
  | notYetSet => rfl
  | resolved m => rw [empty, merge_none, SortedMap.empty_unionWith]

structure Merged (m n : SortedMap Variable Level) (minimum : Option Level)
    (r : SortedMap Variable Level) : Prop where
  keys : ∀ v, v ∈ r.keys ↔ v ∈ m.keys ∨ v ∈ n.keys
  covered : ∀ v l, m.get? v = some l → ∃ k, r.get? v = some k ∧ k.Covers l
  static : ∀ v, m.get? v = some .staticallyAssigned → r.get? v = some .staticallyAssigned
  causes : ∀ v c, m.get? v = some (.delayed c) →
    r.get? v = some .staticallyAssigned ∨ ∃ d, r.get? v = some (.delayed d) ∧ d.merge c = d
  raised : ∀ v l, v ∉ m.keys → n.get? v = some l →
    ∃ k, raise minimum l = .ok k ∧ r.get? v = some k

theorem covered_of_get? (hget : ∀ v, r.get? v = (m.get? v).merge Level.min (offered? minimum n v))
    {v : Variable} {l : Level} (hl : m.get? v = some l) : ∃ k, r.get? v = some k ∧ k.Covers l := by
  rw [hget, hl]
  cases offered? minimum n v with
  | none => exact ⟨l, rfl, l.covers_refl⟩
  | some o => exact ⟨l.min o, rfl, l.covers_min_left o⟩

theorem offered?_isSome (h : (resolved n).Raisable minimum) (v : Variable) :
    (offered? minimum n v).isSome ↔ v ∈ n.keys := by
  rw [SortedMap.mem_keys_iff, offered?]
  cases hl : n.get? v with
  | none => rfl
  | some l =>
    obtain ⟨k, hk⟩ := h v l hl
    rw [Option.bind_some, hk]
    rfl

theorem merged (h : (resolved n).Raisable minimum)
    (hget : ∀ v, r.get? v = (m.get? v).merge Level.min (offered? minimum n v)) :
    Merged m n minimum r where
  keys v := by
    rw [SortedMap.mem_keys_iff, SortedMap.mem_keys_iff, ← offered?_isSome h, hget]
    cases m.get? v <;> cases offered? minimum n v <;> simp
  covered v l hl := covered_of_get? hget hl
  static v hl := by
    obtain ⟨k, hk, hcovers⟩ := covered_of_get? hget hl
    rw [hk, hcovers.static]
  causes v c hl := by
    obtain ⟨k, hk, hcovers⟩ := covered_of_get? hget hl
    rw [hk]
    rcases hcovers.delayed with rfl | ⟨d, rfl, hd⟩
    · exact .inl rfl
    · exact .inr ⟨d, rfl, hd⟩
  raised v l hv hl := by
    obtain ⟨k, hk⟩ := h v l hl
    have hnone : m.get? v = none := by
      rwa [SortedMap.mem_keys_iff, Option.not_isSome_iff_eq_none] at hv
    refine ⟨k, hk, ?_⟩
    rw [hget, hnone, offered?, hl, Option.bind_some, hk]
    rfl

/-- No entry of `a` is lost in `b`, and none is weaker there, unless `b` is not known. -/
def KeptIn (a b : Neighbourhood) : Prop :=
  b = .notYetSet ∨
    ∃ m r, a = .resolved m ∧ b = .resolved r ∧
      ∀ v l, m.get? v = some l → ∃ k, r.get? v = some k ∧ k.Covers l ∧ k.standing ≤ l.standing

theorem keptIn_refl (a : Neighbourhood) : a.KeptIn a := by
  cases a with
  | notYetSet => exact .inl rfl
  | resolved m =>
    refine .inr ⟨m, m, rfl, rfl, ?_⟩
    intro v l hl
    exact ⟨l, hl, l.covers_refl, Nat.le_refl _⟩

theorem KeptIn.trans {a b c : Neighbourhood} (hab : a.KeptIn b) (hbc : b.KeptIn c) :
    a.KeptIn c := by
  rcases hbc with hc | ⟨n, r, rfl, rfl, hn⟩
  · exact .inl hc
  rcases hab with hb | ⟨m, n', rfl, hb, hm⟩
  · cases hb
  obtain rfl := resolved.inj hb
  refine .inr ⟨m, r, rfl, rfl, ?_⟩
  intro v l hl
  obtain ⟨k, hk, hkl, hle⟩ := hm v l hl
  obtain ⟨j, hj, hjk, hle'⟩ := hn v k hk
  exact ⟨j, hj, hjk.trans hkl, Nat.le_trans hle' hle⟩

theorem merge_keeps (h : b.Raisable minimum) (a : Neighbourhood) :
    ∃ r, a.merge b minimum = .ok r ∧ a.KeptIn r ∧
      (r = .notYetSet ↔ a = .notYetSet ∨ b = .notYetSet) := by
  cases a with
  | notYetSet => exact ⟨notYetSet, rfl, .inl rfl, by simp⟩
  | resolved m =>
    cases b with
    | notYetSet => exact ⟨notYetSet, rfl, .inl rfl, by simp⟩
    | resolved n =>
      obtain ⟨r, hr, hget⟩ := merge_resolved h m
      refine ⟨resolved r, hr, .inr ⟨m, r, rfl, rfl, ?_⟩, by simp⟩
      intro v l hl
      obtain ⟨k, hk, hcovers⟩ := covered_of_get? hget hl
      exact ⟨k, hk, hcovers, hcovers.standing_le⟩

def mergeAll (a : Neighbourhood) (others : List (Neighbourhood × Option Level)) :
    Except Level.Clash Neighbourhood :=
  others.foldlM (fun acc o => acc.merge o.1 o.2) a

theorem mergeAll_keeps {others : List (Neighbourhood × Option Level)}
    (h : ∀ o ∈ others, o.1.Raisable o.2) (a : Neighbourhood) :
    ∃ r, a.mergeAll others = .ok r ∧ a.KeptIn r ∧
      (r = .notYetSet ↔ a = .notYetSet ∨ ∃ o ∈ others, o.1 = .notYetSet) := by
  induction others generalizing a with
  | nil => exact ⟨a, rfl, keptIn_refl a, by simp⟩
  | cons o others ih =>
    obtain ⟨ho, hrest⟩ := List.forall_mem_cons.1 h
    obtain ⟨d, hd, hkept, hmarker⟩ := merge_keeps ho a
    obtain ⟨r, hr, hkept', hmarker'⟩ := ih hrest d
    refine ⟨r, ?_, hkept.trans hkept', ?_⟩
    · rw [mergeAll, List.foldlM_cons, hd]
      exact hr
    · simp only [hmarker', hmarker, List.mem_cons, exists_eq_or_imp, or_assoc]

theorem mergeAll_append (a : Neighbourhood) (others more : List (Neighbourhood × Option Level)) :
    a.mergeAll (others ++ more) = (a.mergeAll others).bind fun b => b.mergeAll more :=
  List.foldlM_append

end Neighbourhood

/-- Without a minimum, merging neighbourhoods is a semilattice. With one, it fails just where a
level of the other side cannot be raised, and otherwise raises what is new and covers
what the accumulator has. So from any moment of a row of merges to any later one, no
entry is lost or becomes weaker. -/
theorem merging_keeps_neighbourhoods :
    (∀ a b : Neighbourhood, a.merge b none = b.merge a none) ∧
      (∀ a b c : Neighbourhood,
        ((a.merge b none).bind fun d => d.merge c none) =
          (b.merge c none).bind fun d => a.merge d none) ∧
      (∀ a : Neighbourhood, a.merge a none = .ok a) ∧
      (∀ a : Neighbourhood,
        a.merge .empty none = .ok a ∧ Neighbourhood.empty.merge a none = .ok a) ∧
      (∀ (a : Neighbourhood) (minimum : Option Level),
        a.merge .notYetSet minimum = .ok .notYetSet ∧
          Neighbourhood.notYetSet.merge a minimum = .ok .notYetSet) ∧
      (∀ (m n : SortedMap Variable Level) (minimum : Option Level),
        ((∃ b, (Neighbourhood.resolved m).merge (.resolved n) minimum = .ok b) ↔
            (Neighbourhood.resolved n).Raisable minimum) ∧
          ((Neighbourhood.resolved n).Raisable minimum →
            ∃ r, (Neighbourhood.resolved m).merge (.resolved n) minimum = .ok (.resolved r) ∧
              Neighbourhood.Merged m n minimum r)) ∧
      ∀ (a : Neighbourhood) (others more : List (Neighbourhood × Option Level)),
        (∀ o ∈ others ++ more, o.1.Raisable o.2) →
          ∃ b c, a.mergeAll others = .ok b ∧ a.mergeAll (others ++ more) = .ok c ∧ b.KeptIn c ∧
            (c = .notYetSet ↔ a = .notYetSet ∨ ∃ o ∈ others ++ more, o.1 = .notYetSet) := by
  refine ⟨Neighbourhood.merge_comm, Neighbourhood.merge_assoc, Neighbourhood.merge_self, ?_, ?_, ?_,
    ?_⟩
  · intro a
    rw [Neighbourhood.merge_comm a, Neighbourhood.empty_merge]
    exact ⟨rfl, rfl⟩
  · intro a minimum
    exact ⟨Neighbourhood.merge_notYetSet a minimum, rfl⟩
  · intro m n minimum
    have hmerged : (Neighbourhood.resolved n).Raisable minimum →
        ∃ r, (Neighbourhood.resolved m).merge (.resolved n) minimum = .ok (.resolved r) ∧
          Neighbourhood.Merged m n minimum r := by
      intro h
      obtain ⟨r, hr, hget⟩ := Neighbourhood.merge_resolved h m
      exact ⟨r, hr, Neighbourhood.merged h hget⟩
    refine ⟨⟨?_, ?_⟩, hmerged⟩
    · rintro ⟨b, hb⟩
      exact Neighbourhood.raisable_of_merge hb
    · intro h
      obtain ⟨r, hr, _⟩ := hmerged h
      exact ⟨.resolved r, hr⟩
  · intro a others more h
    obtain ⟨b, hb, _, _⟩ := Neighbourhood.mergeAll_keeps
      (fun o ho => h o (List.mem_append_left more ho)) a
    obtain ⟨c, hc, hkept, _⟩ := Neighbourhood.mergeAll_keeps
      (fun o ho => h o (List.mem_append_right others ho)) b
    obtain ⟨c', hc', _, hmarker⟩ := Neighbourhood.mergeAll_keeps h a
    have hlater : a.mergeAll (others ++ more) = .ok c := by
      rw [Neighbourhood.mergeAll_append, hb]
      exact hc
    obtain rfl := Except.ok.inj (hlater.symm.trans hc')
    exact ⟨b, c, hb, hlater, hkept, hmarker⟩

namespace Caller

def list : Variable := ⟨"list", "list", .local⟩
def item : Variable := ⟨"item", "item", .local⟩

def start : Neighbourhood := .single list (.delayed (.single "loop"))

def earlier : List (Neighbourhood × Option Level) :=
  [(.single list (.delayed (.single "call")), none)]

def later : List (Neighbourhood × Option Level) :=
  [(.resolved (.ofList [(list, .assigned), (item, .staticallyAssigned)]), some (.dependent .empty))]

def hidden : Neighbourhood := .single item (.commonHidden (.single 0 1 false))

end Caller

theorem merging_keeps_neighbourhoods_caller :
    (∀ o ∈ Caller.earlier ++ Caller.later, o.1.Raisable o.2) ∧
      ∃ b c, Caller.start.mergeAll Caller.earlier = .ok b ∧
        Caller.start.mergeAll (Caller.earlier ++ Caller.later) = .ok c ∧ b.KeptIn c ∧
        (c = .notYetSet ↔ Caller.start = .notYetSet ∨
          ∃ o ∈ Caller.earlier ++ Caller.later, o.1 = .notYetSet) := by
  have hraisable : ∀ o ∈ Caller.earlier ++ Caller.later, o.1.Raisable o.2 := by decide
  obtain ⟨_, _, _, _, _, _, hrow⟩ := merging_keeps_neighbourhoods
  exact ⟨hraisable, hrow Caller.start Caller.earlier Caller.later hraisable⟩

/-- The causes are pooled, and the assignment does not replace them. -/
example : (Caller.start.mergeAll (Caller.earlier ++ Caller.later)).toOption =
    some (.resolved (.ofList [(Caller.list, .delayed (.ofList ["call", "loop"])),
      (Caller.item, .dependent .empty)])) := by
  decide

/-- Two ways of sharing hidden content have no maximum. -/
example : ¬ Caller.hidden.Raisable (some (.commonHidden (.single 0 2 false))) := by
  decide

end LinkClosure
