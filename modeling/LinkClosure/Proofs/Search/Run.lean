import LinkClosure.Proofs.Search.Join
import Mathlib

/-!
# One round of the search, and all of them

A round settles the nearest node that is not settled and offers its
continuations to the others; nothing that was settled before changes. Since
every round settles a node, no node is left over at the end. What a round
preserves holds at the end of the run.
-/

set_option autoImplicit false

namespace LinkClosure

/-- How a path with state `x` goes on to `v` over the edges `es`; `reach` gives the
length after an edge of some weight. -/
def Pass.offers {σ : Type} {n : Nat} (p : Pass σ) (limit : Nat) (es : List (Fin n × Level))
    (v : Fin n) (reach : Nat → Nat) (x : σ) : List (Nat × σ) :=
  es.filterMap fun e =>
    if e.1 = v ∧ p.weight e.2 ≤ limit then
      (p.extend x e.2).map fun y => (reach (p.weight e.2), y)
    else none

namespace Pass

variable {σ : Type} {n : Nat} {p : Pass σ} {limit : Nat} {es : List (Fin n × Level)}
  {e : Fin n × Level} {v : Fin n} {reach : Nat → Nat} {x : σ}

theorem mem_offers {a : Nat × σ} :
    a ∈ p.offers limit es v reach x ↔
      ∃ l, (v, l) ∈ es ∧ p.weight l ≤ limit ∧ p.extend x l = some a.2 ∧
        a.1 = reach (p.weight l) := by
  simp only [offers, List.mem_filterMap]
  constructor
  · rintro ⟨e, he, h⟩
    split_ifs at h with hcond
    obtain ⟨rfl, hlimit⟩ := hcond
    obtain ⟨y, hy, rfl⟩ := Option.map_eq_some_iff.1 h
    exact ⟨e.2, he, hlimit, hy, rfl⟩
  · rintro ⟨l, hl, hlimit, hext, hlen⟩
    refine ⟨(v, l), hl, ?_⟩
    rw [if_pos ⟨rfl, hlimit⟩, hext, Option.map_some, ← hlen]

theorem offers_cons (e : Fin n × Level) (es : List (Fin n × Level)) :
    p.offers limit (e :: es) v reach x =
      p.offers limit [e] v reach x ++ p.offers limit es v reach x :=
  List.filterMap_append (l := [e])

theorem offers_reverse_perm :
    (p.offers limit es.reverse v reach x).Perm (p.offers limit es v reach x) :=
  (List.reverse_perm es).filterMap _

theorem offers_refused (h : e.1 = v → p.weight e.2 ≤ limit → p.extend x e.2 = none) :
    p.offers limit [e] v reach x = [] := by
  refine List.eq_nil_iff_forall_not_mem.2 fun a ha => ?_
  obtain ⟨l, hl, hlimit, hext, _⟩ := mem_offers.1 ha
  obtain rfl : (v, l) = e := List.mem_singleton.1 hl
  rw [h rfl hlimit] at hext
  cases hext

theorem offers_single {y : σ} (hlimit : p.weight e.2 ≤ limit) (hext : p.extend x e.2 = some y) :
    p.offers limit [e] e.1 reach x = [(reach (p.weight e.2), y)] := by
  simp [offers, hlimit, hext]

theorem offers_congr {reach' : Nat → Nat}
    (h : ∀ l, (v, l) ∈ es → p.weight l ≤ limit → reach (p.weight l) = reach' (p.weight l)) :
    p.offers limit es v reach x = p.offers limit es v reach' x := by
  refine List.filterMap_congr fun e he => ?_
  split_ifs with hcond
  · rw [h e.2 (hcond.1 ▸ he) hcond.2]
  · rfl

end Pass

namespace Search

variable {σ : Type} {n : Nat} {p : Pass σ} {limit : Nat} {edges : Adjacency n}

theorem best?_eq (s : Search σ n) (v : Fin n) :
    s.best? v = (s.labels.get v).map fun l => (l.distance, l.state) := rfl

theorem isSettled_eq (s : Search σ n) (v : Fin n) :
    s.isSettled v = (s.labels.get v).any NodeLabel.settled := rfl

theorem labels_setLabel (s : Search σ n) (v w : Fin n) (l : NodeLabel σ) :
    (s.setLabel v l).labels.get w = if w = v then some l else s.labels.get w := by
  change (s.labels.set v (some l))[w.val] = if w = v then some l else s.labels[w.val]
  rw [Vector.getElem_set]
  simp only [Fin.val_inj, eq_comm]

theorem best?_setLabel (s : Search σ n) (v w : Fin n) (l : NodeLabel σ) :
    (s.setLabel v l).best? w = if w = v then some (l.distance, l.state) else s.best? w := by
  simp only [best?_eq, labels_setLabel]
  split_ifs <;> rfl

theorem isSettled_setLabel (s : Search σ n) (v w : Fin n) (l : NodeLabel σ) :
    (s.setLabel v l).isSettled w = if w = v then l.settled else s.isSettled w := by
  simp only [isSettled_eq, labels_setLabel]
  split_ifs <;> rfl

theorem best?_isSome_of_isSettled {s : Search σ n} {v : Fin n} (h : s.isSettled v = true) :
    ∃ a, s.best? v = some a := by
  simp only [isSettled_eq, best?_eq] at h ⊢
  cases hl : s.labels.get v with
  | none => simp [hl] at h
  | some l => exact ⟨_, rfl⟩

theorem best?_of_label {s : Search σ n} {v : Fin n} {l : NodeLabel σ}
    (h : s.labels.get v = some l) : s.best? v = some (l.distance, l.state) := by
  rw [best?_eq, h, Option.map_some]

theorem best?_of_no_label {s : Search σ n} {v : Fin n} (h : s.labels.get v = none) :
    s.best? v = none := by
  rw [best?_eq, h, Option.map_none]

theorem best?_offer (s : Search σ n) (v w : Fin n) (d : Nat) (x : σ) :
    (s.offer p v d x).best? w =
      if w = v then (s.best? v).merge p.join (some (d, x)) else s.best? w := by
  unfold offer
  split
  · next hl => rw [best?_setLabel, best?_of_no_label hl, Option.merge_none_left]
  · next l hl =>
    rw [best?_of_label hl, Option.merge_some_some]
    by_cases heq : d = l.distance
    · rw [if_pos heq, best?_setLabel, p.join_of_eq _ (d, x) heq.symm]
    by_cases hlt : d < l.distance
    · rw [if_neg heq, if_pos hlt, best?_setLabel, p.join_of_gt _ (d, x) hlt]
    · have hgt : l.distance < d := by omega
      rw [if_neg heq, if_neg hlt, p.join_of_lt _ (d, x) hgt]
      split_ifs with hw
      · rw [hw, best?_of_label hl]
      · rfl

theorem isSettled_setLabel_of_unsettled {s : Search σ n} {v : Fin n} {l : NodeLabel σ}
    (hv : s.isSettled v = false) (hl : l.settled = false) (w : Fin n) :
    (s.setLabel v l).isSettled w = s.isSettled w := by
  rw [isSettled_setLabel]
  split_ifs with hw
  · rw [hw, hv, hl]
  · rfl

theorem isSettled_offer {s : Search σ n} {v : Fin n} (hv : s.isSettled v = false) (w : Fin n)
    (d : Nat) (x : σ) : (s.offer p v d x).isSettled w = s.isSettled w := by
  unfold offer
  split
  · exact isSettled_setLabel_of_unsettled hv rfl w
  · next l hl =>
    have hl' : l.settled = false := by rwa [isSettled, hl, Option.any_some] at hv
    split_ifs with heq hlt
    · exact isSettled_setLabel_of_unsettled hv (by exact hl') w
    · exact isSettled_setLabel_of_unsettled hv rfl w
    · rfl

theorem isSettled_walk (s : Search σ n) (u w : Fin n) (l : NodeLabel σ) (e : Fin n × Level) :
    (walk p limit u l s e).isSettled w = s.isSettled w := by
  unfold walk
  split
  · rfl
  · next h =>
    simp only [Bool.or_eq_true, decide_eq_true_eq, not_or, Bool.not_eq_true] at h
    split
    · rfl
    · exact isSettled_offer h.2 w _ _

theorem best?_walk (s : Search σ n) (u : Fin n) {w : Fin n} (l : NodeLabel σ)
    (e : Fin n × Level) (hw : s.isSettled w = false) :
    (walk p limit u l s e).best? w =
      (s.best? w).merge p.join
        (p.joinAll (p.offers limit [e] w (Distance.add l.distance) l.state)) := by
  unfold walk
  split
  · next h =>
    have hnone : p.offers limit [e] w (Distance.add l.distance) l.state = [] := by
      refine Pass.offers_refused fun he hlimit => ?_
      rw [he, hw, Bool.or_false, decide_eq_true_eq] at h
      omega
    rw [hnone, Pass.joinAll_nil, Option.merge_none_right]
  · next h =>
    simp only [Bool.or_eq_true, decide_eq_true_eq, not_or, Nat.not_lt] at h
    split
    · next hext =>
      rw [Pass.offers_refused fun _ _ => hext, Pass.joinAll_nil, Option.merge_none_right]
      rfl
    · next x hext =>
      rw [best?_offer]
      split_ifs with he
      · rw [he, Pass.offers_single h.1 hext]
        rfl
      · rw [Pass.offers_refused fun hwe => absurd hwe.symm he, Pass.joinAll_nil,
          Option.merge_none_right]

theorem best?_walk_settled (s : Search σ n) (u : Fin n) {w : Fin n} (l : NodeLabel σ)
    (e : Fin n × Level) (hw : s.isSettled w = true) :
    (walk p limit u l s e).best? w = s.best? w := by
  unfold walk
  split
  · rfl
  · next h =>
    simp only [Bool.or_eq_true, decide_eq_true_eq, not_or] at h
    split
    · rfl
    · rw [best?_offer, if_neg]
      rintro rfl
      exact h.2 hw

theorem isSettled_walks (es : List (Fin n × Level)) (s : Search σ n) (u w : Fin n)
    (l : NodeLabel σ) : (es.foldl (walk p limit u l) s).isSettled w = s.isSettled w := by
  induction es generalizing s with
  | nil => rfl
  | cons e es ih => rw [List.foldl_cons, ih, isSettled_walk]

theorem best?_walks (hp : p.Lawful) (es : List (Fin n × Level)) (s : Search σ n) (u : Fin n)
    {w : Fin n} (l : NodeLabel σ) (hw : s.isSettled w = false) :
    (es.foldl (walk p limit u l) s).best? w =
      (s.best? w).merge p.join
        (p.joinAll (p.offers limit es w (Distance.add l.distance) l.state)) := by
  induction es generalizing s with
  | nil => rw [List.foldl_nil, Pass.offers, List.filterMap_nil, Pass.joinAll_nil,
      Option.merge_none_right]
  | cons e es ih =>
    rw [List.foldl_cons, ih _ (by rwa [isSettled_walk]), best?_walk s u l e hw,
      Pass.offers_cons e es, hp.joinAll_append, hp.merge_join_assoc]

theorem best?_walks_settled (es : List (Fin n × Level)) (s : Search σ n) (u : Fin n)
    {w : Fin n} (l : NodeLabel σ) (hw : s.isSettled w = true) :
    (es.foldl (walk p limit u l) s).best? w = s.best? w := by
  induction es generalizing s with
  | nil => rfl
  | cons e es ih =>
    rw [List.foldl_cons, ih _ (by rwa [isSettled_walk]), best?_walk_settled s u l e hw]

def waiting (s : Search σ n) : List (Fin n × NodeLabel σ) :=
  (List.finRange n).filterMap fun i => ((s.labels.get i).filter (!·.settled)).map fun l => (i, l)

theorem mem_waiting {s : Search σ n} {c : Fin n × NodeLabel σ} :
    c ∈ s.waiting ↔ s.labels.get c.1 = some c.2 ∧ c.2.settled = false := by
  simp only [waiting, List.mem_filterMap, List.mem_finRange, true_and, Option.map_eq_some_iff,
    Option.filter_eq_some_iff, Bool.not_eq_true']
  constructor
  · rintro ⟨i, l, h, rfl⟩
    exact h
  · intro h
    exact ⟨c.1, c.2, h, rfl⟩

theorem nearest?_eq_foldl (s : Search σ n) : s.nearest? = s.waiting.foldl nearer none := by
  rw [nearest?, waiting, List.foldl_filterMap]
  congr 1
  funext best i
  have hget : s.labels[i] = s.labels.get i := rfl
  rw [hget]
  cases s.labels.get i with
  | none => rfl
  | some l => cases hl : l.settled <;> simp [Option.filter, hl]

theorem foldl_nearer_none {cs : List (Fin n × NodeLabel σ)} {best : Option (Fin n × NodeLabel σ)}
    (h : cs.foldl nearer best = none) : best = none ∧ cs = [] := by
  induction cs generalizing best with
  | nil => exact ⟨h, rfl⟩
  | cons c cs ih =>
    have hnearer := (ih h).1
    cases best with
    | none => cases hnearer
    | some b =>
      simp only [nearer] at hnearer
      split_ifs at hnearer

theorem foldl_nearer_some {cs : List (Fin n × NodeLabel σ)} {best : Option (Fin n × NodeLabel σ)}
    {u : Fin n × NodeLabel σ} (h : cs.foldl nearer best = some u) :
    (best = some u ∨ u ∈ cs) ∧ (∀ b, best = some b → u.2.distance ≤ b.2.distance) ∧
      ∀ c ∈ cs, u.2.distance ≤ c.2.distance := by
  induction cs generalizing best with
  | nil =>
    obtain rfl : best = some u := h
    refine ⟨.inl rfl, fun b hb => ?_, by simp⟩
    rw [Option.some.inj hb]
  | cons c cs ih =>
    obtain ⟨hmem, hbest, hrest⟩ := ih h
    cases best with
    | none =>
      have hc : u.2.distance ≤ c.2.distance := hbest c rfl
      refine ⟨.inr ?_, by simp, List.forall_mem_cons.2 ⟨hc, hrest⟩⟩
      rcases hmem with hmem | hmem
      · exact List.mem_cons.2 (.inl (Option.some.inj hmem).symm)
      · exact List.mem_cons_of_mem c hmem
    | some b =>
      simp only [nearer] at hmem hbest
      split_ifs at hmem hbest with hlt
      · have hc : u.2.distance ≤ c.2.distance := hbest c rfl
        refine ⟨.inr ?_, ?_, List.forall_mem_cons.2 ⟨hc, hrest⟩⟩
        · rcases hmem with hmem | hmem
          · exact List.mem_cons.2 (.inl (Option.some.inj hmem).symm)
          · exact List.mem_cons_of_mem c hmem
        · intro b' hb'
          rw [← Option.some.inj hb']
          omega
      · have hb : u.2.distance ≤ b.2.distance := hbest b rfl
        refine ⟨hmem.imp id (List.mem_cons_of_mem c), ?_, List.forall_mem_cons.2 ⟨by omega, hrest⟩⟩
        intro b' hb'
        rwa [← Option.some.inj hb']

theorem label_of_unsettled {s : Search σ n} {v : Fin n} {a : Nat × σ}
    (hv : s.isSettled v = false) (ha : s.best? v = some a) :
    ∃ l : NodeLabel σ, (v, l) ∈ s.waiting ∧ l.distance = a.1 := by
  rw [best?, Option.map_eq_some_iff] at ha
  obtain ⟨l, hl, rfl⟩ := ha
  rw [isSettled, hl, Option.any_some] at hv
  exact ⟨l, mem_waiting.2 ⟨hl, hv⟩, rfl⟩

theorem settled_of_nearest?_none {s : Search σ n} (h : s.nearest? = none) {v : Fin n}
    {a : Nat × σ} (ha : s.best? v = some a) : s.isSettled v = true := by
  rw [nearest?_eq_foldl] at h
  have hnil := (foldl_nearer_none h).2
  cases hv : s.isSettled v with
  | true => rfl
  | false =>
    obtain ⟨l, hl, _⟩ := label_of_unsettled hv ha
    rw [hnil] at hl
    cases hl

structure Nearest (s : Search σ n) (u : Fin n) (l : NodeLabel σ) : Prop where
  label : s.labels.get u = some l
  unsettled : s.isSettled u = false
  least : ∀ v a, s.isSettled v = false → s.best? v = some a → l.distance ≤ a.1

theorem nearest_of_nearest? {s : Search σ n} {u : Fin n} {l : NodeLabel σ}
    (h : s.nearest? = some (u, l)) : s.Nearest u l := by
  rw [nearest?_eq_foldl] at h
  obtain ⟨hmem, _, hleast⟩ := foldl_nearer_some h
  have hu : (u, l) ∈ s.waiting := hmem.resolve_left (by simp)
  obtain ⟨hlabel, hsettled⟩ := mem_waiting.1 hu
  refine ⟨hlabel, ?_, ?_⟩
  · rwa [isSettled_eq, hlabel, Option.any_some]
  · intro v a hv ha
    obtain ⟨l', hl', hdist⟩ := label_of_unsettled hv ha
    rw [← hdist]
    exact hleast (v, l') hl'

theorem Nearest.best? {s : Search σ n} {u : Fin n} {l : NodeLabel σ} (h : s.Nearest u l) :
    s.best? u = some (l.distance, l.state) := best?_of_label h.label

theorem settle_of_nearest?_none {s : Search σ n} (h : s.nearest? = none) :
    s.settle p limit edges = s := by
  rw [settle, h]

theorem settle_eq {s : Search σ n} {u : Fin n} {l : NodeLabel σ} (h : s.nearest? = some (u, l)) :
    s.settle p limit edges =
      (edges.get u).reverse.foldl (walk p limit u l) (s.setLabel u { l with settled := true }) := by
  rw [settle, h]
  rfl

theorem isSettled_settle {s : Search σ n} {u : Fin n} {l : NodeLabel σ}
    (h : s.nearest? = some (u, l)) (w : Fin n) :
    (s.settle p limit edges).isSettled w = (decide (w = u) || s.isSettled w) := by
  rw [settle_eq h, isSettled_walks, isSettled_setLabel]
  by_cases hw : w = u <;> simp [hw]

theorem best?_settle_of_settled {s : Search σ n} {u : Fin n} {l : NodeLabel σ}
    (h : s.nearest? = some (u, l)) {w : Fin n} (hw : w = u ∨ s.isSettled w = true) :
    (s.settle p limit edges).best? w = s.best? w := by
  rw [settle_eq h, best?_walks_settled, best?_setLabel]
  · split_ifs with hwu
    · rw [hwu, (nearest_of_nearest? h).best?]
    · rfl
  · rw [isSettled_setLabel]
    split_ifs with hwu
    · rfl
    · exact hw.resolve_left hwu

/-- A round offers the continuations of the nearest node to all that are not settled. -/
theorem best?_settle (hp : p.Lawful) {s : Search σ n} {u : Fin n} {l : NodeLabel σ}
    (h : s.nearest? = some (u, l)) {w : Fin n} (hwu : w ≠ u) (hw : s.isSettled w = false) :
    (s.settle p limit edges).best? w =
      (s.best? w).merge p.join
        (p.joinAll (p.offers limit (edges.get u) w (Distance.add l.distance) l.state)) := by
  have hset : (s.setLabel u { l with settled := true }).isSettled w = false := by
    rwa [isSettled_setLabel, if_neg hwu]
  rw [settle_eq h, best?_walks hp _ _ _ _ hset, best?_setLabel, if_neg hwu,
    hp.joinAll_perm Pass.offers_reverse_perm]

def settledSet (s : Search σ n) : Finset (Fin n) :=
  Finset.univ.filter fun v => s.isSettled v = true

theorem mem_settledSet {s : Search σ n} {v : Fin n} :
    v ∈ s.settledSet ↔ s.isSettled v = true := by
  simp [settledSet]

theorem settledSet_settle {s : Search σ n} {u : Fin n} {l : NodeLabel σ}
    (h : s.nearest? = some (u, l)) :
    (s.settle p limit edges).settledSet = insert u s.settledSet := by
  ext w
  rw [mem_settledSet, isSettled_settle h, Finset.mem_insert, mem_settledSet]
  simp

theorem notMem_settledSet {s : Search σ n} {v : Fin n} (h : s.isSettled v = false) :
    v ∉ s.settledSet := by
  rw [mem_settledSet, h]
  simp

theorem card_settledSet_settle {s : Search σ n} {u : Fin n} {l : NodeLabel σ}
    (h : s.nearest? = some (u, l)) :
    (s.settle p limit edges).settledSet.card = s.settledSet.card + 1 := by
  rw [settledSet_settle h,
    Finset.card_insert_of_notMem (notMem_settledSet (nearest_of_nearest? h).unsettled)]

theorem card_settledSet_le (s : Search σ n) : s.settledSet.card ≤ n := by
  simpa using Finset.card_le_univ s.settledSet

theorem card_settledSet_lt {s : Search σ n} {v : Fin n} (h : s.isSettled v = false) :
    s.settledSet.card < n := by
  simpa using Finset.card_lt_univ_of_notMem (notMem_settledSet h)

theorem rounds_of_nearest?_none (k : Nat) {s : Search σ n} (h : s.nearest? = none) :
    rounds p limit edges k s = s := by
  induction k with
  | zero => rfl
  | succ k ih => rw [rounds, settle_of_nearest?_none h, ih]

theorem rounds_exhaust (k : Nat) (s : Search σ n) (h : n ≤ s.settledSet.card + k) :
    (rounds p limit edges k s).nearest? = none := by
  induction k generalizing s with
  | zero =>
    cases hnear : s.nearest? with
    | none => exact hnear
    | some c =>
      have := card_settledSet_lt (nearest_of_nearest? hnear).unsettled
      omega
  | succ k ih =>
    cases hnear : s.nearest? with
    | none => rwa [rounds_of_nearest?_none _ hnear]
    | some c =>
      obtain ⟨u, l⟩ := c
      rw [rounds]
      apply ih
      rw [card_settledSet_settle hnear]
      omega

theorem settled_of_run {i v : Fin n} {a : Nat × σ} (h : (run p limit edges i).best? v = some a) :
    (run p limit edges i).isSettled v = true :=
  settled_of_nearest?_none (rounds_exhaust n _ (Nat.le_add_left n _)) h

theorem rounds_induction {motive : Search σ n → Prop}
    (step : ∀ s, motive s → motive (s.settle p limit edges)) (k : Nat) {s : Search σ n}
    (hs : motive s) : motive (rounds p limit edges k s) := by
  induction k generalizing s with
  | zero => exact hs
  | succ k ih => exact ih (step s hs)

/-- What holds at the start and is kept by a round holds at the end. -/
theorem run_induction {motive : Search σ n → Prop} {i : Fin n} (start : motive (start p i))
    (step : ∀ s, motive s → motive (s.settle p limit edges)) : motive (run p limit edges i) :=
  rounds_induction step n start

end Search

end LinkClosure
