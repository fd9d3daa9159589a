import LinkClosure.Neighbourhood
import LinkClosure.Proofs.Sorted
import LinkClosure.Proofs.Text.Separated
import Mathlib.Data.List.Pairwise
import Mathlib.Data.String.Basic

/-!
# The order of selection and the order of printing

Linked variables are printed in the order of their simple names. Selection goes by
a text that is glued together of the simple name, a colon and the rank, and texts
compare character by character. As long as two names differ at some character,
that one decides both orders. But where one name is the beginning of another, the
shorter name is followed by the colon in its text and the longer one by its own
next character. A digit comes before the colon. So names such as `x` and `x1` are
selected in the one order and printed in the other.
-/

set_option autoImplicit false

namespace LinkClosure

section Texts

theorem parting (xs ys : List Char) :
    xs = ys ∨ (∃ c rest, ys = xs ++ c :: rest) ∨ (∃ c rest, xs = ys ++ c :: rest) ∨
      ∃ p a b as bs, a ≠ b ∧ xs = p ++ a :: as ∧ ys = p ++ b :: bs := by
  induction xs generalizing ys with
  | nil =>
    cases ys with
    | nil => exact .inl rfl
    | cons b bs => exact .inr (.inl ⟨b, bs, rfl⟩)
  | cons a as ih =>
    cases ys with
    | nil => exact .inr (.inr (.inl ⟨a, as, rfl⟩))
    | cons b bs =>
      by_cases hab : a = b
      · subst hab
        rcases ih bs with rfl | ⟨c, rest, rfl⟩ | ⟨c, rest, rfl⟩ | ⟨p, c, d, cs, ds, hne, rfl, rfl⟩
        · exact .inl rfl
        · exact .inr (.inl ⟨c, rest, rfl⟩)
        · exact .inr (.inr (.inl ⟨c, rest, rfl⟩))
        · exact .inr (.inr (.inr ⟨a :: p, c, d, cs, ds, hne, rfl, rfl⟩))
      · exact .inr (.inr (.inr ⟨[], a, b, as, bs, hab, rfl, rfl⟩))

theorem append_lt_append (p xs ys : List Char) : p ++ xs < p ++ ys ↔ xs < ys := by
  induction p with
  | nil => rfl
  | cons a p ih => simp [ih]

theorem lt_append_cons (xs : List Char) (c : Char) (rest : List Char) : xs < xs ++ c :: rest := by
  simpa using (append_lt_append xs [] (c :: rest)).2 (List.nil_lt_cons c rest)

theorem lt_iff_of_parting {x y : Char} (hne : x ≠ y) (p as bs : List Char) :
    p ++ x :: as < p ++ y :: bs ↔ x < y := by
  rw [append_lt_append, List.cons_lt_cons_iff]
  exact or_iff_left fun h => hne h.1

end Texts

section Lists

variable {α : Type}

theorem forall_or_of_pairwise {r : α → α → Prop} {l : List α} (h : l.Pairwise r)
    {x y : α} (hx : x ∈ l) (hy : y ∈ l) (hne : x ≠ y) : r x y ∨ r y x := by
  have : Std.Symm fun x y => r x y ∨ r y x := ⟨fun _ _ => Or.symm⟩
  exact (h.imp (S := fun x y => r x y ∨ r y x) Or.inl).forall hx hy hne

theorem pairwise_mergeSort_of_cmp (cmp : α → α → Ordering) [Std.TransCmp cmp] (l : List α) :
    (l.mergeSort fun a b => cmp a b != .gt).Pairwise fun a b => cmp a b ≠ .gt := by
  refine (List.pairwise_mergeSort ?_ ?_ l).imp ?_
  · intro a b c hab hbc
    simp only [bne_iff_ne, ← Ordering.isLE_iff_ne_gt] at hab hbc ⊢
    exact Std.TransCmp.isLE_trans hab hbc
  · intro a b
    simp only [Bool.or_eq_true, bne_iff_ne]
    by_cases hab : cmp a b = .gt
    · right
      rw [Std.OrientedCmp.lt_of_gt hab]
      decide
    · exact .inl hab
  · intro a b hab
    simpa using hab

end Lists

namespace Neighbourhood

variable {a b : Variable × Level}

theorem toList_selectionKey (e : Variable × Level) :
    (selectionKey e).toList = e.1.simpleName.toList ++ ':' :: (toString e.2.rank).toList := by
  rw [selectionKey, String.toList_append, String.toList_append, List.append_assoc]
  rfl

/-- The name of `b` goes on where that of `a` ends, with a character that precedes the colon,
or with a colon and a text that precedes the rank of `a`. -/
def Overtakes (b a : Variable × Level) : Prop :=
  ∃ c rest, b.1.simpleName.toList = a.1.simpleName.toList ++ c :: rest ∧
    (c < ':' ∨ c = ':' ∧ rest ++ ':' :: (toString b.2.rank).toList < (toString a.2.rank).toList)

theorem Overtakes.simpleName_lt (h : Overtakes b a) : a.1.simpleName < b.1.simpleName := by
  obtain ⟨c, rest, hname, _⟩ := h
  rw [String.lt_iff_toList_lt, hname]
  exact lt_append_cons _ c rest

/-- The later of two names is selected first if and only if it overtakes. -/
theorem selectionKey_lt_iff (h : a.1.simpleName < b.1.simpleName) :
    selectionKey b < selectionKey a ↔ Overtakes b a := by
  rw [String.lt_iff_toList_lt] at h
  rw [String.lt_iff_toList_lt, toList_selectionKey, toList_selectionKey, Overtakes]
  generalize a.1.simpleName.toList = xs at *
  generalize b.1.simpleName.toList = ys at *
  rcases parting xs ys with rfl | ⟨c, rest, rfl⟩ | ⟨c, rest, rfl⟩ | ⟨p, x, y, as, bs, hne, rfl, rfl⟩
  · exact absurd h (lt_irrefl _)
  · rw [List.append_assoc, append_lt_append, List.cons_append, List.cons_lt_cons_iff]
    constructor
    · intro hlt
      exact ⟨c, rest, rfl, hlt⟩
    · rintro ⟨c', rest', heq, hlt⟩
      obtain ⟨rfl, rfl⟩ := List.cons.inj (List.append_cancel_left heq)
      exact hlt
  · exact absurd h (lt_asymm (lt_append_cons ys c rest))
  · rw [lt_iff_of_parting hne] at h
    constructor
    · intro hlt
      rw [List.append_assoc, List.append_assoc, List.cons_append, List.cons_append,
        lt_iff_of_parting hne.symm] at hlt
      exact absurd hlt (lt_asymm h)
    · rintro ⟨c, rest, heq, _⟩
      rw [List.append_assoc] at heq
      exact absurd (List.cons.inj (List.append_cancel_left heq)).1 hne.symm

theorem simpleName_of_selectionKey (h : selectionKey a = selectionKey b) :
    a.1.simpleName = b.1.simpleName := by
  have hcolon : ∀ z : Int, ':' ∉ (toString z).toList := by
    intro z hz
    exact absurd (Text.isIntChar_of_mem_toString hz) (by decide)
  have htexts := congrArg String.toList h
  rw [toList_selectionKey, toList_selectionKey] at htexts
  exact String.toList_inj.1 (Text.cut_last (hcolon _) (hcolon _) htexts).1

section Sorting

variable {m : SortedMap Variable Level}

instance : Std.TransCmp comparePrinted :=
  inferInstanceAs (Std.TransCmp (compareLex (compareOn fun e : Variable × Level => e.1.simpleName)
    (compareOn fun e : Variable × Level => e.1.name)))

theorem pairwise_byPrintedName (m : SortedMap Variable Level) :
    (byPrintedName m).Pairwise fun a b => a.1.simpleName ≤ b.1.simpleName := by
  apply (pairwise_mergeSort_of_cmp comparePrinted m.entries).imp
  intro a b hab
  rw [← compare_le_iff_le]
  intro hgt
  exact hab (by rw [comparePrinted, hgt]; rfl)

theorem pairwise_bySelectionKey (m : SortedMap Variable Level) :
    (bySelectionKey m).Pairwise fun a b => selectionKey a ≤ selectionKey b := by
  apply (pairwise_mergeSort_of_cmp (compareOn selectionKey) m.entries).imp
  intro a b hab
  exact compare_le_iff_le.1 hab

theorem perm_byPrintedName (m : SortedMap Variable Level) : (byPrintedName m).Perm m.entries :=
  List.mergeSort_perm _ _

theorem perm_bySelectionKey (m : SortedMap Variable Level) : (bySelectionKey m).Perm m.entries :=
  List.mergeSort_perm _ _

def NamesApart (m : SortedMap Variable Level) : Prop :=
  ∀ u ∈ m.keys, ∀ v ∈ m.keys, u.simpleName = v.simpleName → u = v

theorem NamesApart.eq (h : NamesApart m) (ha : a ∈ m.entries) (hb : b ∈ m.entries)
    (hname : a.1.simpleName = b.1.simpleName) : a = b := by
  have hvariable : a.1 = b.1 := h _ (List.mem_map_of_mem ha) _ (List.mem_map_of_mem hb) hname
  rw [← Prod.eta a, SortedMap.mem_entries_iff, hvariable] at ha
  rw [← Prod.eta b, SortedMap.mem_entries_iff] at hb
  exact Prod.ext hvariable (Option.some.inj (ha.symm.trans hb))

theorem NamesApart.byPrintedName_eq (h : NamesApart m) {l : List (Variable × Level)}
    (hperm : l.Perm m.entries) (hl : l.Pairwise fun a b => a.1.simpleName ≤ b.1.simpleName) :
    byPrintedName m = l := by
  apply List.Perm.eq_of_pairwise _ (pairwise_byPrintedName m) hl
  · exact (perm_byPrintedName m).trans hperm.symm
  · intro a b ha hb hab hba
    exact h.eq ((perm_byPrintedName m).mem_iff.1 ha) (hperm.mem_iff.1 hb) (le_antisymm hab hba)

/-- No entry is selected ahead of one that is printed before it. -/
def NoneOvertakes (m : SortedMap Variable Level) : Prop :=
  ∀ a ∈ m.entries, ∀ b ∈ m.entries, ¬ Overtakes b a

theorem NoneOvertakes.simpleName_le (hnone : NoneOvertakes m)
    (ha : a ∈ m.entries) (hb : b ∈ m.entries) (h : selectionKey a ≤ selectionKey b) :
    a.1.simpleName ≤ b.1.simpleName := by
  by_contra hlt
  rw [not_le] at hlt
  have hkeys : ¬ selectionKey a < selectionKey b := mt (selectionKey_lt_iff hlt).1 (hnone b hb a ha)
  have hsame : selectionKey a = selectionKey b := le_antisymm h (not_lt.1 hkeys)
  exact absurd (simpleName_of_selectionKey hsame) (ne_of_gt hlt)

theorem noneOvertakes_of_letters (h : ∀ u ∈ m.keys, ∀ c ∈ u.simpleName.toList, ':' < c) :
    NoneOvertakes m := by
  rintro a _ b hb ⟨c, rest, hname, hbelow⟩
  have hc : ':' < c := by
    apply h b.1 (List.mem_map_of_mem hb)
    rw [hname]
    simp
  rcases hbelow with hlt | ⟨heq, _⟩
  · exact absurd hlt (lt_asymm hc)
  · exact absurd heq (ne_of_gt hc)

/-- Selection follows the printed order if and only if no name overtakes another. -/
theorem bySelectionKey_eq_iff (hm : NamesApart m) :
    bySelectionKey m = byPrintedName m ↔ NoneOvertakes m := by
  constructor
  · intro hsame a ha b hb hovertakes
    have hname : a.1.simpleName < b.1.simpleName := hovertakes.simpleName_lt
    have hkey : selectionKey b < selectionKey a := (selectionKey_lt_iff hname).2 hovertakes
    have hne : a ≠ b := by
      rintro rfl
      exact lt_irrefl _ hname
    -- One list in both orders: whichever of the two comes first, it is first in both.
    have hboth := (pairwise_byPrintedName m).and (hsame ▸ pairwise_bySelectionKey m)
    rcases forall_or_of_pairwise hboth ((perm_byPrintedName m).mem_iff.2 ha)
      ((perm_byPrintedName m).mem_iff.2 hb) hne with ⟨_, hle⟩ | ⟨hle, _⟩
    · exact absurd hkey (not_lt.2 hle)
    · exact absurd hname (not_lt.2 hle)
  · intro hnone
    have hsorted : (bySelectionKey m).Pairwise fun a b => a.1.simpleName ≤ b.1.simpleName := by
      apply (pairwise_bySelectionKey m).imp_of_mem
      intro a b ha hb hab
      exact hnone.simpleName_le ((perm_bySelectionKey m).mem_iff.1 ha)
        ((perm_bySelectionKey m).mem_iff.1 hb) hab
    exact (hm.byPrintedName_eq (perm_bySelectionKey m) hsorted).symm

theorem select_resolved {i : Nat} {e : Variable × Level} (h : (bySelectionKey m)[i]? = some e) :
    select i (.resolved m) = .ok e.2 := by
  simp [select, levels, Except.bind, h]

end Sorting

end Neighbourhood

open Neighbourhood

/-- Linked variables with different simple names are printed by simple name. They are ordered
alike for selection if and only if no name overtakes another, and then each index selects
the level of the pair that is printed there. -/
theorem selection_follows_print {m : SortedMap Variable Level} (hm : NamesApart m) :
    ∃ pairs : List (Variable × Level),
      render (.resolved m) =
        ", ".intercalate (pairs.map fun e => e.2.render ++ ":" ++ e.1.simpleName) ∧
      pairs.Perm m.entries ∧ (pairs.Pairwise fun a b => a.1.simpleName ≤ b.1.simpleName) ∧
      (bySelectionKey m = pairs ↔ NoneOvertakes m) ∧
      (NoneOvertakes m → ∀ i < m.size, ∃ e, pairs[i]? = some e ∧
        select i (.resolved m) = .ok e.2) := by
  refine ⟨byPrintedName m, rfl, perm_byPrintedName m, pairwise_byPrintedName m,
    bySelectionKey_eq_iff hm, ?_⟩
  intro hnone i hi
  have hlength : i < (byPrintedName m).length := by
    rw [(perm_byPrintedName m).length_eq]
    exact hi
  have hpair := List.getElem?_eq_getElem hlength
  refine ⟨_, hpair, select_resolved ?_⟩
  rw [(bySelectionKey_eq_iff hm).2 hnone, hpair]

namespace Nodes

def levels : SortedMap Variable Level :=
  .ofList [(⟨"node", "node", .local⟩, .assigned), (⟨"nodes", "nodes", .local⟩, .staticallyAssigned),
    (⟨"next", "next", .field⟩, .delayed (.single "pending"))]

theorem names_apart : NamesApart levels := by
  unfold NamesApart
  decide

theorem letters : ∀ u ∈ levels.keys, ∀ c ∈ u.simpleName.toList, ':' < c := by
  have hall : ∀ u ∈ levels.keys, u.simpleName.toList.all (':' < ·) = true := by decide
  simpa only [List.all_eq_true, decide_eq_true_eq] using hall

end Nodes

theorem selection_follows_print_nodes :
    NamesApart Nodes.levels ∧ NoneOvertakes Nodes.levels ∧
      ∃ pairs : List (Variable × Level),
        render (.resolved Nodes.levels) =
          ", ".intercalate (pairs.map fun e => e.2.render ++ ":" ++ e.1.simpleName) ∧
        bySelectionKey Nodes.levels = pairs ∧
        ∃ e, pairs[2]? = some e ∧ select 2 (.resolved Nodes.levels) = .ok e.2 := by
  have hnone : NoneOvertakes Nodes.levels := noneOvertakes_of_letters Nodes.letters
  obtain ⟨pairs, hprinted, _, _, hsame, hselect⟩ := selection_follows_print Nodes.names_apart
  exact ⟨Nodes.names_apart, hnone, pairs, hprinted, hsame.2 hnone, hselect hnone 2 (by decide)⟩

namespace Numbered

def levels : SortedMap Variable Level :=
  .ofList [(⟨"x", "x", .local⟩, .assigned), (⟨"x1", "x1", .local⟩, .staticallyAssigned)]

end Numbered

/-- A digit overtakes: `x1` is selected before `x` and printed behind it. -/
theorem selection_leaves_print :
    ¬ ∀ m : SortedMap Variable Level, NamesApart m → ∀ i < m.size,
      ∃ e, (byPrintedName m)[i]? = some e ∧ select i (.resolved m) = .ok e.2 := by
  intro h
  have hnames : NamesApart Numbered.levels := by
    unfold NamesApart
    decide
  have hprinted : byPrintedName Numbered.levels =
      [(⟨"x", "x", .local⟩, .assigned), (⟨"x1", "x1", .local⟩, .staticallyAssigned)] :=
    hnames.byPrintedName_eq (by decide) (by decide)
  have hselected : bySelectionKey Numbered.levels =
      [(⟨"x1", "x1", .local⟩, .staticallyAssigned), (⟨"x", "x", .local⟩, .assigned)] :=
    List.mergeSort_of_pairwise (by decide)
  obtain ⟨e, he, hlevel⟩ := h Numbered.levels hnames 0 (by decide)
  rw [hprinted] at he
  obtain rfl := Option.some.inj he
  rw [select_resolved (by rw [hselected]; rfl)] at hlevel
  cases hlevel

end LinkClosure
