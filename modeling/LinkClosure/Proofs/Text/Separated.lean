import LinkClosure.Proofs.Text.Legible
import Mathlib.Data.List.Basic

/-!
# Separated texts

Some values are legible only among those of their kind: a list with a separator
between its items is, if it has items and the separator may follow each of them.

Where items use the separator themselves, a list may still be read from behind.
A number and a colon in front of each item are enough for that: the last
separator before a colon ends the item before it.
-/

set_option autoImplicit false

namespace LinkClosure.Text

def LegibleOn {α : Type} (P : α → Prop) (stop : Char → Prop) (write : α → String) : Prop :=
  ∀ a b rest rest', P a → P b → Ends stop rest → Ends stop rest' →
    (write a).toList ++ rest = (write b).toList ++ rest' → a = b ∧ rest = rest'

section LegibleOn

variable {α β : Type} {P : α → Prop} {stop : Char → Prop} {write : α → String}

theorem Legible.on (h : Legible stop write) (P : α → Prop) : LegibleOn P stop write :=
  fun a b rest rest' _ _ => h a b rest rest'

theorem LegibleOn.comap {Q : β → Prop} (h : LegibleOn P stop write) {f : β → α}
    (hf : Function.Injective f) (hQ : ∀ b, Q b → P (f b)) :
    LegibleOn Q stop fun b => write (f b) := by
  intro a b rest rest' ha hb hrest hrest' htext
  obtain ⟨hab, hrests⟩ := h (f a) (f b) rest rest' (hQ a ha) (hQ b hb) hrest hrest' htext
  exact ⟨hf hab, hrests⟩

theorem LegibleOn.inj (h : LegibleOn P stop write) {a b : α} (ha : P a) (hb : P b)
    (htext : write a = write b) : a = b := by
  have hlists : (write a).toList ++ [] = (write b).toList ++ [] := by rw [htext]
  exact (h a b [] [] ha hb ends_nil ends_nil hlists).1

theorem LegibleOn.marked (h : LegibleOn P stop write) {mark : String} {c : Char}
    (hmark : mark.toList = [c]) (hc : stop c) :
    LegibleOn (fun x : α × Bool => P x.1) (fun d => stop d ∧ d ≠ c)
      fun x => write x.1 ++ if x.2 then mark else "" := by
  have hends : ∀ (m : Bool) rest, Ends (fun d => stop d ∧ d ≠ c) rest →
      Ends stop ((if m then mark else "").toList ++ rest) := by
    intro m rest hrest
    cases m with
    | false => exact fun d hd => (hrest d hd).1
    | true =>
      rw [if_pos rfl, hmark]
      exact ends_cons hc
  have hother : ∀ rest rest', Ends (fun d => stop d ∧ d ≠ c) rest →
      (if false then mark else "").toList ++ rest ≠ (if true then mark else "").toList ++ rest' := by
    intro rest rest' hrest heq
    simp only [Bool.false_eq_true, if_false, if_true, hmark] at heq
    exact (hrest c (congrArg List.head? heq)).2 rfl
  rintro ⟨a, m⟩ ⟨b, n⟩ rest rest' ha hb hrest hrest' htext
  simp only [String.toList_append, List.append_assoc] at htext
  obtain ⟨rfl, hmarks⟩ := h a b _ _ ha hb (hends m rest hrest) (hends n rest' hrest') htext
  cases m <;> cases n
  case false.true => exact absurd hmarks (hother rest rest' hrest)
  case true.false => exact absurd hmarks.symm (hother rest' rest hrest')
  all_goals exact ⟨rfl, List.append_cancel_left hmarks⟩

def furtherText (sep : String) (write : α → String) : List α → List Char
  | [] => []
  | a :: as => sep.toList ++ (sep.intercalate ((a :: as).map write)).toList

theorem toList_intercalate_cons (sep : String) (write : α → String) (a : α) (as : List α) :
    (sep.intercalate ((a :: as).map write)).toList =
      (write a).toList ++ furtherText sep write as := by
  cases as with
  | nil => simp [furtherText]
  | cons b as =>
    rw [List.map_cons, List.map_cons, String.intercalate_cons_cons, String.toList_append,
      String.toList_append, List.append_assoc]
    rfl

/-- Items with a separator between them, if there are any. -/
theorem LegibleOn.separated (h : LegibleOn P stop write) {sep : String} {c : Char}
    {cs : List Char} (hsep : sep.toList = c :: cs) (hc : stop c) :
    LegibleOn (fun as : List α => as ≠ [] ∧ ∀ a ∈ as, P a) (fun d => stop d ∧ d ≠ c)
      fun as => sep.intercalate (as.map write) := by
  have hends : ∀ (as : List α) rest, Ends (fun d => stop d ∧ d ≠ c) rest →
      Ends stop (furtherText sep write as ++ rest) := by
    intro as rest hrest
    cases as with
    | nil => exact fun d hd => (hrest d hd).1
    | cons a as =>
      rw [furtherText, hsep]
      exact ends_cons hc
  have hother : ∀ (a : α) (as : List α) rest rest', Ends (fun d => stop d ∧ d ≠ c) rest →
      rest ≠ furtherText sep write (a :: as) ++ rest' := by
    intro a as rest rest' hrest heq
    rw [furtherText, hsep] at heq
    exact (hrest c (congrArg List.head? heq)).2 rfl
  intro as bs rest rest' has hbs hrest hrest' htext
  induction as generalizing bs with
  | nil => exact absurd rfl has.1
  | cons a as ih =>
    cases bs with
    | nil => exact absurd rfl hbs.1
    | cons b bs =>
      obtain ⟨ha, has'⟩ := List.forall_mem_cons.1 has.2
      obtain ⟨hb, hbs'⟩ := List.forall_mem_cons.1 hbs.2
      rw [toList_intercalate_cons, toList_intercalate_cons, List.append_assoc,
        List.append_assoc] at htext
      obtain ⟨hab, hfurther⟩ := h a b _ _ ha hb (hends as rest hrest) (hends bs rest' hrest') htext
      cases as with
      | nil =>
        cases bs with
        | nil => exact ⟨by rw [hab], hfurther⟩
        | cons b' bs => exact absurd hfurther (hother b' bs rest rest' hrest)
      | cons a' as =>
        cases bs with
        | nil => exact absurd hfurther.symm (hother a' as rest' rest hrest')
        | cons b' bs =>
          rw [furtherText, furtherText, List.append_assoc, List.append_assoc] at hfurther
          obtain ⟨hlists, hrests⟩ := ih (b' :: bs) ⟨List.cons_ne_nil _ _, has'⟩
            ⟨List.cons_ne_nil _ _, hbs'⟩ (List.append_cancel_left hfurther)
          exact ⟨by rw [hab, hlists], hrests⟩

theorem Legible.listed {stop' : Char → Prop} (h : Legible stop write) (hcomma : stop ',')
    (first : String) {last : String} {c : Char} {cs : List Char} (hlast : last.toList = c :: cs)
    (hc : stop c) (hne : c ≠ ',') (hitem : ∀ a, ∃ d ds, (write a).toList = d :: ds ∧ d ≠ c) :
    Legible stop' fun as : List α => first ++ Shape.listed (as.map write) ++ last := by
  have hother : ∀ (a : α) (as : List α) (rest rest' : List Char),
      c :: rest ≠ (Shape.listed ((a :: as).map write)).toList ++ rest' := by
    intro a as rest rest' heq
    obtain ⟨d, ds, hd, hdc⟩ := hitem a
    rw [Shape.listed, toList_intercalate_cons, hd] at heq
    exact hdc (List.cons.inj heq).1.symm
  intro as bs rest rest' _ _ htext
  simp only [String.toList_append, List.append_assoc, hlast, List.cons_append] at htext
  replace htext := List.append_cancel_left htext
  cases as with
  | nil =>
    cases bs with
    | nil => exact ⟨rfl, List.append_cancel_left (List.cons.inj htext).2⟩
    | cons b bs => exact absurd htext (hother b bs _ _)
  | cons a as =>
    cases bs with
    | nil => exact absurd htext.symm (hother a as _ _)
    | cons b bs =>
      have hitems := (h.on fun _ => True).separated (rfl : ", ".toList = [',', ' ']) hcomma
      obtain ⟨hlists, hrests⟩ := hitems (a :: as) (b :: bs) _ _
        ⟨List.cons_ne_nil _ _, fun _ _ => trivial⟩ ⟨List.cons_ne_nil _ _, fun _ _ => trivial⟩
        (ends_cons ⟨hc, hne⟩) (ends_cons ⟨hc, hne⟩) htext
      exact ⟨hlists, List.append_cancel_left (List.cons.inj hrests).2⟩

theorem LegibleOn.join_inj (h : LegibleOn P (fun _ => True) write)
    (hne : ∀ a, (write a).toList ≠ []) {as bs : List α} (has : ∀ a ∈ as, P a)
    (hbs : ∀ b ∈ bs, P b) (htext : String.join (as.map write) = String.join (bs.map write)) :
    as = bs := by
  have hother : ∀ (a : α) (as : List α), String.join ((a :: as).map write) ≠ "" := by
    intro a as heq
    rw [List.map_cons, String.join_cons, String.append_eq_empty_iff] at heq
    exact hne a (by rw [heq.1]; rfl)
  induction as generalizing bs with
  | nil =>
    cases bs with
    | nil => rfl
    | cons b bs => exact absurd htext.symm (hother b bs)
  | cons a as ih =>
    cases bs with
    | nil => exact absurd htext (hother a as)
    | cons b bs =>
      obtain ⟨ha, has'⟩ := List.forall_mem_cons.1 has
      obtain ⟨hb, hbs'⟩ := List.forall_mem_cons.1 hbs
      have hlists := congrArg String.toList htext
      simp only [List.map_cons, String.join_cons, String.toList_append] at hlists
      obtain ⟨hab, hrests⟩ := h a b _ _ ha hb (ends_any _) (ends_any _) hlists
      rw [hab, ih has' hbs' (String.toList_inj.1 hrests)]

theorem forall_mem_intercalate {p : Char → Prop} {sep : String} {c : Char}
    (hsep : sep.toList = [c]) (hc : p c) {texts : List String}
    (htexts : ∀ t ∈ texts, ∀ d ∈ t.toList, p d) : ∀ d ∈ (sep.intercalate texts).toList, p d := by
  induction texts with
  | nil =>
    intro d hd
    simp at hd
  | cons t texts ih =>
    obtain ⟨ht, hrest⟩ := List.forall_mem_cons.1 htexts
    cases texts with
    | nil => simpa using ht
    | cons t' texts =>
      rw [String.intercalate_cons_cons, String.toList_append, String.toList_append, hsep]
      refine List.forall_mem_append.2 ⟨List.forall_mem_append.2 ⟨ht, ?_⟩, ih hrest⟩
      exact List.forall_mem_singleton.2 hc

end LegibleOn

section Numbered

theorem cut_last {c : Char} {xs ys rest rest' : List Char} (hx : c ∉ rest) (hy : c ∉ rest')
    (h : xs ++ c :: rest = ys ++ c :: rest') : xs = ys ∧ rest = rest' := by
  have hreverse : rest.reverse ++ c :: xs.reverse = rest'.reverse ++ c :: ys.reverse := by
    simpa using congrArg List.reverse h
  obtain ⟨hrest, hxs⟩ := cut_first (by simpa using hx) (by simpa using hy) hreverse
  exact ⟨List.reverse_injective hxs, List.reverse_injective hrest⟩

def numbered (x : Nat × String) : String := toString x.1 ++ ":" ++ x.2

theorem toList_numbered (x : Nat × String) :
    (numbered x).toList = (toString x.1).toList ++ ':' :: x.2.toList := by
  rw [numbered, String.toList_append, String.toList_append, List.append_assoc]
  rfl

theorem notMem_digits {c : Char} (hc : c.isDigit = false) (n : Nat) : c ∉ (toString n).toList := by
  intro hmem
  rw [isDigit_of_mem_toString hmem] at hc
  cases hc

theorem furtherText_numbered (x : Nat × String) (xs : List (Nat × String)) :
    furtherText ";" numbered (x :: xs) =
      ';' :: (toString x.1).toList ++ ':' :: (x.2.toList ++ furtherText ";" numbered xs) := by
  rw [furtherText, toList_intercalate_cons, toList_numbered, List.append_assoc]
  rfl

/-- The first text ends at the last separator before the next colon. -/
theorem cut_numbered {text text' : List Char} {xs ys : List (Nat × String)} (htext : ':' ∉ text)
    (htext' : ':' ∉ text')
    (h : text ++ furtherText ";" numbered xs = text' ++ furtherText ";" numbered ys) :
    text = text' ∧ furtherText ";" numbered xs = furtherText ";" numbered ys := by
  have hother : ∀ {text : List Char} (text' : List Char) (y : Nat × String)
      (ys : List (Nat × String)), ':' ∉ text →
      text ≠ text' ++ furtherText ";" numbered (y :: ys) := by
    rintro _ text' y ys hno rfl
    rw [furtherText_numbered] at hno
    simp at hno
  cases xs with
  | nil =>
    cases ys with
    | nil => exact ⟨List.append_cancel_right h, rfl⟩
    | cons y ys =>
      rw [furtherText, List.append_nil] at h
      exact absurd h (hother text' y ys htext)
  | cons x xs =>
    cases ys with
    | nil =>
      rw [furtherText, List.append_nil] at h
      exact absurd h.symm (hother text x xs htext')
    | cons y ys =>
      have hnumber : ∀ n : Nat, ':' ∉ ';' :: (toString n).toList := by
        intro n
        simpa using notMem_digits (by decide) n
      rw [furtherText_numbered, furtherText_numbered, ← List.append_assoc,
        ← List.append_assoc] at h
      obtain ⟨hfront, hback⟩ := cut_first (by simp_all) (by simp_all) h
      obtain ⟨hcut, hdigits⟩ := cut_last (notMem_digits (by decide) x.1)
        (notMem_digits (by decide) y.1) hfront
      refine ⟨hcut, ?_⟩
      rw [furtherText_numbered, furtherText_numbered, hdigits, hback]

theorem intercalate_numbered_inj {xs ys : List (Nat × String)} (hxs : ∀ x ∈ xs, ':' ∉ x.2.toList)
    (hys : ∀ y ∈ ys, ':' ∉ y.2.toList)
    (h : (";".intercalate (xs.map numbered)).toList = (";".intercalate (ys.map numbered)).toList) :
    xs = ys := by
  have hother : ∀ (x : Nat × String) (xs : List (Nat × String)),
      (";".intercalate ((x :: xs).map numbered)).toList ≠ [] := by
    intro x xs
    rw [toList_intercalate_cons, toList_numbered]
    simp
  induction xs generalizing ys with
  | nil =>
    cases ys with
    | nil => rfl
    | cons y ys => exact absurd h.symm (hother y ys)
  | cons x xs ih =>
    cases ys with
    | nil => exact absurd h (hother x xs)
    | cons y ys =>
      obtain ⟨hx, hxs'⟩ := List.forall_mem_cons.1 hxs
      obtain ⟨hy, hys'⟩ := List.forall_mem_cons.1 hys
      rw [toList_intercalate_cons, toList_intercalate_cons, toList_numbered, toList_numbered,
        List.append_assoc, List.append_assoc] at h
      obtain ⟨hnumber, hrest⟩ := legible_nat x.1 y.1 _ _ (ends_cons (by decide))
        (ends_cons (by decide)) h
      obtain ⟨htext, hfurther⟩ := cut_numbered hx hy (List.cons.inj hrest).2
      have hxy : x = y := Prod.ext hnumber (String.toList_inj.1 htext)
      cases xs with
      | nil =>
        cases ys with
        | nil => rw [hxy]
        | cons z ys => exact absurd hfurther.symm (List.cons_ne_nil _ _)
      | cons w xs =>
        cases ys with
        | nil => exact absurd hfurther (List.cons_ne_nil _ _)
        | cons z ys => rw [hxy, ih hxs' hys' (List.append_cancel_left hfurther)]

end Numbered

end LinkClosure.Text
