import LinkClosure.Graph.Shape
import Mathlib.Logic.Function.Basic
import Mathlib.Tactic.SplitIfs

/-!
# Legible texts

A way of writing is legible if the written value and what follows it can be told
from the text, provided that what follows starts with one of its stops, or is
empty. Numbers are legible up to a character that is no digit, texts in quotes
whatever follows. Legibility is inherited by sequences, and legible writing is
injective.
-/

set_option autoImplicit false

namespace LinkClosure.Text

/-- What follows a text is empty or starts with a stop. -/
def Ends (stop : Char → Prop) (rest : List Char) : Prop := ∀ c, rest.head? = some c → stop c

def Legible {α : Type} (stop : Char → Prop) (write : α → String) : Prop :=
  ∀ a b rest rest', Ends stop rest → Ends stop rest' →
    (write a).toList ++ rest = (write b).toList ++ rest' → a = b ∧ rest = rest'

section Ends

variable {stop : Char → Prop}

theorem ends_nil : Ends stop [] := by
  intro c hc
  cases hc

theorem ends_cons {c : Char} {rest : List Char} (h : stop c) : Ends stop (c :: rest) := by
  intro d hd
  rwa [← Option.some.inj hd]

theorem ends_any (rest : List Char) : Ends (fun _ => True) rest := fun _ _ => trivial

theorem cut_first {c : Char} {xs ys rest rest' : List Char} (hx : c ∉ xs) (hy : c ∉ ys)
    (h : xs ++ c :: rest = ys ++ c :: rest') : xs = ys ∧ rest = rest' := by
  induction xs generalizing ys with
  | nil =>
    cases ys with
    | nil => exact ⟨rfl, (List.cons.inj h).2⟩
    | cons y ys => exact absurd ((List.cons.inj h).1 ▸ List.mem_cons_self) hy
  | cons x xs ih =>
    cases ys with
    | nil => exact absurd ((List.cons.inj h).1 ▸ List.mem_cons_self) hx
    | cons y ys =>
      obtain ⟨rfl, htail⟩ := List.cons.inj h
      obtain ⟨rfl, hrest⟩ := ih (fun hc => hx (List.mem_cons_of_mem x hc))
        (fun hc => hy (List.mem_cons_of_mem x hc)) htail
      exact ⟨rfl, hrest⟩

end Ends

section Legible

variable {α β : Type} {stop stop' : Char → Prop} {write : α → String} {write' : β → String}

theorem Legible.injective (h : Legible stop write) : Function.Injective write := by
  intro a b hab
  have htext : (write a).toList ++ [] = (write b).toList ++ [] := by rw [hab]
  exact (h a b [] [] ends_nil ends_nil htext).1

theorem Legible.mono (h : Legible stop write) (hstop : ∀ c, stop' c → stop c) :
    Legible stop' write := by
  intro a b rest rest' hrest hrest' htext
  exact h a b rest rest' (fun c hc => hstop c (hrest c hc)) (fun c hc => hstop c (hrest' c hc))
    htext

theorem Legible.comap (h : Legible stop write) {f : β → α} (hf : Function.Injective f) :
    Legible stop fun b => write (f b) := by
  intro a b rest rest' hrest hrest' htext
  obtain ⟨hab, hrests⟩ := h (f a) (f b) rest rest' hrest hrest' htext
  exact ⟨hf hab, hrests⟩

theorem Legible.after (h : Legible stop write) (text : String) :
    Legible stop fun a => text ++ write a := by
  intro a b rest rest' hrest hrest' htext
  simp only [String.toList_append, List.append_assoc] at htext
  exact h a b rest rest' hrest hrest' (List.append_cancel_left htext)

theorem Legible.before (h : Legible stop write) (text : String)
    (hstop : ∀ rest, Ends stop (text.toList ++ rest)) :
    Legible stop' fun a => write a ++ text := by
  intro a b rest rest' _ _ htext
  simp only [String.toList_append, List.append_assoc] at htext
  obtain ⟨hab, hrests⟩ := h a b _ _ (hstop rest) (hstop rest') htext
  exact ⟨hab, List.append_cancel_left hrests⟩

theorem Legible.pair (h : Legible stop write) (h' : Legible stop' write')
    (hnext : ∀ b rest, Ends stop' rest → Ends stop ((write' b).toList ++ rest)) :
    Legible stop' fun x : α × β => write x.1 ++ write' x.2 := by
  intro x y rest rest' hrest hrest' htext
  simp only [String.toList_append, List.append_assoc] at htext
  obtain ⟨hfst, hrests⟩ := h x.1 y.1 _ _ (hnext _ _ hrest) (hnext _ _ hrest') htext
  obtain ⟨hsnd, hrests'⟩ := h' x.2 y.2 rest rest' hrest hrest' hrests
  exact ⟨Prod.ext hfst hsnd, hrests'⟩

theorem Legible.pairBy (h : Legible stop write) (h' : Legible stop' write') (text : String)
    (hstop : ∀ rest, Ends stop (text.toList ++ rest)) :
    Legible stop' fun x : α × β => write x.1 ++ text ++ write' x.2 := by
  have hpair := h.pair (h'.after text) fun b rest _ => by
    simp only [String.toList_append, List.append_assoc]
    exact hstop _
  simpa only [String.append_assoc] using hpair

theorem legible_of_class (p : Char → Bool) (hclass : ∀ a, ∀ c ∈ (write a).toList, p c = true)
    (hinj : Function.Injective write) : Legible (fun c => p c = false) write := by
  have hread : ∀ a rest, Ends (fun c => p c = false) rest →
      ((write a).toList ++ rest).takeWhile p = (write a).toList := by
    intro a rest hrest
    have hnil : rest.takeWhile p = [] := by
      cases rest with
      | nil => rfl
      | cons c rest => rw [List.takeWhile_cons_of_neg (by simp [hrest c rfl])]
    rw [List.takeWhile_append_of_pos (hclass a), hnil, List.append_nil]
  intro a b rest rest' hrest hrest' htext
  have hab : (write a).toList = (write b).toList := by
    rw [← hread a rest hrest, htext, hread b rest' hrest']
  refine ⟨hinj (String.toList_inj.1 hab), ?_⟩
  rw [hab] at htext
  exact List.append_cancel_left htext

end Legible

section Numbers

theorem digitChar_inj {m n : Nat} (hm : m < 16) (hn : n < 16)
    (h : Nat.digitChar m = Nat.digitChar n) : m = n := by
  have hall : ∀ m < 16, ∀ n < 16, Nat.digitChar m = Nat.digitChar n → m = n := by decide
  exact hall m hm n hn h

theorem toDigits_eq_append {b : Nat} (hb : 1 < b) (n : Nat) :
    Nat.toDigits b n =
      (if n < b then [] else Nat.toDigits b (n / b)) ++ [Nat.digitChar (n % b)] := by
  rw [Nat.toDigits_eq_if hb]
  split_ifs with hn
  · rw [Nat.mod_eq_of_lt hn, List.nil_append]
  · rfl

theorem toDigits_inj {b : Nat} (hb : 1 < b) (hb' : b ≤ 16) {m n : Nat}
    (h : Nat.toDigits b m = Nat.toDigits b n) : m = n := by
  induction m using Nat.strongRecOn generalizing n with
  | ind m ih =>
    have hm : m % b < b := Nat.mod_lt m (by omega)
    have hn : n % b < b := Nat.mod_lt n (by omega)
    rw [toDigits_eq_append hb m, toDigits_eq_append hb n] at h
    obtain ⟨hhigh, hlow⟩ := List.append_inj' h rfl
    have hmod : m % b = n % b := by
      rw [List.cons.injEq] at hlow
      exact digitChar_inj (by omega) (by omega) hlow.1
    split_ifs at hhigh with hmb hnb hnb
    · rwa [Nat.mod_eq_of_lt hmb, Nat.mod_eq_of_lt hnb] at hmod
    · exact absurd hhigh.symm Nat.toDigits_ne_nil
    · exact absurd hhigh Nat.toDigits_ne_nil
    · have hdiv : m / b = n / b := ih (m / b) (Nat.div_lt_self (by omega) hb) hhigh
      rw [← Nat.div_add_mod m b, hdiv, hmod, Nat.div_add_mod]

theorem mem_toDigits {b : Nat} (hb : 1 < b) {n : Nat} {c : Char} (hc : c ∈ Nat.toDigits b n) :
    ∃ k, k < b ∧ c = Nat.digitChar k := by
  induction n using Nat.strongRecOn with
  | ind n ih =>
    rw [Nat.toDigits_eq_if hb] at hc
    split_ifs at hc with hn
    · exact ⟨n, hn, List.mem_singleton.1 hc⟩
    · rcases List.mem_append.1 hc with hc | hc
      · exact ih (n / b) (Nat.div_lt_self (by omega) hb) hc
      · exact ⟨n % b, Nat.mod_lt n (by omega), List.mem_singleton.1 hc⟩

theorem toList_toString_nat (n : Nat) : (toString n).toList = Nat.toDigits 10 n := Nat.toList_repr

theorem isDigit_of_mem_toString {n : Nat} {c : Char} (hc : c ∈ (toString n).toList) :
    c.isDigit = true := by
  rw [toList_toString_nat] at hc
  exact Nat.isDigit_of_mem_toDigits (by decide) (by decide) hc

theorem toString_nat_injective : Function.Injective (toString : Nat → String) := by
  intro m n h
  have hlist := congrArg String.toList h
  rw [toList_toString_nat, toList_toString_nat] at hlist
  exact toDigits_inj (by decide) (by decide) hlist

theorem legible_nat : Legible (fun c => c.isDigit = false) (toString : Nat → String) :=
  legible_of_class Char.isDigit (fun _ _ => isDigit_of_mem_toString) toString_nat_injective

def isIntChar (c : Char) : Bool := c.isDigit || c == '-'

theorem toString_ofNat (n : Nat) : toString (Int.ofNat n) = toString n := rfl

theorem toList_toString_negSucc (n : Nat) :
    (toString (Int.negSucc n)).toList = '-' :: (toString (n + 1)).toList := by
  have htext : toString (Int.negSucc n) = "-" ++ toString (n + 1) := rfl
  rw [htext, String.toList_append]
  rfl

theorem toString_int_ne_nil (z : Int) : (toString z).toList ≠ [] := by
  cases z with
  | ofNat n =>
    rw [toString_ofNat, toList_toString_nat]
    exact Nat.toDigits_ne_nil
  | negSucc n =>
    rw [toList_toString_negSucc]
    exact List.cons_ne_nil _ _

theorem isIntChar_of_mem_toString {z : Int} {c : Char} (hc : c ∈ (toString z).toList) :
    isIntChar c = true := by
  cases z with
  | ofNat n =>
    rw [toString_ofNat] at hc
    simp [isIntChar, isDigit_of_mem_toString hc]
  | negSucc n =>
    rw [toList_toString_negSucc] at hc
    rcases List.mem_cons.1 hc with rfl | hc
    · rfl
    · simp [isIntChar, isDigit_of_mem_toString hc]

theorem toString_nat_ne_minus (n : Nat) (rest rest' : List Char) :
    (toString n).toList ++ rest ≠ '-' :: rest' := by
  intro h
  cases hn : (toString n).toList with
  | nil =>
    rw [toList_toString_nat] at hn
    exact Nat.toDigits_ne_nil hn
  | cons c cs =>
    rw [hn] at h
    obtain rfl : c = '-' := (List.cons.inj h).1
    exact absurd (isDigit_of_mem_toString (hn ▸ List.mem_cons_self)) (by decide)

/-- The sign stands in front of a number, so another dash may follow it. -/
theorem legible_int : Legible (fun c => c.isDigit = false) (toString : Int → String) := by
  intro a b rest rest' hrest hrest' h
  cases a with
  | ofNat m =>
    cases b with
    | ofNat n =>
      obtain ⟨hmn, hrests⟩ := legible_nat m n rest rest' hrest hrest' h
      exact ⟨congrArg Int.ofNat hmn, hrests⟩
    | negSucc n =>
      rw [toString_ofNat, toList_toString_negSucc] at h
      exact absurd h (toString_nat_ne_minus m rest _)
  | negSucc m =>
    cases b with
    | ofNat n =>
      rw [toString_ofNat, toList_toString_negSucc] at h
      exact absurd h.symm (toString_nat_ne_minus n rest' _)
    | negSucc n =>
      rw [toList_toString_negSucc, toList_toString_negSucc] at h
      obtain ⟨hmn, hrests⟩ := legible_nat _ _ rest rest' hrest hrest' (List.cons.inj h).2
      exact ⟨congrArg Int.negSucc (Nat.succ.inj hmn), hrests⟩

end Numbers

section Lists

variable {α : Type} {stop : Char → Prop} {write : α → String}

theorem Legible.joined (h : Legible stop write) {c : Char} (hc : stop c)
    (hitem : ∀ a, ∃ ds, (write a).toList = c :: ds) :
    Legible (fun d => stop d ∧ d ≠ c) fun as : List α => String.join (as.map write) := by
  have hends : ∀ (as : List α) rest, Ends (fun d => stop d ∧ d ≠ c) rest →
      Ends stop ((String.join (as.map write)).toList ++ rest) := by
    intro as rest hrest
    cases as with
    | nil => exact fun d hd => (hrest d hd).1
    | cons a as =>
      obtain ⟨ds, hds⟩ := hitem a
      rw [List.map_cons, String.join_cons, String.toList_append, hds]
      exact ends_cons hc
  have hother : ∀ (a : α) (as : List α) (rest rest' : List Char),
      Ends (fun d => stop d ∧ d ≠ c) rest →
      rest ≠ (String.join ((a :: as).map write)).toList ++ rest' := by
    intro a as rest rest' hrest heq
    obtain ⟨ds, hds⟩ := hitem a
    rw [List.map_cons, String.join_cons, String.toList_append, hds] at heq
    exact (hrest c (by rw [heq]; rfl)).2 rfl
  intro as bs rest rest' hrest hrest' htext
  induction as generalizing bs with
  | nil =>
    cases bs with
    | nil => exact ⟨rfl, htext⟩
    | cons b bs => exact absurd htext (hother b bs rest rest' hrest)
  | cons a as ih =>
    cases bs with
    | nil => exact absurd htext.symm (hother a as rest' rest hrest')
    | cons b bs =>
      simp only [List.map_cons, String.join_cons, String.toList_append, List.append_assoc] at htext
      obtain ⟨hab, htext⟩ := h a b _ _ (hends as rest hrest) (hends bs rest' hrest') htext
      obtain ⟨has, hrests⟩ := ih bs htext
      exact ⟨by rw [hab, has], hrests⟩

end Lists

section Quotes

theorem hexDigits_inj {m n : Nat} {rest rest' : List Char}
    (h : Nat.toDigits 16 m ++ '\x7d' :: rest = Nat.toDigits 16 n ++ '\x7d' :: rest') :
    m = n ∧ rest = rest' := by
  have hbrace : ∀ k, '\x7d' ∉ Nat.toDigits 16 k := by
    intro k hc
    obtain ⟨j, hj, hdigit⟩ := mem_toDigits (by decide) hc
    have hall : ∀ j < 16, '\x7d' ≠ Nat.digitChar j := by decide
    exact hall j hj hdigit
  obtain ⟨hdigits, hrest⟩ := cut_first (hbrace m) (hbrace n) h
  exact ⟨toDigits_inj (by decide) (by decide) hdigits, hrest⟩

def marks : List (Char × Char) :=
  [('0', Char.ofNat 0), ('t', '\t'), ('r', '\r'), ('n', '\n'), ('"', '"'), ('\\', '\\')]

/-- A character stands for itself, has a mark, or is given by its code point. -/
inductive QuotedAs (c : Char) : List Char → Prop
  | itself : c ≠ '"' → c ≠ '\\' → QuotedAs c [c]
  | mark (m : Char) : (m, c) ∈ marks → QuotedAs c ['\\', m]
  | code : QuotedAs c ('\\' :: 'u' :: '\x7b' :: (Nat.toDigits 16 c.toNat ++ ['\x7d']))

theorem quotedAs_quotedChar (c : Char) : QuotedAs c (quotedChar c) := by
  unfold quotedChar
  split_ifs with h0 ht hr hn hq hb hinv
  · exact .mark '0' (by simp [marks, h0])
  · exact .mark 't' (by simp [marks, ht])
  · exact .mark 'r' (by simp [marks, hr])
  · exact .mark 'n' (by simp [marks, hn])
  · exact .mark '"' (by simp [marks, hq])
  · exact .mark '\\' (by simp [marks, hb])
  · exact .code
  · exact .itself hq hb

theorem marks_inj : ∀ x ∈ marks, ∀ y ∈ marks, x.1 = y.1 → x.2 = y.2 := by decide

theorem marks_ne_code : ∀ x ∈ marks, x.1 ≠ 'u' := by decide

theorem QuotedAs.inj {c d : Char} {cs ds rest rest' : List Char} (hc : QuotedAs c cs)
    (hd : QuotedAs d ds) (h : cs ++ rest = ds ++ rest') : c = d ∧ rest = rest' := by
  cases hc with
  | itself _ hc =>
    cases hd with
    | itself _ _ => exact List.cons.inj h
    | mark m _ => exact absurd (List.cons.inj h).1 hc
    | code => exact absurd (List.cons.inj h).1 hc
  | mark m hm =>
    cases hd with
    | itself _ hd => exact absurd (List.cons.inj h).1.symm hd
    | mark m' hm' =>
      obtain ⟨hmark, hrest⟩ := List.cons.inj (List.cons.inj h).2
      exact ⟨marks_inj _ hm _ hm' hmark, hrest⟩
    | code => exact absurd (List.cons.inj (List.cons.inj h).2).1 (marks_ne_code _ hm)
  | code =>
    cases hd with
    | itself _ hd => exact absurd (List.cons.inj h).1.symm hd
    | mark m hm => exact absurd (List.cons.inj (List.cons.inj h).2).1.symm (marks_ne_code _ hm)
    | code =>
      simp only [List.cons_append, List.append_assoc, List.cons.injEq, true_and,
        List.nil_append] at h
      obtain ⟨hcode, hrest⟩ := hexDigits_inj h
      exact ⟨Char.toNat_inj.1 hcode, hrest⟩

theorem QuotedAs.ne_quote {c : Char} {cs : List Char} (h : QuotedAs c cs) (rest rest' : List Char) :
    cs ++ rest ≠ '"' :: rest' := by
  intro heq
  cases h with
  | itself hc _ => exact hc (List.cons.inj heq).1
  | mark m _ => exact absurd (List.cons.inj heq).1 (by decide)
  | code => exact absurd (List.cons.inj heq).1 (by decide)

theorem quotedChars_inj (cs ds rest rest' : List Char)
    (h : cs.flatMap quotedChar ++ '"' :: rest = ds.flatMap quotedChar ++ '"' :: rest') :
    cs = ds ∧ rest = rest' := by
  induction cs generalizing ds with
  | nil =>
    cases ds with
    | nil => exact ⟨rfl, (List.cons.inj h).2⟩
    | cons d ds =>
      rw [List.flatMap_cons, List.append_assoc] at h
      exact absurd h.symm ((quotedAs_quotedChar d).ne_quote _ _)
  | cons c cs ih =>
    cases ds with
    | nil =>
      rw [List.flatMap_cons, List.append_assoc] at h
      exact absurd h ((quotedAs_quotedChar c).ne_quote _ _)
    | cons d ds =>
      rw [List.flatMap_cons, List.flatMap_cons, List.append_assoc, List.append_assoc] at h
      obtain ⟨hcd, h⟩ := (quotedAs_quotedChar c).inj (quotedAs_quotedChar d) h
      obtain ⟨hcs, hrest⟩ := ih ds h
      exact ⟨by rw [hcd, hcs], hrest⟩

theorem legible_quoted {stop : Char → Prop} : Legible stop quoted := by
  intro a b rest rest' _ _ h
  simp only [quoted, String.toList_ofList, List.cons_append, List.append_assoc, List.cons.injEq,
    true_and, List.nil_append] at h
  obtain ⟨hab, hrest⟩ := quotedChars_inj _ _ _ _ h
  exact ⟨String.toList_inj.1 hab, hrest⟩

end Quotes

end LinkClosure.Text
