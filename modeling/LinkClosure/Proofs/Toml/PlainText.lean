import LinkClosure.Proofs.Text.Separated
import LinkClosure.Proofs.Toml.Numerals
import LinkClosure.Toml.Reader
import Mathlib.Data.List.TakeWhile

/-!
# Plain documents

A plain document is made of sections: a header with a bare key, and lines that
give scalar words to bare keys. Such a document is read back as it was written.
Each part of it is read up to the character that ends it: a word up to the end of
its line, a key up to a blank or a bracket, a statement up to the next line. The
reader's count of lines does not run out, because every line has a character.
-/

set_option autoImplicit false

namespace LinkClosure.Toml

section Classes

variable {p : Char → Bool} {cs rest : List Char}

theorem span_class (hcs : ∀ c ∈ cs, p c = true) {d : Char} (hd : p d = false) (rest : List Char) :
    (cs ++ d :: rest).takeWhile p = cs ∧ (cs ++ d :: rest).dropWhile p = d :: rest := by
  have hout : ¬ p d = true := by simp [hd]
  rw [List.takeWhile_append_of_pos hcs, List.dropWhile_append_of_pos hcs,
    List.takeWhile_cons_of_neg hout, List.dropWhile_cons_of_neg hout, List.append_nil]
  exact ⟨rfl, rfl⟩

theorem skipBlanks_of_class (hspace : p ' ' = false) (htab : p '\t' = false) (hne : cs ≠ [])
    (hcs : ∀ c ∈ cs, p c = true) : skipBlanks (cs ++ rest) = cs ++ rest := by
  obtain ⟨c, cs, rfl⟩ := List.exists_cons_of_ne_nil hne
  have hc : p c = true := hcs c List.mem_cons_self
  apply List.dropWhile_cons_of_neg
  simp only [isBlank, Bool.or_eq_true, beq_iff_eq, not_or]
  constructor <;> rintro rfl <;> simp_all

end Classes

section Words

variable {word rest ds : List Char} {n : Node} {fuel depth : Nat}

structure ScalarWord (word : List Char) (n : Node) : Prop where
  chars : ∀ c ∈ word, isWordChar c = true
  value : word? word = some n

theorem scalarWord_true : ScalarWord "true".toList (.boolean true) :=
  ⟨List.all_eq_true.1 rfl, rfl⟩

theorem scalarWord_false : ScalarWord "false".toList (.boolean false) :=
  ⟨List.all_eq_true.1 rfl, rfl⟩

theorem ScalarWord.ne_nil (h : ScalarWord word n) : word ≠ [] := by
  rintro rfl
  have hnone : word? [] = none := by rfl
  cases hnone.symm.trans h.value

theorem ScalarWord.scalar? (h : ScalarWord word n) :
    scalar? (word ++ '\n' :: rest) = some (n, '\n' :: rest) := by
  obtain ⟨hword, hrest⟩ := span_class h.chars (by decide : isWordChar '\n' = false) rest
  simp only [Toml.scalar?, hword, hrest, h.value]
  rw [if_neg (by simp)]
  rfl

theorem ScalarWord.value? (h : ScalarWord word n) (hfuel : 0 < fuel) :
    value? fuel depth (word ++ '\n' :: rest) = some (n, '\n' :: rest) := by
  obtain ⟨fuel, rfl⟩ := Nat.exists_eq_add_of_lt hfuel
  obtain ⟨c, cs, rfl⟩ := List.exists_cons_of_ne_nil h.ne_nil
  have hc : isWordChar c = true := h.chars c List.mem_cons_self
  have hscalar : Toml.scalar? (c :: cs ++ '\n' :: rest) = some (n, '\n' :: rest) := h.scalar?
  rw [List.cons_append] at hscalar ⊢
  rw [Toml.value?, hscalar]
  · rw [if_neg]
    simp only [List.head?_cons, Bool.or_eq_true, beq_iff_eq, Option.some.injEq, not_or]
    constructor <;> rintro rfl <;> exact absurd hc (by decide)
  all_goals
    rintro rest' heq
    rw [(List.cons.inj heq).1] at hc
    exact absurd hc (by decide)

section Digits

variable (hds : ∀ c ∈ ds, c.isDigit = true)

include hds

theorem ne_of_digits {cs : List Char} {c : Char} (hc : c ∈ cs) (hno : c.isDigit = false) :
    ds ≠ cs := by
  rintro rfl
  rw [hds c hc] at hno
  cases hno

theorem afterDate?_digits : afterDate? ds = none := by
  rw [afterDate?]
  intro a b c d e f g h rest
  exact ne_of_digits hds (c := '-') (by simp) (by decide)

theorem afterTime?_digits : afterTime? ds = none := by
  rw [afterTime?]
  intro a b c d e f rest
  exact ne_of_digits hds (c := ':') (by simp) (by decide)

theorem datetime?_digits : datetime? ds = none := by
  rw [datetime?, isDatetime, afterDate?_digits hds, afterTime?_digits hds]
  rfl

theorem signed_digits : signed ds = (false, ds) := by
  rw [signed]
  · intro rest
    exact ne_of_digits hds (c := '+') (by simp) (by decide)
  · intro rest
    exact ne_of_digits hds (c := '-') (by simp) (by decide)

theorem float?_digits : float? ds = none := by
  have hrest : ds.dropWhile isDecimalChar = [] := by
    rw [List.dropWhile_eq_nil_iff]
    intro c hc
    simp [isDecimalChar, hds c hc]
  have hfinite : isFiniteFloat ds = false := by
    simp only [isFiniteFloat, signed_digits hds, hrest]
    rfl
  have hinf : ds ≠ ['i', 'n', 'f'] := ne_of_digits hds (c := 'i') (by simp) (by decide)
  have hnan : ds ≠ ['n', 'a', 'n'] := ne_of_digits hds (c := 'n') (by simp) (by decide)
  simp [float?, signed_digits hds, hfinite, hinf, hnan]

theorem digits?_digits (hne : ds ≠ []) : digits? Char.isDigit ds = some ds := by
  induction ds with
  | nil => exact absurd rfl hne
  | cons c ds ih =>
    obtain ⟨hc, hds⟩ := List.forall_mem_cons.1 hds
    cases ds with
    | nil => rw [digits?, if_pos hc]
    | cons d ds =>
      rw [digits?, if_pos hc, ih hds (List.cons_ne_nil d ds)]
      · rfl
      · exact List.cons_ne_nil d ds
      · intro rest
        exact ne_of_digits hds (c := '_') (by simp) (by decide)

end Digits

theorem toDigits_ne_zero_cons (n : Nat) (c : Char) (cs : List Char) :
    Nat.toDigits 10 n ≠ '0' :: c :: cs := by
  intro h
  have hds : ∀ d ∈ c :: cs, d.isDigit = true := by
    intro d hd
    apply Nat.isDigit_of_mem_toDigits (b := 10) (n := n) (by decide) (by decide)
    rw [h]
    exact List.mem_cons_of_mem _ hd
  have hvalue : natOfDigits 10 (c :: cs) = n := by
    rw [← natOfDigits_toDigits n, h]
    rfl
  obtain ⟨zeros, hzeros⟩ := exists_zeros_append (List.cons_ne_nil c cs) hds
  rw [hvalue, h] at hzeros
  have hlength := congrArg List.length hzeros
  simp at hlength
  omega

theorem isDigit_of_mem_decimal {n : Nat} : ∀ c ∈ Nat.toDigits 10 n, c.isDigit = true :=
  fun _ hc => Nat.isDigit_of_mem_toDigits (by decide) (by decide) hc

theorem decimal?_toDigits (n : Nat) : decimal? (Nat.toDigits 10 n) = some (Nat.toDigits 10 n) := by
  rw [decimal?, digits?_digits isDigit_of_mem_decimal Nat.toDigits_ne_nil]
  exact toDigits_ne_zero_cons n

theorem integerValue?_toDigits (n : Nat) : integerValue? (Nat.toDigits 10 n) = some (n : Int) := by
  have hds := isDigit_of_mem_decimal (n := n)
  rw [integerValue?]
  · simp only [signed_digits hds, decimal?_toDigits, Option.map_some, natOfDigits_toDigits]
    rfl
  · intro rest
    exact ne_of_digits hds (c := 'x') (by simp) (by decide)
  · intro rest
    exact ne_of_digits hds (c := 'o') (by simp) (by decide)
  · intro rest
    exact ne_of_digits hds (c := 'b') (by simp) (by decide)

theorem scalarWord_toDigits {n : Nat} (hn : n ≤ 9223372036854775807) :
    ScalarWord (Nat.toDigits 10 n) (.integer n) := by
  have hds := isDigit_of_mem_decimal (n := n)
  constructor
  · intro c hc
    simp [isWordChar, Char.isAlphanum, hds c hc]
  · have htrue : Nat.toDigits 10 n ≠ ['t', 'r', 'u', 'e'] :=
      ne_of_digits hds (c := 't') (by simp) (by decide)
    have hfalse : Nat.toDigits 10 n ≠ ['f', 'a', 'l', 's', 'e'] :=
      ne_of_digits hds (c := 'f') (by simp) (by decide)
    have hinteger : integer? (Nat.toDigits 10 n) = some (.integer n) := by
      rw [integer?, integerValue?_toDigits, Option.bind_some, if_pos (by omega)]
    simp [word?, htrue, hfalse, datetime?_digits hds, float?_digits hds, hinteger]

end Words

section Keys

variable {key : String} {d c : Char} {cs rest : List Char}

def BareKey (key : String) : Prop := key.toList ≠ [] ∧ ∀ c ∈ key.toList, isBareKeyChar c = true

instance : DecidablePred BareKey := fun key =>
  decidable_of_iff ((!key.toList.isEmpty && key.toList.all isBareKeyChar) = true)
    (by simp [BareKey])

theorem BareKey.skipBlanks (h : BareKey key) :
    skipBlanks (key.toList ++ rest) = key.toList ++ rest :=
  skipBlanks_of_class (by decide) (by decide) h.1 h.2

theorem BareKey.exists_cons (h : BareKey key) :
    ∃ c cs, key.toList = c :: cs ∧ isBareKeyChar c = true ∧
      ∀ d, isBareKeyChar d = false → c ≠ d := by
  obtain ⟨c, cs, hcs⟩ := List.exists_cons_of_ne_nil h.1
  have hc : isBareKeyChar c = true := h.2 c (hcs ▸ List.mem_cons_self)
  refine ⟨c, cs, hcs, hc, ?_⟩
  rintro d hd rfl
  rw [hc] at hd
  cases hd

theorem BareKey.keyPart? (h : BareKey key) (hd : isBareKeyChar d = false) :
    keyPart? (key.toList ++ d :: rest) = some (key, d :: rest) := by
  obtain ⟨hkey, hrest⟩ := span_class h.2 hd rest
  obtain ⟨c, cs, hcs, hc, hother⟩ := h.exists_cons
  have hdouble : c ≠ '"' := hother _ (by decide)
  have hsingle : c ≠ singleQuote := hother _ (by decide)
  rw [hcs, List.cons_append] at hkey hrest ⊢
  simp only [Toml.keyPart?, beq_iff_eq, hdouble, hsingle, if_false, hc, if_true, hkey, hrest]
  rw [← hcs, String.ofList_toList]

theorem BareKey.key? (h : BareKey key) (hd : isBareKeyChar d = false)
    (hrest : Toml.skipBlanks (d :: rest) = c :: cs) (hc : c ≠ '.') :
    key? (key.toList ++ d :: rest) = some (([], key), c :: cs) := by
  have hparts : keyParts? (nestingLimit - 1) (key.toList ++ d :: rest) = some ([key], c :: cs) := by
    show keyParts? (78 + 1) _ = _
    rw [keyParts?, h.skipBlanks, h.keyPart? hd]
    simp only [Option.bind_eq_bind, Option.bind_some, hrest]
    split
    · next heq => exact absurd (List.cons.inj heq).1 hc
    · rfl
  rw [Toml.key?, hparts]
  rfl

end Keys

section Lines

variable {key word : String} {n : Node} {cs rest : List Char} {s : Statement} {ss : List Statement}

theorem lineEnd?_newline : lineEnd? ('\n' :: rest) = some rest := rfl

theorem statement?_assignment (hkey : BareKey key) (hword : ScalarWord word.toList n) :
    statement? (key.toList ++ ' ' :: '=' :: ' ' :: (word.toList ++ '\n' :: rest)) =
      some (.assignment [] key n, rest) := by
  have hvalue : skipBlanks (' ' :: (word.toList ++ '\n' :: rest)) = word.toList ++ '\n' :: rest :=
    skipBlanks_of_class (by decide) (by decide) hword.ne_nil hword.chars
  have hassignment : assignment?
      (key.toList ++ ' ' :: '=' :: ' ' :: (word.toList ++ '\n' :: rest)) =
      some (.assignment [] key n, rest) := by
    rw [assignment?, hkey.key? (by decide) rfl (by decide)]
    simp only [Option.bind_eq_bind, Option.bind_some, hvalue]
    rw [hword.value? (List.length_pos_iff.2 (by simp))]
    simp only [Option.bind_some, lineEnd?_newline]
    rfl
  obtain ⟨c, cs, hcs, _, hother⟩ := hkey.exists_cons
  have hbracket : c ≠ '[' := hother _ (by decide)
  rw [← hassignment, hcs, List.cons_append, statement?]
  · intro rest heq
    exact hbracket (List.cons.inj heq).1
  · intro rest heq
    exact hbracket (List.cons.inj heq).1

theorem statement?_header (hkey : BareKey key) :
    statement? ('[' :: (key.toList ++ ']' :: '\n' :: rest)) = some (.header [] key, rest) := by
  have hheader : header? (key.toList ++ ']' :: '\n' :: rest) = some (.header [] key, rest) := by
    rw [header?, hkey.key? (by decide) rfl (by decide)]
    rfl
  obtain ⟨c, cs, hcs, _, hother⟩ := hkey.exists_cons
  rw [← hheader, hcs, List.cons_append, statement?]
  intro rest heq
  exact hother '[' (by decide) (List.cons.inj heq).1

/-- Read line by line, the text holds these statements. -/
def Holds (cs : List Char) (ss : List Statement) : Prop :=
  ∀ fuel, cs.length < fuel → statements? fuel cs = some ss

theorem Holds.nil : Holds [] [] := by
  intro fuel hfuel
  obtain ⟨fuel, rfl⟩ := Nat.exists_eq_add_of_lt hfuel
  rfl

theorem Holds.newline (h : Holds rest ss) : Holds ('\n' :: rest) ss := by
  intro fuel hfuel
  obtain ⟨fuel, rfl⟩ := Nat.exists_eq_add_one_of_ne_zero (Nat.ne_zero_of_lt hfuel)
  exact h fuel (by simpa using hfuel)

theorem Holds.statement (hblank : skipBlanks cs = cs) (hend : lineEnd? cs = none)
    (hs : statement? cs = some (s, rest)) (hlength : rest.length < cs.length) (h : Holds rest ss) :
    Holds cs (s :: ss) := by
  intro fuel hfuel
  obtain ⟨fuel, rfl⟩ := Nat.exists_eq_add_one_of_ne_zero (Nat.ne_zero_of_lt hfuel)
  obtain ⟨c, cs, rfl⟩ := List.exists_cons_of_length_pos (Nat.zero_lt_of_lt hlength)
  have hrest : statements? fuel rest = some ss := h fuel (by omega)
  rw [statements?, hblank]
  simp only [hend, hs, hrest, Option.bind_eq_bind, Option.bind_some]
  rfl

theorem lineEnd?_bareKey (hkey : BareKey key) : lineEnd? (key.toList ++ rest) = none := by
  have hfirst : skipBlanks (key.toList ++ rest) = key.toList ++ rest := hkey.skipBlanks
  obtain ⟨c, cs, hcs, _, hother⟩ := hkey.exists_cons
  rw [hcs, List.cons_append] at hfirst ⊢
  simp only [lineEnd?, hfirst]
  rw [if_neg (by simpa using hother '#' (by decide))]
  split
  · next heq => cases heq
  · next heq => exact absurd (List.cons.inj heq).1 (hother '\n' (by decide))
  · next heq => exact absurd (List.cons.inj heq).1 (hother '\r' (by decide))
  · rfl

end Lines

/-- A line that gives a scalar to a bare key. -/
structure PlainLine where
  key : String
  word : String
  node : Node
  bare : BareKey key
  scalar : ScalarWord word.toList node

def PlainLine.text (l : PlainLine) : String := l.key ++ " = " ++ l.word ++ "\n"

/-- A header with the lines below it, which give each key once. -/
structure PlainSection where
  name : String
  lines : List PlainLine
  bare : BareKey name
  nodup : (lines.map PlainLine.key).Nodup

namespace PlainSection

def text (s : PlainSection) : String :=
  "[" ++ s.name ++ "]\n" ++ String.join (s.lines.map PlainLine.text)

def statements (s : PlainSection) : List Statement :=
  .header [] s.name :: s.lines.map fun l => .assignment [] l.key l.node

def entry (s : PlainSection) : String × Node :=
  (s.name, .table .header (s.lines.map fun l => (l.key, l.node)))

section Reading

variable {rest : List Char} {ss : List Statement}

theorem lines_hold (ls : List PlainLine) (h : Holds rest ss) :
    Holds ((String.join (ls.map PlainLine.text)).toList ++ rest)
      ((ls.map fun l => .assignment [] l.key l.node) ++ ss) := by
  induction ls with
  | nil => exact h
  | cons l ls ih =>
    have htext : (String.join ((l :: ls).map PlainLine.text)).toList ++ rest =
        l.key.toList ++ ' ' :: '=' :: ' ' :: (l.word.toList ++ '\n' ::
          ((String.join (ls.map PlainLine.text)).toList ++ rest)) := by
      simp [PlainLine.text]
    rw [htext]
    refine Holds.statement l.bare.skipBlanks (lineEnd?_bareKey l.bare)
      (statement?_assignment l.bare l.scalar) ?_ ih
    simp only [List.length_append, List.length_cons]
    omega

theorem text_holds (s : PlainSection) (h : Holds rest ss) :
    Holds (s.text.toList ++ rest) (s.statements ++ ss) := by
  have htext : s.text.toList ++ rest = '[' :: (s.name.toList ++ ']' :: '\n' ::
      ((String.join (s.lines.map PlainLine.text)).toList ++ rest)) := by
    simp [text]
  rw [htext]
  refine Holds.statement rfl rfl (statement?_header s.bare) ?_ (lines_hold s.lines h)
  simp only [List.length_append, List.length_cons]
  omega

theorem document_holds (sections : List PlainSection) :
    Holds ("\n".intercalate (sections.map text)).toList (sections.flatMap statements) := by
  induction sections with
  | nil => exact Holds.nil
  | cons s sections ih =>
    rw [Text.toList_intercalate_cons, List.flatMap_cons]
    apply s.text_holds
    cases sections with
    | nil => exact Holds.nil
    | cons t sections => exact Holds.newline ih

end Reading

section Assembling

variable {root sub : Entries} {current : List String} {name key : String} {n m : Node}

theorem add_header (hname : root.lookup name = none) :
    Assembly.add ⟨root, current⟩ (.header [] name) =
      some ⟨root ++ [(name, .table .header [])], [name]⟩ := by
  simp [Assembly.add, atHeader, descend, openTable, hname]

theorem replace_last (hname : root.lookup name = none) :
    replace name n (root ++ [(name, m)]) = root ++ [(name, n)] := by
  have hroot : root.map (fun e => if e.1 == name then (name, n) else e) = root.map id := by
    apply List.map_congr_left
    intro e he
    have hne : name ≠ e.1 := by simpa using List.lookup_eq_none_iff.1 hname e he
    rw [if_neg (by simpa using hne.symm), id]
  rw [replace, List.map_append, hroot, List.map_id]
  simp

theorem add_assignment (hname : root.lookup name = none) (hkey : sub.lookup key = none) :
    Assembly.add ⟨root ++ [(name, .table .header sub)], [name]⟩ (.assignment [] key n) =
      some ⟨root ++ [(name, .table .header (sub ++ [(key, n)]))], [name]⟩ := by
  simp [Assembly.add, atHeader, descend, assign, insertNew, List.lookup_append, hname, hkey,
    replace_last]

theorem lookup_append_single {entries : Entries} (h : entries.lookup key = none)
    (hne : key ≠ name) :
    (entries ++ [(name, n)]).lookup key = none := by
  rw [List.lookup_append, h, Option.none_or, List.lookup_cons, beq_false_of_ne hne]
  rfl

theorem add_lines (ls : List PlainLine) (hname : root.lookup name = none)
    (hnew : ∀ l ∈ ls, sub.lookup l.key = none) (hnodup : (ls.map PlainLine.key).Nodup) :
    (ls.map fun l => .assignment [] l.key l.node).foldlM Assembly.add
        ⟨root ++ [(name, .table .header sub)], [name]⟩ =
      some ⟨root ++ [(name, .table .header (sub ++ ls.map fun l => (l.key, l.node)))], [name]⟩ := by
  -- By induction on the lines, for any table that has been filled so far.
  induction ls generalizing sub with
  | nil => simp
  | cons l ls ih =>
    obtain ⟨hfirst, hlater⟩ := List.forall_mem_cons.1 hnew
    obtain ⟨hfresh, hnodup⟩ := List.nodup_cons.1 hnodup
    have hrest : ∀ k ∈ ls, (sub ++ [(l.key, l.node)]).lookup k.key = none := by
      intro k hk
      apply lookup_append_single (hlater k hk)
      intro heq
      exact hfresh (heq ▸ List.mem_map_of_mem hk)
    rw [List.map_cons, List.foldlM_cons, add_assignment hname hfirst]
    simp [ih hrest hnodup]

theorem add_statements (s : PlainSection) (hname : root.lookup s.name = none) :
    s.statements.foldlM Assembly.add ⟨root, current⟩ = some ⟨root ++ [s.entry], [s.name]⟩ := by
  rw [statements, List.foldlM_cons, add_header hname]
  exact add_lines s.lines hname (by simp) s.nodup

theorem add_sections (sections : List PlainSection)
    (hnew : ∀ s ∈ sections, root.lookup s.name = none)
    (hnodup : (sections.map PlainSection.name).Nodup) :
    ((sections.flatMap statements).foldlM Assembly.add ⟨root, current⟩).map Assembly.root =
      some (root ++ sections.map entry) := by
  induction sections generalizing root current with
  | nil => simp
  | cons s sections ih =>
    obtain ⟨hfirst, hlater⟩ := List.forall_mem_cons.1 hnew
    obtain ⟨hfresh, hnodup⟩ := List.nodup_cons.1 hnodup
    have hrest : ∀ t ∈ sections, (root ++ [s.entry]).lookup t.name = none := by
      intro t ht
      apply lookup_append_single (hlater t ht)
      intro heq
      exact hfresh (heq ▸ List.mem_map_of_mem ht)
    rw [List.flatMap_cons, List.foldlM_append, s.add_statements hfirst]
    simp [ih hrest hnodup]

end Assembling

/-- A document whose sections have different names is read as it was written. -/
theorem read?_document (sections : List PlainSection)
    (hnodup : (sections.map PlainSection.name).Nodup) :
    read? ("\n".intercalate (sections.map text)) = some (sections.map entry) := by
  have hmark : dropMark ("\n".intercalate (sections.map text)).toList =
      ("\n".intercalate (sections.map text)).toList := by
    cases sections with
    | nil => rfl
    | cons s sections =>
      rw [Text.toList_intercalate_cons]
      simp [text, dropMark]
  rw [read?, hmark, document_holds sections _ (Nat.lt_succ_self _), Option.bind_some, assemble]
  exact add_sections sections (by simp) hnodup

end PlainSection

end LinkClosure.Toml
