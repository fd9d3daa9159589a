import LinkClosure.Proofs.Toml.Numerals
import LinkClosure.Settings.Layers
import Mathlib.Data.List.TakeWhile
import Mathlib.Data.Nat.Find

/-!
# Settings from layers

Each key has the value of the highest layer that sets it, and what the lower
layers say of it does not matter then. What goes wrong in a lower layer does
matter: the project file comes first, then the variables one after the other, and
only what they come to with the overrides is checked for a capacity of zero. The
first failure in this order is the one that is reported.

The texts of variables are described by what they stand for: a truth value or the
digits of a number, between white space.
-/

set_option autoImplicit false

namespace LinkClosure

namespace Text

variable {before core after : List Char}

theorem dropWhile_white_append (hbefore : ∀ c ∈ before, isWhiteSpace c = true)
    (hcore : ∀ c ∈ core, isWhiteSpace c = false) (hne : core ≠ []) :
    (before ++ (core ++ after)).dropWhile isWhiteSpace = core ++ after := by
  rw [List.dropWhile_append_of_pos hbefore]
  obtain ⟨c, cs, rfl⟩ := List.exists_cons_of_ne_nil hne
  apply List.dropWhile_cons_of_neg
  simp [hcore c List.mem_cons_self]

theorem trim_append (hbefore : ∀ c ∈ before, isWhiteSpace c = true)
    (hafter : ∀ c ∈ after, isWhiteSpace c = true)
    (hcore : ∀ c ∈ core, isWhiteSpace c = false) (hne : core ≠ []) :
    trim (before ++ core ++ after) = core := by
  have hback : (after.reverse ++ (core.reverse ++ [])).dropWhile isWhiteSpace = core.reverse ++ [] :=
    dropWhile_white_append (by simpa using hafter) (by simpa using hcore) (by simpa using hne)
  rw [List.append_nil] at hback
  rw [trim, List.append_assoc, dropWhile_white_append hbefore hcore hne, List.reverse_append, hback,
    List.reverse_reverse]

theorem exists_trim (cs : List Char) : ∃ before after, cs = before ++ trim cs ++ after ∧
    ∀ c ∈ before ++ after, isWhiteSpace c = true := by
  have hfront := List.takeWhile_append_dropWhile (p := isWhiteSpace) (l := cs)
  have hback := List.takeWhile_append_dropWhile (p := isWhiteSpace)
    (l := (cs.dropWhile isWhiteSpace).reverse)
  refine ⟨cs.takeWhile isWhiteSpace,
    ((cs.dropWhile isWhiteSpace).reverse.takeWhile isWhiteSpace).reverse, ?_, ?_⟩
  · rw [trim, List.append_assoc, ← List.reverse_append, hback, List.reverse_reverse, hfront]
  · intro c hc
    rw [List.mem_append, List.mem_reverse] at hc
    exact hc.elim (fun h => List.mem_takeWhile_imp h) fun h => List.mem_takeWhile_imp h

end Text

namespace Settings

def SpellsFlag (cs : List Char) (b : Bool) : Prop := cs = (flagText b).toList

/-- A 64-bit word by its decimal digits, with zeros in front or a plus sign before it all. -/
def SpellsWord (cs : List Char) (n : Nat) : Prop :=
  n ≤ 18446744073709551615 ∧ ∃ zeros, cs = List.replicate zeros '0' ++ (toString n).toList ∨
    cs = '+' :: (List.replicate zeros '0' ++ (toString n).toList)

section Spelling

variable {cs : List Char} {b : Bool} {n : Nat}

theorem readFlag?_eq_some : readFlag? cs = some b ↔ SpellsFlag cs b := by
  rw [readFlag?, SpellsFlag]
  split_ifs with htrue hfalse
  · subst htrue
    cases b <;> decide
  · subst hfalse
    cases b <;> decide
  · cases b <;> simp_all [flagText]

theorem unsigned_eq_iff {ds : List Char} (hds : ∀ c ∈ ds, c.isDigit = true) :
    (if cs.head? = some '+' then cs.tail else cs) = ds ↔ cs = ds ∨ cs = '+' :: ds := by
  have hsign : '+' :: cs.tail ≠ ds := by
    rintro rfl
    exact absurd (hds '+' List.mem_cons_self) (by decide)
  split_ifs with hhead
  · obtain ⟨ds', rfl⟩ := List.head?_eq_some_iff.1 hhead
    simpa using fun h => absurd h hsign
  · constructor
    · exact .inl
    · rintro (h | rfl)
      · exact h
      · exact absurd rfl hhead

theorem readWord?_eq_some : readWord? cs = some n ↔ SpellsWord cs n := by
  have hread : readWord? cs = some n ↔ n ≤ 18446744073709551615 ∧
      ∃ zeros, (if cs.head? = some '+' then cs.tail else cs) =
        List.replicate zeros '0' ++ Nat.toDigits 10 n := by
    rw [← Toml.numeral_iff, readWord?]
    simp only [Bool.and_eq_true, Bool.not_eq_true', List.isEmpty_eq_false_iff, List.all_eq_true,
      decide_eq_true_eq, Option.ite_none_right_eq_some, Option.some.injEq]
    constructor
    · rintro ⟨⟨⟨hne, hds⟩, hbound⟩, rfl⟩
      exact ⟨hbound, hne, hds, rfl⟩
    · rintro ⟨hbound, hne, hds, rfl⟩
      exact ⟨⟨⟨hne, hds⟩, hbound⟩, rfl⟩
  rw [hread, SpellsWord, Text.toList_toString_nat]
  refine and_congr_right fun _ => exists_congr fun zeros => ?_
  exact unsigned_eq_iff (Toml.numeral_iff.2 ⟨zeros, rfl⟩).2.1

theorem SpellsFlag.plain (h : SpellsFlag cs b) :
    cs ≠ [] ∧ ∀ c ∈ cs, Text.isWhiteSpace c = false := by
  subst h
  cases b <;> simp [flagText, Text.isWhiteSpace]

theorem SpellsWord.plain (h : SpellsWord cs n) :
    cs ≠ [] ∧ ∀ c ∈ cs, Text.isWhiteSpace c = false := by
  have hdigit : ∀ c : Char, c.isDigit = true → Text.isWhiteSpace c = false := by
    intro c hc
    obtain ⟨k, hk, rfl⟩ := Toml.exists_digitChar hc
    have hall : ∀ k < 10, Text.isWhiteSpace (Nat.digitChar k) = false := by decide
    exact hall k hk
  obtain ⟨_, zeros, hcs⟩ := h
  rw [Text.toList_toString_nat] at hcs
  obtain ⟨hne, hds, _⟩ := Toml.numeral_iff (n := n).2 ⟨zeros, rfl⟩
  rcases hcs with rfl | rfl
  · exact ⟨hne, fun c hc => hdigit c (hds c hc)⟩
  · refine ⟨List.cons_ne_nil _ _, List.forall_mem_cons.2 ⟨by decide, ?_⟩⟩
    exact fun c hc => hdigit c (hds c hc)

end Spelling

inductive Key
  | cacheEnabled
  | cacheMaxEntries
  | eagerClosure
  | logRejections

namespace Key

abbrev Value : Key → Type
  | cacheMaxEntries => Nat
  | _ => Bool

def variableName : Key → String
  | cacheEnabled => "LINKVARS_CACHE_ENABLED"
  | cacheMaxEntries => "LINKVARS_CACHE_MAX_ENTRIES"
  | eagerClosure => "LINKVARS_ENGINE_EAGER_CLOSURE"
  | logRejections => "LINKVARS_ENGINE_LOG_REJECTIONS"

def turn : Key → Nat
  | cacheEnabled => 0
  | cacheMaxEntries => 1
  | eagerClosure => 2
  | logRejections => 3

def Spells : (k : Key) → List Char → k.Value → Prop
  | cacheEnabled | eagerClosure | logRejections => SpellsFlag
  | cacheMaxEntries => SpellsWord

/-- The text says this value, between white space. -/
def Denotes (k : Key) (text : String) (v : k.Value) : Prop :=
  ∃ before core after, text.toList = before ++ core ++ after ∧
    (∀ c ∈ before ++ after, Text.isWhiteSpace c = true) ∧ k.Spells core v

def read? : (k : Key) → List Char → Option k.Value
  | cacheEnabled | eagerClosure | logRejections => readFlag?
  | cacheMaxEntries => readWord?

variable {k : Key} {cs : List Char} {text : String} {v : k.Value}

theorem read?_eq_some : k.read? cs = some v ↔ k.Spells cs v := by
  cases k
  case cacheMaxEntries => exact readWord?_eq_some
  all_goals exact readFlag?_eq_some

theorem Spells.plain (h : k.Spells cs v) : cs ≠ [] ∧ ∀ c ∈ cs, Text.isWhiteSpace c = false := by
  cases k
  case cacheMaxEntries => exact SpellsWord.plain h
  all_goals exact SpellsFlag.plain h

theorem read?_trim : k.read? (Text.trim text.toList) = some v ↔ k.Denotes text v := by
  rw [read?_eq_some]
  constructor
  · intro h
    obtain ⟨before, after, htext, hwhite⟩ := Text.exists_trim text.toList
    exact ⟨before, _, after, htext, hwhite, h⟩
  · rintro ⟨before, core, after, htext, hwhite, h⟩
    obtain ⟨hbefore, hafter⟩ := List.forall_mem_append.1 hwhite
    obtain ⟨hne, hcore⟩ := h.plain
    rwa [htext, Text.trim_append hbefore hafter hcore hne]

end Key

def value (s : Settings) : (k : Key) → Option k.Value
  | .cacheEnabled => s.cacheEnabled
  | .cacheMaxEntries => s.cacheMaxEntries
  | .eagerClosure => s.eagerClosure
  | .logRejections => s.logRejections

section Environment

variable {environment : String → Option String} {k : Key} {v : k.Value} {text : String}
  {s : Settings} {e : SettingsError}

def Sets (environment : String → Option String) (k : Key) (v : k.Value) : Prop :=
  ∃ text, environment k.variableName = some text ∧ k.Denotes text v

/-- The variable of the key is set to a text that denotes no value. -/
def Misspells (environment : String → Option String) (k : Key) (text : String) : Prop :=
  environment k.variableName = some text ∧ ∀ v, ¬ k.Denotes text v

def misspelling (k : Key) (text : String) : SettingsError :=
  .invalidValue k.variableName ("cannot parse '" ++ text ++ "'")

def fromEnvironment (environment : String → Option String) (k : Key) :
    Except SettingsError (Option k.Value) :=
  fromVariable environment k.variableName k.read?

theorem fromEnvironment_of_unset (h : environment k.variableName = none) :
    fromEnvironment environment k = .ok none := by
  rw [fromEnvironment, fromVariable, h]

theorem fromEnvironment_of_sets (h : Sets environment k v) :
    fromEnvironment environment k = .ok (some v) := by
  obtain ⟨text, htext, hv⟩ := h
  rw [fromEnvironment, fromVariable, htext]
  simp only [Key.read?_trim.2 hv]

theorem fromEnvironment_of_misspells (h : Misspells environment k text) :
    fromEnvironment environment k = .error (misspelling k text) := by
  have hread : k.read? (Text.trim text.toList) = none := by
    apply Option.eq_none_iff_forall_ne_some.2
    intro v hv
    exact h.2 v (Key.read?_trim.1 hv)
  rw [fromEnvironment, fromVariable, h.1]
  simp only [hread, misspelling]

theorem environment_cases (environment : String → Option String) (k : Key) :
    environment k.variableName = none ∨ (∃ v, Sets environment k v) ∨
      ∃ text, Misspells environment k text := by
  cases htext : environment k.variableName with
  | none => exact .inl rfl
  | some text =>
    right
    by_cases hv : ∃ v, k.Denotes text v
    · obtain ⟨v, hv⟩ := hv
      exact .inl ⟨v, text, htext, hv⟩
    · exact .inr ⟨text, htext, not_exists.1 hv⟩

theorem fromEnvironment_total (h : ∀ text, ¬ Misspells environment k text) :
    ∃ o, fromEnvironment environment k = .ok o := by
  rcases environment_cases environment k with hunset | ⟨v, hv⟩ | ⟨text, htext⟩
  · exact ⟨none, fromEnvironment_of_unset hunset⟩
  · exact ⟨some v, fromEnvironment_of_sets hv⟩
  · exact absurd htext (h text)

theorem fromEnvironment_eq_ok {o : Option k.Value} (h : fromEnvironment environment k = .ok o) :
    o = some v ↔ Sets environment k v := by
  constructor
  · rintro rfl
    rcases environment_cases environment k with hunset | ⟨w, hw⟩ | ⟨text, htext⟩
    · rw [fromEnvironment_of_unset hunset] at h
      cases h
    · rw [fromEnvironment_of_sets hw] at h
      rwa [← Option.some.inj (Except.ok.inj h)]
    · rw [fromEnvironment_of_misspells htext] at h
      cases h
  · intro hv
    rw [fromEnvironment_of_sets hv] at h
    exact (Except.ok.inj h).symm

/-- No variable that is looked at before is misspelt. -/
def FirstMisspelt (environment : String → Option String) (k : Key) (text : String) : Prop :=
  Misspells environment k text ∧
    ∀ j, j.turn < k.turn → ∀ text, ¬ Misspells environment j text

theorem ofEnvironment_eq : ofEnvironment environment = do
    let enabled ← fromEnvironment environment .cacheEnabled
    let maxEntries ← fromEnvironment environment .cacheMaxEntries
    let eager ← fromEnvironment environment .eagerClosure
    let rejections ← fromEnvironment environment .logRejections
    return ⟨eager, rejections, enabled, maxEntries⟩ := rfl

theorem ofEnvironment_of_firstMisspelt (h : FirstMisspelt environment k text) :
    ofEnvironment environment = .error (misspelling k text) := by
  have herror := fromEnvironment_of_misspells h.1
  have hbefore : ∀ j, j.turn < k.turn → ∃ o, fromEnvironment environment j = .ok o :=
    fun j hj => fromEnvironment_total (h.2 j hj)
  rw [ofEnvironment_eq]
  cases k with
  | cacheEnabled =>
    rw [herror]
    rfl
  | cacheMaxEntries =>
    obtain ⟨a, ha⟩ := hbefore .cacheEnabled (by decide)
    rw [ha, herror]
    rfl
  | eagerClosure =>
    obtain ⟨a, ha⟩ := hbefore .cacheEnabled (by decide)
    obtain ⟨b, hb⟩ := hbefore .cacheMaxEntries (by decide)
    rw [ha, hb, herror]
    rfl
  | logRejections =>
    obtain ⟨a, ha⟩ := hbefore .cacheEnabled (by decide)
    obtain ⟨b, hb⟩ := hbefore .cacheMaxEntries (by decide)
    obtain ⟨c, hc⟩ := hbefore .eagerClosure (by decide)
    rw [ha, hb, hc, herror]
    rfl

theorem ofEnvironment_of_readable (h : ∀ k text, ¬ Misspells environment k text) :
    ∃ s, ofEnvironment environment = .ok s ∧ ∀ k v, s.value k = some v ↔ Sets environment k v := by
  have hok : ∀ k, ∃ o, fromEnvironment environment k = .ok o :=
    fun k => fromEnvironment_total (h k)
  choose o ho using hok
  refine ⟨⟨o .eagerClosure, o .logRejections, o .cacheEnabled, o .cacheMaxEntries⟩, ?_, ?_⟩
  · rw [ofEnvironment_eq, ho, ho, ho, ho]
    rfl
  · intro k v
    rw [← fromEnvironment_eq_ok (ho k)]
    cases k <;> rfl

end Environment

section Layers

variable {root : String} {file : ProjectFile} {environment : String → Option String}
  {overrides lower s : Settings} {k : Key} {e : SettingsError}

theorem ext_value {s t : Settings} (h : ∀ k, s.value k = t.value k) : s = t := by
  have heager := h .eagerClosure
  have hrejections := h .logRejections
  have henabled := h .cacheEnabled
  have hentries := h .cacheMaxEntries
  cases s
  cases t
  simp only [value] at heager hrejections henabled hentries
  rw [heager, hrejections, henabled, hentries]

theorem value_orElse (upper lower : Settings) (k : Key) :
    (upper.orElse lower).value k = (upper.value k).or (lower.value k) := by
  cases k <;> exact Option.orElse_eq_or

inductive InFile : ProjectFile → Settings → Prop
  | missing : InFile .missing unset
  | content {text : String} {s : Settings} : ofToml? text = some s → InFile (.content text) s

/-- The value of the highest layer that sets the key. -/
inductive Topmost (overrides : Settings) (environment : String → Option String) (lower : Settings)
    (k : Key) : Option k.Value → Prop
  | byOverride {v : k.Value} : overrides.value k = some v →
      Topmost overrides environment lower k (some v)
  | byVariable {v : k.Value} : overrides.value k = none → Sets environment k v →
      Topmost overrides environment lower k (some v)
  | byFile : overrides.value k = none → (∀ v, ¬ Sets environment k v) →
      Topmost overrides environment lower k (lower.value k)

/-- All layers can be read, and each key has the value of the highest one that sets it. -/
structure Resolved (file : ProjectFile) (environment : String → Option String)
    (overrides s : Settings) : Prop where
  readable : ∀ k text, ¬ Misspells environment k text
  topmost : ∃ lower, InFile file lower ∧ ∀ k, Topmost overrides environment lower k (s.value k)

/-- What keeps settings from being loaded. A variable counts only if the file can be read, and
a capacity of zero only if the variables can be read, too. -/
inductive Failure (root : String) (file : ProjectFile) (environment : String → Option String)
    (overrides : Settings) : SettingsError → Prop
  | unreadable : file = .unreadable →
      Failure root file environment overrides (.fileNotFound (pathIn root "linkvars.toml"))
  | unparsable {text : String} : file = .content text → ofToml? text = none →
      Failure root file environment overrides
        (.unparsable (pathIn root "linkvars.toml") "invalid document")
  | misspelt {lower : Settings} {k : Key} {text : String} : InFile file lower →
      FirstMisspelt environment k text →
      Failure root file environment overrides (misspelling k text)
  | capacity {s : Settings} : Resolved file environment overrides s →
      s.cacheMaxEntries = some 0 →
      Failure root file environment overrides
        (.invalidSetting "cache.max_entries" "must be greater than 0")

theorem topmost_iff {layer : Settings} (hlayer : ∀ v, layer.value k = some v ↔ Sets environment k v)
    {o : Option k.Value} :
    Topmost overrides environment lower k o ↔
      o = (overrides.orElse (layer.orElse lower)).value k := by
  rw [value_orElse, value_orElse]
  constructor
  · rintro (hover | ⟨hover, hv⟩ | ⟨hover, hnone⟩)
    · rw [hover, Option.some_or]
    · rw [hover, Option.none_or, (hlayer _).2 hv, Option.some_or]
    · have hunset : layer.value k = none :=
        Option.eq_none_iff_forall_ne_some.2 fun v hv => hnone v ((hlayer v).1 hv)
      rw [hover, Option.none_or, hunset, Option.none_or]
  · rintro rfl
    cases hover : overrides.value k with
    | some v => exact .byOverride hover
    | none =>
      rw [Option.none_or]
      cases hset : layer.value k with
      | some v => exact .byVariable hover ((hlayer v).1 hset)
      | none =>
        apply Topmost.byFile hover
        intro v hv
        rw [(hlayer v).2 hv] at hset
        cases hset

theorem InFile.ofFile (h : InFile file lower) (path : String) : ofFile path file = .ok lower := by
  cases h with
  | missing => rfl
  | content htext => simp only [Settings.ofFile, htext]

theorem Resolved.load (h : Resolved file environment overrides s) :
    load root file environment overrides = s.validate.map fun _ => s := by
  obtain ⟨lower, hfile, htop⟩ := h.topmost
  obtain ⟨layer, hlayer, hsets⟩ := ofEnvironment_of_readable h.readable
  obtain rfl : s = overrides.orElse (layer.orElse lower) :=
    ext_value fun k => (topmost_iff (hsets k)).1 (htop k)
  rw [Settings.load, hfile.ofFile, hlayer]
  show (validate _ >>= fun _ => _) = _
  cases (overrides.orElse (layer.orElse lower)).validate <;> rfl

theorem Failure.load (h : Failure root file environment overrides e) :
    load root file environment overrides = .error e := by
  cases h with
  | unreadable hfile =>
    subst hfile
    rfl
  | unparsable hfile htext =>
    subst hfile
    simp only [Settings.load, ofFile, htext]
    rfl
  | misspelt hfile hfirst =>
    rw [Settings.load, hfile.ofFile, ofEnvironment_of_firstMisspelt hfirst]
    rfl
  | capacity hresolved hzero =>
    rw [hresolved.load, validate, if_pos hzero]
    rfl

end Layers

end Settings

open Settings

-- A capacity of zero that a higher layer replaces does no harm.
example : load "" .missing
    (fun name => if name = "LINKVARS_CACHE_MAX_ENTRIES" then some " 0 " else none)
    ⟨none, none, none, some 5⟩ = .ok ⟨none, none, none, some 5⟩ := by rfl

end LinkClosure
