import LinkClosure.Proofs.Toml.PlainText
import LinkClosure.Settings.Document

/-!
# Stored settings

Settings whose capacity the format can hold are written as a plain document of two
sections, with one line for each key that is set. Plain documents are read back as
they were written, so it remains to find the four values in the two tables. A key
that is not set has no line and is not found.
-/

set_option autoImplicit false

namespace LinkClosure.Settings

open Toml (BareKey Node PlainLine PlainSection ScalarWord)

def Writable (s : Settings) : Prop := ∀ n ∈ s.cacheMaxEntries, n ≤ 9223372036854775807

theorem toToml_ok_iff {s : Settings} {text : String} :
    s.toToml = .ok text ↔ s.Writable ∧ s.render = text := by
  have hany : s.cacheMaxEntries.any (fun n => 9223372036854775807 < n) = true ↔ ¬ s.Writable := by
    simp [Writable, Option.any_eq_true]
  rw [toToml]
  split
  · next h => simp [hany.1 h]
  · next h => simp [not_not.1 (mt hany.2 h)]

section Words

theorem scalarWord_flag (b : Bool) : ScalarWord (flagText b).toList (.boolean b) := by
  cases b with
  | false => exact Toml.scalarWord_false
  | true => exact Toml.scalarWord_true

theorem scalarWord_capacity {n : Nat} (hn : n ≤ 9223372036854775807) :
    ScalarWord (toString n).toList (.integer n) := by
  rw [Text.toList_toString_nat]
  exact Toml.scalarWord_toDigits hn

end Words

section Lines

variable {α : Type} {key : String} {word : α → String} {node : α → Node}

def keyLines (hkey : BareKey key) :
    (value : Option α) → (∀ v ∈ value, ScalarWord (word v).toList (node v)) → List PlainLine
  | none, _ => []
  | some v, h => [⟨key, word v, node v, hkey, h v rfl⟩]

variable (hkey : BareKey key) (value : Option α)
  (h : ∀ v ∈ value, ScalarWord (word v).toList (node v))

theorem keyLines_text :
    String.join ((keyLines hkey value h).map PlainLine.text) = line key (value.map word) := by
  cases value with
  | none => rfl
  | some v => simp [keyLines, PlainLine.text, line]

theorem keyLines_keys :
    (keyLines hkey value h).map PlainLine.key = (value.map fun _ => key).toList := by
  cases value <;> rfl

theorem keyLines_entries : (keyLines hkey value h).map (fun l => (l.key, l.node)) =
    (value.map fun v => (key, node v)).toList := by
  cases value <;> rfl

end Lines

section Sections

variable (s : Settings) (h : s.Writable)

def engineSection : PlainSection where
  name := "engine"
  lines :=
    keyLines (by decide : BareKey "eager_closure") s.eagerClosure (fun b _ => scalarWord_flag b) ++
      keyLines (by decide : BareKey "log_rejections") s.logRejections fun b _ => scalarWord_flag b
  bare := by decide
  nodup := by
    rw [List.map_append, keyLines_keys, keyLines_keys]
    cases s.eagerClosure <;> cases s.logRejections <;> simp

def cacheSection : PlainSection where
  name := "cache"
  lines :=
    keyLines (by decide : BareKey "enabled") s.cacheEnabled (fun b _ => scalarWord_flag b) ++
      keyLines (by decide : BareKey "max_entries") s.cacheMaxEntries fun n hn =>
        scalarWord_capacity (h n hn)
  bare := by decide
  nodup := by
    rw [List.map_append, keyLines_keys, keyLines_keys]
    cases s.cacheEnabled <;> cases s.cacheMaxEntries <;> simp

theorem sections_nodup :
    ([s.engineSection, s.cacheSection h].map PlainSection.name).Nodup := by
  simp [engineSection, cacheSection]

theorem render_eq : s.render =
    "\n".intercalate ([s.engineSection, s.cacheSection h].map PlainSection.text) := by
  simp only [List.map_cons, List.map_nil, PlainSection.text, engineSection, cacheSection,
    List.map_append, String.join_append, keyLines_text]
  rw [← String.toList_inj]
  simp only [render, String.intercalate_cons_cons, String.intercalate_singleton,
    String.toList_append, List.append_assoc]
  rfl

theorem section?_table {α β : Type} {first second : String} (hne : first ≠ second)
    (a : Option α) (b : Option β) (f : α → Node) (g : β → Node) :
    some (a.map f, b.map g) = section? first second (some (.table .header
      ((a.map fun v => (first, f v)).toList ++ (b.map fun v => (second, g v)).toList))) := by
  have hfirst : (first == second) = false := beq_false_of_ne hne
  have hsecond : (second == first) = false := beq_false_of_ne hne.symm
  cases a <;> cases b <;> simp [section?, List.lookup_cons, hfirst, hsecond]

theorem optional?_flag (flag : Option Bool) :
    optional? boolean? (flag.map .boolean) = some flag := by
  cases flag <;> rfl

theorem optional?_capacity (capacity : Option Nat) :
    optional? capacity? (capacity.map fun n : Nat => .integer n) = some capacity := by
  cases capacity <;> simp [optional?, capacity?]

theorem ofEntries?_sections :
    ofEntries? ([s.engineSection, s.cacheSection h].map PlainSection.entry) = some s := by
  have hengine : section? "eager_closure" "log_rejections" (some s.engineSection.entry.2) =
      some (s.eagerClosure.map .boolean, s.logRejections.map .boolean) := by
    simp only [PlainSection.entry, engineSection, List.map_append, keyLines_entries]
    exact (section?_table (by decide) _ _ _ _).symm
  have hcache : section? "enabled" "max_entries" (some (s.cacheSection h).entry.2) =
      some (s.cacheEnabled.map .boolean, s.cacheMaxEntries.map fun n : Nat => .integer n) := by
    simp only [PlainSection.entry, cacheSection, List.map_append, keyLines_entries]
    exact (section?_table (by decide) _ _ _ _).symm
  have hfirst : ([s.engineSection, s.cacheSection h].map PlainSection.entry).lookup "engine" =
      some s.engineSection.entry.2 := rfl
  have hsecond : ([s.engineSection, s.cacheSection h].map PlainSection.entry).lookup "cache" =
      some (s.cacheSection h).entry.2 := rfl
  simp only [ofEntries?, hfirst, hsecond, hengine, hcache, Option.bind_eq_bind, Option.bind_some,
    optional?_flag, optional?_capacity]
  rfl

end Sections

/-- Settings can be written if and only if the format can hold the capacity, and what is
written is read back as the same four values, whether they are set or not. -/
theorem settings_survive_storage (s : Settings) :
    ((∃ text, s.toToml = .ok text) ↔ ∀ n ∈ s.cacheMaxEntries, n ≤ 9223372036854775807) ∧
      ∀ text, s.toToml = .ok text → Settings.parse text = .ok s := by
  constructor
  · simp only [toToml_ok_iff]
    exact ⟨fun ⟨_, h, _⟩ => h, fun h => ⟨s.render, h, rfl⟩⟩
  · intro text htext
    obtain ⟨h, rfl⟩ := toToml_ok_iff.1 htext
    have hread : ofToml? s.render = some s := by
      rw [ofToml?, s.render_eq h, PlainSection.read?_document _ (sections_nodup s h)]
      exact s.ofEntries?_sections h
    rw [parse, hread]

theorem settings_survive_storage_greatest : ∃ text,
    toToml ⟨some true, none, none, some 9223372036854775807⟩ = .ok text ∧
      parse text = .ok ⟨some true, none, none, some 9223372036854775807⟩ := by
  obtain ⟨text, htext⟩ := (settings_survive_storage
    ⟨some true, none, none, some 9223372036854775807⟩).1.2 (by simp)
  exact ⟨text, htext, (settings_survive_storage _).2 text htext⟩

end LinkClosure.Settings
