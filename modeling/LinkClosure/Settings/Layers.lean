import LinkClosure.Settings.Document
import LinkClosure.Text.Blank
import LinkClosure.Vocabulary

/-!
# Resolving settings from several layers

Overrides win over environment variables, those over the project file, and that
over the defaults. The layers are read from the lowest up and the first failure
is reported, even if a higher layer would replace the value; only the resolved
settings are validated.
-/

set_option autoImplicit false

namespace LinkClosure.Settings

inductive ProjectFile where
  | missing
  | unreadable
  | content (text : String)

def ProjectFile.ofBytes (b : ByteArray) : ProjectFile :=
  match String.fromUTF8? b with
  | some text => .content text
  | none => .unreadable

def readFlag? (cs : List Char) : Option Bool :=
  if cs = "true".toList then some true
  else if cs = "false".toList then some false
  else none

/-- Decimal digits, perhaps behind a plus sign, that make a 64-bit word. -/
def readWord? (cs : List Char) : Option Nat :=
  let ds := if cs.head? = some '+' then cs.tail else cs
  let n := Toml.natOfDigits 10 ds
  if !ds.isEmpty && ds.all Char.isDigit && n ≤ 18446744073709551615 then some n else none

/-- A variable that is not set leaves its key unset; a value that cannot be read is an
error. White space around the value does not count. -/
def fromVariable {α : Type} (environment : String → Option String) (name : String)
    (read : List Char → Option α) : Except SettingsError (Option α) :=
  match environment name with
  | none => .ok none
  | some text =>
    match read (Text.trim text.toList) with
    | some v => .ok (some v)
    | none => .error (.invalidValue name ("cannot parse '" ++ text ++ "'"))

def ofEnvironment (environment : String → Option String) : Except SettingsError Settings := do
  let enabled ← fromVariable environment "LINKVARS_CACHE_ENABLED" readFlag?
  let maxEntries ← fromVariable environment "LINKVARS_CACHE_MAX_ENTRIES" readWord?
  let eager ← fromVariable environment "LINKVARS_ENGINE_EAGER_CLOSURE" readFlag?
  let rejections ← fromVariable environment "LINKVARS_ENGINE_LOG_REJECTIONS" readFlag?
  return ⟨eager, rejections, enabled, maxEntries⟩

def ofFile (path : String) : ProjectFile → Except SettingsError Settings
  | .missing => .ok unset
  | .unreadable => .error (.fileNotFound path)
  | .content text =>
    match ofToml? text with
    | some s => .ok s
    | none => .error (.unparsable path "invalid document")

/-- The path of a file in a directory. A slash comes between them unless the directory ends
with one or has no name. -/
def pathIn (root file : String) : String :=
  match root.toList.getLast? with
  | none | some '/' => root ++ file
  | some _ => root ++ "/" ++ file

def load (root : String) (file : ProjectFile) (environment : String → Option String)
    (overrides : Settings) : Except SettingsError Settings := do
  let fromFile ← ofFile (pathIn root Vocabulary.projectFile) file
  let fromEnvironment ← ofEnvironment environment
  let resolved := overrides.orElse (fromEnvironment.orElse fromFile)
  resolved.validate
  return resolved

end LinkClosure.Settings
