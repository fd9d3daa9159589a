import LinkClosure.Settings
import LinkClosure.Toml.Reader

/-!
# Settings as TOML

Settings are written as two tables with the keys that are set, in a fixed order.
Integers of the format are signed, so a capacity beyond their range cannot be
written.

Reading ignores tables and keys that it does not know. A section is a table; it
may also be a list of its values in order, which may end early, and a date
stands for a section in which nothing is set.
-/

set_option autoImplicit false

namespace LinkClosure.Settings

open Toml (Node Entries)

def boolean? : Node → Option Bool
  | .boolean b => some b
  | _ => none

def capacity? : Node → Option Nat
  | .integer n => if 0 ≤ n then some n.toNat else none
  | _ => none

/-- An absent value is unset; a present one has to be of its kind. -/
def optional? {α : Type} (read : Node → Option α) : Option Node → Option (Option α)
  | none => some none
  | some n => (read n).map some

/-- The two values of a section: by name from a table, by position from a list. -/
def section? (first second : String) : Option Node → Option (Option Node × Option Node)
  | none => some (none, none)
  | some (.table _ entries) => some (entries.lookup first, entries.lookup second)
  | some (.array items) => some (items[0]?, items[1]?)
  | some (.tables elements) =>
    some ((elements[0]?).map (.table .header), (elements[1]?).map (.table .header))
  | some (.datetime _) => some (none, none)
  | some _ => none

def ofEntries? (entries : Entries) : Option Settings := do
  let (eager, rejections) ← section? "eager_closure" "log_rejections" (entries.lookup "engine")
  let (enabled, maxEntries) ← section? "enabled" "max_entries" (entries.lookup "cache")
  return ⟨← optional? boolean? eager, ← optional? boolean? rejections,
    ← optional? boolean? enabled, ← optional? capacity? maxEntries⟩

def ofToml? (text : String) : Option Settings := (Toml.read? text).bind ofEntries?

def parse (text : String) : Except SettingsError Settings :=
  match ofToml? text with
  | some s => .ok s
  | none => .error (.unparsable "<string>" "invalid document")

def flagText (b : Bool) : String := if b then "true" else "false"

def line (key : String) (value : Option String) : String :=
  value.elim "" fun v => key ++ " = " ++ v ++ "\n"

def render (s : Settings) : String :=
  "[engine]\n" ++ line "eager_closure" (s.eagerClosure.map flagText) ++
    line "log_rejections" (s.logRejections.map flagText) ++
    "\n[cache]\n" ++ line "enabled" (s.cacheEnabled.map flagText) ++
    line "max_entries" (s.cacheMaxEntries.map toString)

def toToml (s : Settings) : Except SettingsError String :=
  if s.cacheMaxEntries.any fun n => 9223372036854775807 < n then
    .error (.unparsable "<serialization>" "integer out of range")
  else .ok s.render

end LinkClosure.Settings
