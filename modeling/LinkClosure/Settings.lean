import LinkClosure.Error

/-!
# Settings

Four keys, each of which may be left unset. Unset keys stay unset when settings
are stored; a default stands in where a value is needed. Capacities are 64-bit
words.
-/

set_option autoImplicit false

namespace LinkClosure

structure Settings where
  eagerClosure : Option Bool
  logRejections : Option Bool
  cacheEnabled : Option Bool
  cacheMaxEntries : Option Nat
  deriving DecidableEq, Repr

namespace Settings

def unset : Settings := ⟨none, none, none, none⟩

def defaultMaxEntries : Nat := 1000

def isEager (s : Settings) : Bool := s.eagerClosure.getD false

def logsRejections (s : Settings) : Bool := s.logRejections.getD false

def usesCache (s : Settings) : Bool := s.cacheEnabled.getD true

def capacity (s : Settings) : Nat := s.cacheMaxEntries.getD defaultMaxEntries

/-- Keys that `upper` sets, and those of `lower` where it leaves them unset. -/
def orElse (upper lower : Settings) : Settings :=
  ⟨upper.eagerClosure <|> lower.eagerClosure, upper.logRejections <|> lower.logRejections,
    upper.cacheEnabled <|> lower.cacheEnabled, upper.cacheMaxEntries <|> lower.cacheMaxEntries⟩

/-- A cache that holds nothing is refused. -/
def validate (s : Settings) : Except SettingsError Unit :=
  if s.cacheMaxEntries = some 0 then
    .error (.invalidSetting "cache.max_entries" "must be greater than 0")
  else .ok ()

end Settings

end LinkClosure
