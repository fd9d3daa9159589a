/-!
# What can go wrong

Three families of failure: building coordinates and linkages, using a graph
against its rules, and resolving settings. Each cause has one wording, and each
family one code that programs can test for.
-/

set_option autoImplicit false

namespace LinkClosure

inductive LinkError where
  | emptySet
  | wildcardMixed (found : String)
  | severalWildcardEntries (count : Nat)
  | wildcardToWildcardMixed (entries : Nat)
  | emptyHiddenContent
  | sharedTarget (target : String)
  deriving DecidableEq, Repr

def LinkError.message : LinkError → String
  | .emptySet => "Coordinate set must not be empty"
  | .wildcardMixed found => "Wildcard coordinate mixed with concrete coordinates: " ++ found
  | .severalWildcardEntries count =>
    "Link map has " ++ toString count ++
      " entries touching the wildcard, at most one is allowed"
  | .wildcardToWildcardMixed entries =>
    "Wildcard-to-wildcard entry must be the only entry, found " ++ toString entries ++ " entries"
  | .emptyHiddenContent => "Common hidden content level requires at least one link"
  | .sharedTarget target =>
    "Target coordinates " ++ target ++ " appear in more than one entry"

def LinkError.code : String := "LINK_ERROR"

/-- Misuse of a graph or of its closure. Finding no relationship is never an error. -/
inductive GraphError where
  | unknownVariable (name : String)
  | frozen (name : String)
  | independentEdge (source target : String)
  | returnValueTarget (source target : String)
  | notYetSet (operation : String)
  | selectOutOfRange (index size : Nat)
  deriving DecidableEq, Repr

def GraphError.message : GraphError → String
  | .unknownVariable name => "Variable " ++ name ++ " is not a node of this graph"
  | .frozen name =>
    "Graph is frozen: cannot add edges for " ++ name ++ " after computing its closure"
  | .independentEdge source target =>
    "Independent edge from " ++ source ++ " to " ++ target ++
      " carries no relationship and cannot be stored"
  | .returnValueTarget source target =>
    "Return value " ++ target ++ " cannot be the target of an edge (from " ++ source ++ ")"
  | .notYetSet operation =>
    "Linked variables not yet set: " ++ operation ++ " requires a resolved value"
  | .selectOutOfRange index size =>
    "Index " ++ toString index ++ " out of range for " ++ toString size ++ " linked variables"

def GraphError.code : String := "GRAPH_ERROR"

inductive SettingsError where
  | fileNotFound (path : String)
  | unparsable (path reason : String)
  | invalidSetting (field reason : String)
  | invalidValue (field reason : String)
  deriving DecidableEq, Repr

def SettingsError.message : SettingsError → String
  | .fileNotFound path => "Config file not found: " ++ path
  | .unparsable path reason => "Config parse error in " ++ path ++ ": " ++ reason
  | .invalidSetting field reason =>
    "Config validation failed for " ++ field ++ ": " ++ reason
  | .invalidValue field reason => "Invalid config value for " ++ field ++ ": " ++ reason

def SettingsError.code : String := "CONFIG_ERROR"

def codedMessage (code message : String) : String := "[" ++ code ++ "] " ++ message

end LinkClosure
