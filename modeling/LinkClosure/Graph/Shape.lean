import LinkClosure.Level
import LinkClosure.Text.Quoted

/-!
# The shape of levels in full

The shape of a level is a text from which the level can be told: linkages with
all links, mutability and both areas, delays with their quoted causes. Labels
abbreviate; shapes do not.
-/

set_option autoImplicit false

namespace LinkClosure

namespace Shape

def listed (items : List String) : String := ", ".intercalate items

def braced (items : List String) : String := "\x7b" ++ listed items ++ "\x7d"

def coordinate (c : Coordinate) : String :=
  "Index([" ++ listed (c.segments.map toString) ++ "])"

def coordinateSet (s : CoordinateSet) : String :=
  "Indices(" ++ braced (s.toList.map coordinate) ++ ")"

def flag (b : Bool) : String := if b then "true" else "false"

def link (l : Link) : String :=
  "Link \x7b to: " ++ coordinateSet l.target ++ ", mutable: " ++ flag l.isMutable ++ " \x7d"

def linkage (m : Linkage) : String :=
  "LinkMap \x7b map: " ++
    braced (m.entries.map fun e => coordinateSet e.1 ++ ": " ++ link e.2) ++
    ", modification_area_source: " ++ coordinateSet m.sourceArea ++
    ", modification_area_target: " ++ coordinateSet m.targetArea ++ " \x7d"

def causes (c : Causes) : String := "DelayCauses(" ++ braced (c.toList.map Text.quoted) ++ ")"

def level : Level → String
  | .staticallyAssigned => "StaticallyAssigned"
  | .assigned => "Assigned"
  | .dependent m => "Dependent(" ++ linkage m ++ ")"
  | .commonHidden m => "CommonHc(" ++ linkage m ++ ")"
  | .independent => "Independent"
  | .delayed c => "Delayed(" ++ causes c ++ ")"

end Shape

end LinkClosure
