import LinkClosure.Closure.Search
import LinkClosure.Linkage.Composition

/-!
# The two passes of the closure

A weight dominates any realistic sum of the weights below it, so the length of a
best path tells its weakest level. The low pass makes delays cheap and collects
their causes: a node that is reached through delays alone is found to be
delayed. The high pass makes delays dear and composes the levels, so known
relationships win.
-/

set_option autoImplicit false

namespace LinkClosure

namespace Weight

def lowStaticallyAssigned : Nat := 1
def lowDelayed : Nat := 1024
def lowAssigned : Nat := 1048576
def lowDependent : Nat := 1073741824
def lowCommonHidden : Nat := 1099511627776

def highStaticallyAssigned : Nat := 1
def highAssigned : Nat := 1024
def highDependent : Nat := 1048576
def highCommonHidden : Nat := 1099511627776
def highDelayed : Nat := 1125899906842624

def low : Level → Nat
  | .staticallyAssigned => lowStaticallyAssigned
  | .delayed _ => lowDelayed
  | .assigned => lowAssigned
  | .dependent _ => lowDependent
  | .commonHidden _ => lowCommonHidden
  | .independent => Distance.top

def high : Level → Nat
  | .staticallyAssigned => highStaticallyAssigned
  | .assigned => highAssigned
  | .dependent _ => highDependent
  | .commonHidden _ => highCommonHidden
  | .delayed _ => highDelayed
  | .independent => Distance.top

def isDelayDistance (d : Nat) : Bool := lowDelayed ≤ d && d < lowAssigned

end Weight

def Causes.extend (c : Causes) : Level → Option Causes
  | .delayed d => some (c.merge d)
  | _ => some c

/-- The level of a path that is continued by an edge. Delays absorb, assignments are
transparent and as weak as the weaker one, and linkages are composed; two
dependencies stay a dependency even without links, any other pair needs one. -/
def Level.extend : Level → Level → Option Level
  | .delayed c, .delayed d => some (.delayed (c.merge d))
  | .delayed c, _ => some (.delayed c)
  | _, .delayed d => some (.delayed d)
  | .independent, _ => none
  | _, .independent => none
  | .staticallyAssigned, e => some e
  | .assigned, .staticallyAssigned => some .assigned
  | .assigned, e => some e
  | l, .staticallyAssigned => some l
  | l, .assigned => some l
  | .dependent m, .dependent n => (m.compose n).linkage?.map .dependent
  | .dependent m, .commonHidden n => throughHidden m n
  | .commonHidden m, .dependent n => throughHidden m n
  | .commonHidden m, .commonHidden n => throughHidden m n
where
  throughHidden (m n : Linkage) : Option Level :=
    ((m.compose n).linkage?.filter (!·.isEmpty)).map .commonHidden

def Pass.low : Pass Causes := ⟨.none, Weight.low, Causes.extend, Causes.merge⟩

def Pass.high : Pass Level := ⟨.staticallyAssigned, Weight.high, Level.extend, Level.min⟩

end LinkClosure
