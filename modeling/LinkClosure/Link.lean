import LinkClosure.CoordinateSet
import LinkClosure.Sorted.Map

/-!
# Links

A link is the far end of a correspondence: the coordinates it arrives at, and
whether a modification at the near end reaches them.
-/

set_option autoImplicit false

namespace LinkClosure

abbrev Correction := SortedMap CoordinateSet CoordinateSet

structure Link where
  target : CoordinateSet
  isMutable : Bool
  deriving DecidableEq

namespace Link

def withMutable (m : Bool) (l : Link) : Link := { l with isMutable := m }

def correct (c : Correction) (l : Link) : Link :=
  { l with target := (c.get? l.target).getD l.target }

/-- Union of the targets; mutable if one of the two is. -/
def merge (l k : Link) : Link := ⟨l.target.merge k.target, l.isMutable || k.isMutable⟩

def nestTarget (p : Int) (l : Link) : Link := { l with target := l.target.nest p }

end Link

end LinkClosure
