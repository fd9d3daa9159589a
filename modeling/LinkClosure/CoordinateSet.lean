import LinkClosure.Coordinate
import LinkClosure.Error
import LinkClosure.Sorted.Set

/-!
# Sets of coordinates

A coordinate set names one end of a link, or the area of a value that a
modification reaches. Sets that are built by `ofMembers` are never empty and
hold the wildcard only on its own; sets that come from stored data may break
both rules, and every operation is defined on them as well.
-/

set_option autoImplicit false

namespace LinkClosure

structure CoordinateSet where
  members : SortedSet Coordinate
  deriving DecidableEq

namespace CoordinateSet

instance : Ord CoordinateSet := ⟨compareOn members⟩

instance : Std.TransOrd CoordinateSet := inferInstanceAs (Std.TransCmp (compareOn members))

instance : Std.LawfulEqOrd CoordinateSet where
  eq_of_compare {a b} h := by
    cases a; cases b
    exact congrArg _ (Std.LawfulEqOrd.eq_of_compare (α := SortedSet Coordinate) h)
  compare_self := Std.ReflOrd.compare_self (α := SortedSet Coordinate)

def ofCoordinate (c : Coordinate) : CoordinateSet := ⟨.singleton c⟩

def single (p : Int) : CoordinateSet := ofCoordinate (.single p)

def wildcard : CoordinateSet := single Position.everywhere

def unmodified : CoordinateSet := single Position.unmodified

def unspecified : CoordinateSet := single Position.unspecified

def fields : CoordinateSet := single Position.fields

def toList (s : CoordinateSet) : List Coordinate := s.members.toList

def size (s : CoordinateSet) : Nat := s.members.size

def isEmpty (s : CoordinateSet) : Bool := s.members.isEmpty

def render (s : CoordinateSet) : String := ";".intercalate (s.toList.map Coordinate.render)

def ofStored (cs : List Coordinate) : CoordinateSet := ⟨.ofList cs⟩

/-- Refuses the empty set, and the wildcard beside other members. -/
def ofMembers (cs : List Coordinate) : Except LinkError CoordinateSet :=
  let s := ofStored cs
  if s.isEmpty then .error .emptySet
  else if 1 < s.size && s.toList.any Coordinate.isWildcard then
    .error (.wildcardMixed s.render)
  else .ok s

/-- The wildcard absorbs the rest; nothing is made of no members. -/
def normalised? (cs : List Coordinate) : Option CoordinateSet :=
  if cs.isEmpty then none
  else if cs.any Coordinate.isWildcard then some wildcard
  else some (ofStored cs)

def isWildcard (s : CoordinateSet) : Bool := s.toList == [Coordinate.wildcard]

def isUnmodified (s : CoordinateSet) : Bool :=
  s.toList == [Coordinate.single Position.unmodified]

def isUnspecified (s : CoordinateSet) : Bool :=
  s.toList == [Coordinate.single Position.unspecified]

/-- Neither the wildcard nor one of the markers on its own. -/
def isConcrete (s : CoordinateSet) : Bool :=
  !s.isWildcard && !s.isUnmodified && !s.isUnspecified

/-- Union. The wildcard absorbs everything, the unmodified marker is neutral. -/
def merge (s t : CoordinateSet) : CoordinateSet :=
  if s.isWildcard || t.isWildcard then wildcard
  else if s.isUnmodified then t
  else if t.isUnmodified then s
  else ⟨s.members.union t.members⟩

def nest (p : Int) (s : CoordinateSet) : CoordinateSet := ⟨s.members.map (Coordinate.nest p)⟩

def under (outer s : CoordinateSet) : CoordinateSet :=
  ofStored (outer.toList.flatMap fun o => s.toList.map (Coordinate.under o))

def outermost? (s : CoordinateSet) : Option CoordinateSet :=
  normalised? (s.toList.filterMap Coordinate.outermost?)

def inner? (s : CoordinateSet) : Option CoordinateSet :=
  normalised? (s.toList.filterMap Coordinate.inner?)

def hasNested (s : CoordinateSet) : Bool := s.toList.any fun c => 1 < c.depth

/-- The position of the first member, if that is not nested. -/
def firstOnly? (s : CoordinateSet) : Option Int := s.toList.head?.bind Coordinate.only?

def mapOutermost (f : Int → Int) (s : CoordinateSet) : CoordinateSet :=
  ⟨s.members.map (Coordinate.mapOutermost f)⟩

/-- Two areas can meet in one place. The unmodified marker meets nothing, the
wildcard everything else. -/
def intersects (s t : CoordinateSet) : Bool :=
  if s.isUnmodified || t.isUnmodified then false
  else if s.isWildcard || t.isWildcard then true
  else s.toList.any fun a => t.toList.any fun b => a.overlaps b

/-- Two concrete areas meet; here the wildcard vouches for nothing. -/
def intersectsConcretely (s t : CoordinateSet) : Bool :=
  s.isConcrete && t.isConcrete && s.intersects t

end CoordinateSet

end LinkClosure
