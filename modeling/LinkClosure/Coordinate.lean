/-!
# Coordinates in hidden content

A coordinate is a path of positions: `0` is the first type parameter of a value,
`0.1` the second type parameter of the first one. Four negative positions are
markers. A path that consists of the marker for "everywhere" alone is the
wildcard; inside a longer path the marker is an ordinary position.
-/

set_option autoImplicit false

namespace LinkClosure

namespace Position

def everywhere : Int := -1

def unspecified : Int := -2

def unmodified : Int := -3

def fields : Int := -4

def render (p : Int) : String :=
  if p = everywhere then "*"
  else if p = unspecified then "?"
  else if p = unmodified then "X"
  else if p = fields then "F"
  else toString p

/-- Positions are 32-bit words: moving past either end wraps around. -/
def shift (n p : Int) : Int := (p + n).bmod 4294967296

end Position

structure Coordinate where
  segments : List Int
  deriving DecidableEq, Repr

namespace Coordinate

instance : Ord Coordinate := ⟨compareOn segments⟩

instance : Std.TransOrd Coordinate := inferInstanceAs (Std.TransCmp (compareOn segments))

instance : Std.LawfulEqOrd Coordinate where
  eq_of_compare {a b} h := by
    cases a; cases b
    exact congrArg _ (Std.LawfulEqOrd.eq_of_compare (α := List Int) h)
  compare_self := Std.ReflOrd.compare_self (α := List Int)

def single (p : Int) : Coordinate := ⟨[p]⟩

def wildcard : Coordinate := single Position.everywhere

/-- The path through the given positions; without any, the wildcard. -/
def path : List Int → Coordinate
  | [] => wildcard
  | p :: ps => ⟨p :: ps⟩

def zeroes (n : Nat) : Coordinate := ⟨List.replicate (max n 1) 0⟩

def depth (c : Coordinate) : Nat := c.segments.length

def isWildcard (c : Coordinate) : Bool := c.segments == [Position.everywhere]

def isUnmodified (c : Coordinate) : Bool := c.segments == [Position.unmodified]

def isUnspecified (c : Coordinate) : Bool := c.segments == [Position.unspecified]

/-- The coordinate one level deeper, inside position `p`. -/
def nest (p : Int) (c : Coordinate) : Coordinate := ⟨p :: c.segments⟩

/-- The coordinate as seen from outside of `outer`. -/
def under (outer c : Coordinate) : Coordinate := ⟨outer.segments ++ c.segments⟩

def inner? (c : Coordinate) : Option Coordinate :=
  if 1 < c.depth then some ⟨c.segments.tail⟩ else none

def outermost? (c : Coordinate) : Option Coordinate :=
  match c.segments with
  | p :: _ :: _ => some (single p)
  | _ => none

def only? (c : Coordinate) : Option Int :=
  match c.segments with
  | [p] => some p
  | _ => none

def zeroDepth? (c : Coordinate) : Option Nat :=
  if c.segments.all (· == 0) then some c.depth else none

def replaceInnermost (p : Int) (c : Coordinate) : Coordinate :=
  match c.segments with
  | [] => c
  | s :: ss => ⟨(s :: ss).dropLast ++ [p]⟩

def mapOutermost (f : Int → Int) (c : Coordinate) : Coordinate :=
  match c.segments with
  | [] => c
  | s :: ss => ⟨f s :: ss⟩

def commonPart : List Int → List Int → List Int
  | a :: as, b :: bs => if a = b then a :: commonPart as bs else []
  | _, _ => []

/-- A coordinate that fits both: their longest common part, or the wildcard when
they differ from the outermost position on. -/
def merge (a b : Coordinate) : Coordinate :=
  if a = b then a else path (commonPart a.segments b.segments)

/-- One of the two lies inside the other. The wildcard overlaps everything. -/
def overlaps (a b : Coordinate) : Bool :=
  a.isWildcard || b.isWildcard ||
    a.segments.isPrefixOf b.segments || b.segments.isPrefixOf a.segments

def render (c : Coordinate) : String := ".".intercalate (c.segments.map Position.render)

end Coordinate

end LinkClosure
