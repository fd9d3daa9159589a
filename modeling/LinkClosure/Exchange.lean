import LinkClosure.Link

/-!
# Stored forms

Coordinates, coordinate sets and links as plain structured data. A coordinate is
the list of its positions and a set the list of its members; a link is a record
of target and mutability, and may also be read from a list of the two. Reading
checks forms and the range of positions, and nothing else: empty coordinates
and sets are read back as they were stored.
-/

set_option autoImplicit false

namespace LinkClosure

inductive Exchange where
  | null
  | bool (value : Bool)
  | integer (value : Int)
  | fraction
  | text (value : String)
  | list (items : List Exchange)
  | record (fields : List (String × Exchange))

namespace Exchange

def position? : Exchange → Option Int
  | integer n => if -2147483648 ≤ n ∧ n ≤ 2147483647 then some n else none
  | _ => none

def flag? : Exchange → Option Bool
  | bool b => some b
  | _ => none

def items? : Exchange → Option (List Exchange)
  | list xs => some xs
  | _ => none

end Exchange

def Coordinate.toExchange (c : Coordinate) : Exchange := .list (c.segments.map .integer)

def Coordinate.ofExchange? (x : Exchange) : Option Coordinate :=
  (x.items?.bind fun xs => xs.mapM Exchange.position?).map Coordinate.mk

def CoordinateSet.toExchange (s : CoordinateSet) : Exchange :=
  .list (s.toList.map Coordinate.toExchange)

def CoordinateSet.ofExchange? (x : Exchange) : Option CoordinateSet :=
  (x.items?.bind fun xs => xs.mapM Coordinate.ofExchange?).map ofStored

def Link.toExchange (l : Link) : Exchange :=
  .record [("to", l.target.toExchange), ("mutable", .bool l.isMutable)]

def Link.ofParts? (target isMutable : Exchange) : Option Link := do
  return ⟨← CoordinateSet.ofExchange? target, ← isMutable.flag?⟩

/-- Fields that a link does not have are ignored. -/
def Link.ofExchange? : Exchange → Option Link
  | .record fields => do Link.ofParts? (← fields.lookup "to") (← fields.lookup "mutable")
  | .list [target, isMutable] => Link.ofParts? target isMutable
  | _ => none

end LinkClosure
