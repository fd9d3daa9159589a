import LinkClosure.Closure.Pass

/-!
# Closure rows

A row holds the level of every node that is reached from a start node, by
increasing position. A floor restricts the row to edges that are at least as
strong. A node that the low pass reaches through delays alone is delayed;
otherwise the high pass tells its level, and where that pass is refused the
node counts as delayed if a delay lies on the way, and as not reached if none
does.
-/

set_option autoImplicit false

namespace LinkClosure

abbrev Row := List (Nat × Level)

def floorLimit (weight : Level → Nat) : Option Level → Nat
  | none => Distance.top
  | some l => weight l

/-- The level that the two passes agree on for a node other than the start. -/
def levelOfPasses? (low : Option (Nat × Causes)) (high : Option (Nat × Level)) : Option Level :=
  low.bind fun x =>
    if Weight.isDelayDistance x.1 then some (.delayed x.2)
    else
      match high with
      | some y => some y.2
      | none => if x.2.isEmpty then none else some (.delayed x.2)

namespace Adjacency

variable {n : Nat}

def lowSearch (edges : Adjacency n) (start : Fin n) (floor : Option Level) : Search Causes n :=
  Search.run .low (floorLimit Weight.low floor) edges start

def highSearch (edges : Adjacency n) (start : Fin n) (floor : Option Level) : Search Level n :=
  Search.run .high (floorLimit Weight.high floor) edges start

def assembleRow (start : Fin n) (low : Search Causes n) (high : Search Level n) : Row :=
  (List.finRange n).filterMap fun i =>
    if i = start then some (i.val, .staticallyAssigned)
    else (levelOfPasses? (low.best? i) (high.best? i)).map fun l => (i.val, l)

def row (edges : Adjacency n) (start : Fin n) (floor : Option Level) : Row :=
  assembleRow start (edges.lowSearch start floor) (edges.highSearch start floor)

/-- The edges that the high pass could not follow, in the order it met them. -/
def refusals (edges : Adjacency n) (start : Fin n) (floor : Option Level) :
    List (Fin n × Fin n) :=
  (edges.highSearch start floor).refused

end Adjacency

end LinkClosure
