import LinkClosure.Link

/-!
# Linkages between two variables

A linkage says which coordinates of one variable's hidden content correspond to
which coordinates of another's. Two areas record which part of either side a
modification reaches: the wildcard while nothing restricts it, the unmodified
marker once the linkage is barred from carrying modifications.
-/

set_option autoImplicit false

namespace LinkClosure

structure Linkage where
  links : SortedMap CoordinateSet Link
  sourceArea : CoordinateSet
  targetArea : CoordinateSet
  deriving DecidableEq

namespace Linkage

def empty : Linkage := ⟨.empty, .wildcard, .wildcard⟩

def entries (m : Linkage) : List (CoordinateSet × Link) := m.links.entries

def targets (m : Linkage) : List CoordinateSet := m.links.values.map Link.target

def size (m : Linkage) : Nat := m.links.size

def isEmpty (m : Linkage) : Bool := m.links.isEmpty

def get? (m : Linkage) (source : CoordinateSet) : Option Link := m.links.get? source

def single (source target : Int) (isMutable : Bool) : Linkage :=
  ⟨.singleton (.single source) ⟨.single target, isMutable⟩, .wildcard, .wildcard⟩

def firstRepeated? (seen : List CoordinateSet) : List CoordinateSet → Option CoordinateSet
  | [] => none
  | t :: rest => if t ∈ seen then some t else firstRepeated? (t :: seen) rest

/-- An entry from the wildcard to the wildcard stands alone, at most one entry
touches the wildcard, and no two entries share a target. -/
def check (links : SortedMap CoordinateSet Link) : Except LinkError Unit :=
  let touching := links.entries.filter fun e => e.1.isWildcard || e.2.target.isWildcard
  if (links.entries.any fun e => e.1.isWildcard && e.2.target.isWildcard) && 1 < links.size then
    .error (.wildcardToWildcardMixed links.size)
  else if 1 < touching.length then .error (.severalWildcardEntries touching.length)
  else
    match firstRepeated? [] (links.values.map Link.target) with
    | some t => .error (.sharedTarget t.render)
    | none => .ok ()

def ofLinks (links : SortedMap CoordinateSet Link) (sourceArea targetArea : CoordinateSet) :
    Except LinkError Linkage :=
  (check links).map fun _ => ⟨links, sourceArea, targetArea⟩

def withAreas (sourceArea targetArea : CoordinateSet) (m : Linkage) : Linkage :=
  { m with sourceArea, targetArea }

def barModification (m : Linkage) : Linkage := m.withAreas .unmodified .unmodified

/-- The linkage seen from its other end. Sources that share a target are merged. -/
def reverse (m : Linkage) : Linkage :=
  ⟨.ofListWith Link.merge (m.entries.map fun e => (e.2.target, ⟨e.1, e.2.isMutable⟩)),
    m.targetArea, m.sourceArea⟩

def merge (m n : Linkage) : Linkage :=
  ⟨m.links.unionWith Link.merge n.links,
    m.sourceArea.merge n.sourceArea, m.targetArea.merge n.targetArea⟩

/-- The links that `n` holds for our targets, under our sources. -/
def throughTargets? (m n : Linkage) : Option Linkage := do
  let entries ← m.entries.mapM fun e => (n.get? e.2.target).map (e.1, ·)
  return ⟨.ofList entries, m.sourceArea, n.targetArea⟩

/-- The links that `n` holds for our targets, under those targets. -/
def restrictedToTargets? (m n : Linkage) : Option Linkage := do
  let entries ← m.entries.mapM fun e => (n.get? e.2.target).map (e.2.target, ·)
  return ⟨.ofList entries, n.sourceArea, n.targetArea⟩

def correct (c : Correction) (m : Linkage) : Linkage :=
  { m with links := m.links.mapValues (Link.correct c) }

def nestSource (p : Int) (m : Linkage) : Linkage :=
  { m with links := .ofListWith Link.merge (m.entries.map fun e => (e.1.nest p, e.2)) }

def nestTarget (p : Int) (m : Linkage) : Linkage :=
  { m with links := m.links.mapValues (Link.nestTarget p) }

def sourceIsWildcard (m : Linkage) : Bool :=
  m.size == 1 && m.links.keys.all CoordinateSet.isWildcard

def targetIsWildcard (m : Linkage) : Bool :=
  m.size == 1 && m.targets.all CoordinateSet.isWildcard

/-- Sources, rank and targets; the areas follow where one of them is concrete. -/
def label (rank : Int) (m : Linkage) : String :=
  let mark (l : Link) : String := if l.isMutable then "M" else ""
  let sources := m.entries.map fun e => e.1.render ++ mark e.2
  let targets := m.entries.map fun e => e.2.target.render ++ mark e.2
  let areas :=
    if m.sourceArea.isConcrete || m.targetArea.isConcrete then
      "|" ++ m.sourceArea.render ++ "-" ++ m.targetArea.render
    else ""
  ",".intercalate sources ++ "-" ++ toString rank ++ "-" ++ ",".intercalate targets ++ areas

end Linkage

end LinkClosure
