import LinkClosure.Linkage

/-!
# Composing consecutive linkages

Each link from a to b continues to c through the coordinates it arrives at on b:

* an entry of the following linkage for exactly those coordinates is taken;
* else its entry for the wildcard is taken, a restart;
* else, if the link arrives at the wildcard, every entry is reachable, a fan-out;
* else the link is dead.

A dead link is a conflict unless the two areas on b can meet, and so is a way
from the wildcard to the wildcard unless the outer areas meet in a concrete
place. A conflict rejects the composition even if other links continue: two
siblings below a common parent must not become linked.
-/

set_option autoImplicit false

namespace LinkClosure

inductive Composition where
  | composed (linkage : Linkage)
  | edgeless
  | rejected
  deriving DecidableEq

namespace Composition

def isAccepted : Composition → Bool
  | rejected => false
  | _ => true

/-- An accepted composition without links is the empty linkage. -/
def linkage? : Composition → Option Linkage
  | composed m => some m
  | edgeless => some .empty
  | rejected => none

end Composition

inductive Continuation where
  | exact (next : Link)
  | restart (next : Link)
  | fanOut (next : List Link)
  | dead
  deriving DecidableEq

namespace Continuation

/-- An exact continuation stays mutable if both links are and the way does not lead
through the wildcard; the other two are mutable if one of the links is. -/
def arrivals (l : Link) : Continuation → List Link
  | exact k => [⟨k.target, !l.target.isWildcard && l.isMutable && k.isMutable⟩]
  | restart k => [⟨k.target, l.isMutable || k.isMutable⟩]
  | fanOut ks => ks.map fun k => ⟨k.target, l.isMutable || k.isMutable⟩
  | dead => []

def isRestart : Continuation → Bool
  | restart _ => true
  | _ => false

def isFanOut : Continuation → Bool
  | fanOut _ => true
  | _ => false

end Continuation

namespace Linkage

def continuation (f : Linkage) (middle : CoordinateSet) : Continuation :=
  match f.get? middle with
  | some k => .exact k
  | none =>
    match f.get? .wildcard with
    | some k => .restart k
    | none => if middle.isWildcard then .fanOut f.links.values else .dead

def continuations (e f : Linkage) : List Continuation :=
  e.entries.map fun x => f.continuation x.2.target

def arrivals (e f : Linkage) : List (CoordinateSet × Link) :=
  e.entries.flatMap fun x =>
    ((f.continuation x.2.target).arrivals x.2).map fun l => (x.1, l)

def conflicts (e f : Linkage) : Bool :=
  ((e.continuations f).any (· == .dead) && !e.targetArea.intersects f.sourceArea) ||
    ((e.arrivals f).any (fun x => x.1.isWildcard && x.2.target.isWildcard) &&
      !e.sourceArea.intersectsConcretely f.targetArea)

/-- A restart that enters b everywhere and reaches c in a concrete area nests the
area on b inside the area on c. -/
def composedTargetArea (e f : Linkage) : CoordinateSet :=
  if (e.continuations f).any Continuation.isRestart &&
      e.sourceArea.isWildcard && f.sourceArea.isWildcard &&
      e.targetArea.isConcrete && f.targetArea.isConcrete then
    f.targetArea.under e.targetArea
  else f.targetArea

/-- A fan-out that leaves a from a concrete area nests the area on b inside it. -/
def composedSourceArea (e f : Linkage) : CoordinateSet :=
  if (e.continuations f).any Continuation.isFanOut &&
      e.targetArea.isWildcard && f.targetArea.isWildcard &&
      e.sourceArea.isConcrete && f.sourceArea.isConcrete then
    e.sourceArea.under f.sourceArea
  else e.sourceArea

/-- From a to b by `e`, then from b to c by `f`. An empty `e` knows nothing about
coordinates and leaves `f` as it is. -/
def compose (e f : Linkage) : Composition :=
  if e.isEmpty then
    if f.isEmpty then .edgeless else .composed f
  else if f.isEmpty then .edgeless
  else if e.conflicts f then .rejected
  else
    let links := SortedMap.ofListWith Link.merge (e.arrivals f)
    if links.isEmpty then
      if e.targetArea.isUnmodified || f.sourceArea.isUnmodified then .rejected else .edgeless
    else .composed ⟨links, e.composedSourceArea f, e.composedTargetArea f⟩

/-- The outcomes of composing one linkage after the other, each with what the
previous outcome left; nothing follows a rejection. -/
def composeSteps (e : Linkage) : List Linkage → List Composition
  | [] => []
  | f :: rest =>
    let c := e.compose f
    match c.linkage? with
    | some m => c :: composeSteps m rest
    | none => [c]

end Linkage

end LinkClosure
