import LinkClosure.Level
import LinkClosure.Variable

/-!
# The graph of one scope

The nodes are variables, the edges their direct levels. An edge is stored in
both directions, the second time reversed, except that a return value only
observes: edges leave it and none enters it. Levels that are given repeatedly
for the same edge are combined. Once its closure or its clusters have been
asked for, the graph is frozen.

The adjacency is a sorted map and so does not remember the order of insertion;
that order is kept beside it.
-/

set_option autoImplicit false

namespace LinkClosure

structure Graph where
  adjacency : SortedMap Variable (SortedMap Variable Level)
  order : List Variable
  frozen : Bool

namespace Graph

def empty : Graph := ⟨.empty, [], false⟩

def size (g : Graph) : Nat := g.order.length

def isEmpty (g : Graph) : Bool := g.order.isEmpty

def contains (g : Graph) (v : Variable) : Bool := g.adjacency.contains v

def edges (g : Graph) (v : Variable) : SortedMap Variable Level :=
  (g.adjacency.get? v).getD .empty

def level? (g : Graph) (u v : Variable) : Option Level := (g.edges u).get? v

def freeze (g : Graph) : Graph := { g with frozen := true }

def insertNode (v : Variable) (g : Graph) : Graph :=
  if g.contains v then g
  else { g with adjacency := g.adjacency.insert v .empty, order := g.order ++ [v] }

def joinEdge (u v : Variable) (l : Level) (g : Graph) : Graph :=
  { g with adjacency :=
      g.adjacency.insertWith (SortedMap.unionWith Level.min) u (.singleton v l) }

/-- Both directions of one edge that starts at the node `u`. The way back carries
the reverse of what is stored for the way out. -/
def insertEdge (u v : Variable) (l : Level) (g : Graph) : Graph :=
  let g := (g.joinEdge u v l).insertNode v
  if u.isReturnValue then g
  else g.joinEdge v u ((g.level? u v).getD l).reverse

def refusal? (u : Variable) (e : Variable × Level) : Option GraphError :=
  if e.2 = .independent then some (.independentEdge u.name e.1.name)
  else if e.1.isReturnValue then some (.returnValueTarget u.name e.1.name)
  else none

/-- A step in building a graph. One that fails leaves the graph as it has become by then. -/
abbrev Building := EStateM GraphError Graph

def checkEdge (u : Variable) (e : Variable × Level) : Building Unit :=
  match refusal? u e with
  | some err => throw err
  | none => pure ()

/-- Add a node with edges to its neighbours. All edges are looked at before the graph
is touched. -/
def addNode (v : Variable) (edges : List (Variable × Level)) : Building Unit := do
  if (← get).frozen then throw (.frozen v.name)
  forM edges (checkEdge v)
  modify (insertNode v)
  forM edges fun e => modify (insertEdge v e.1 e.2)

def nodes (g : Graph) : List (Variable × SortedMap Variable Level) :=
  g.order.map fun v => (v, g.edges v)

end Graph

end LinkClosure
