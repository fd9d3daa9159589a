import LinkClosure.Closure.Row
import LinkClosure.Digest
import LinkClosure.Graph
import LinkClosure.Graph.Shape

/-!
# Numbered graphs

A frame numbers the variables of a graph in their order and keeps the edges by
number. Graphs that differ in the names of their variables only, and keep their
order, have the same edges; so has a graph that was built in another order.

The signature of a frame abbreviates levels to labels and delays to a letter;
its shape shows every level in full and identifies the edges.
-/

set_option autoImplicit false

namespace LinkClosure

structure Frame where
  nodes : Array Variable
  edges : Adjacency nodes.size

namespace Frame

def numberedEdges (nodes : Array Variable) (edges : SortedMap Variable Level) :
    List (Fin nodes.size × Level) :=
  edges.entries.filterMap fun e => (nodes.finIdxOf? e.1).map fun i => (i, e.2)

def ofGraph (g : Graph) : Frame :=
  let nodes := g.adjacency.keys.toArray
  ⟨nodes, Vector.ofFn fun i => numberedEdges nodes (g.edges nodes[i])⟩

def size (f : Frame) : Nat := f.nodes.size

def edgeCount (f : Frame) : Nat := f.edges.toList.foldl (fun k es => k + es.length) 0

def position? (f : Frame) (v : Variable) : Option (Fin f.nodes.size) :=
  f.nodes.finIdxOf? v

def code (l : Level) : String := if l.isDelayed then "D" else l.renderShort

def nodeSignature {n : Nat} (i : Nat) (edges : List (Fin n × Level)) : String :=
  if edges.isEmpty then toString i ++ "/"
  else
    let codes := edges.map fun e => toString e.1.val ++ ":" ++ code e.2
    toString i ++ "(" ++ ";".intercalate (codes.mergeSort fun a b => compare a b != .gt) ++ ")"

def nodeShape {n : Nat} (i : Nat) (edges : List (Fin n × Level)) : String :=
  "#" ++ toString i ++
    String.join (edges.map fun e => ">" ++ toString e.1.val ++ ":" ++ Shape.level e.2 ++ ";")

def signature (f : Frame) : String :=
  String.join (f.edges.toList.mapIdx nodeSignature)

def shape (f : Frame) : String := String.join (f.edges.toList.mapIdx nodeShape)

def shapeDigest (f : Frame) : UInt64 := digest f.shape

def named (f : Frame) (row : Row) : SortedMap Variable Level :=
  .ofList (row.filterMap fun e => f.nodes[e.1]?.map fun v => (v, e.2))

/-- Every variable that is reached from `start`, with its level; computed on this
graph alone. -/
def links (f : Frame) (start : Variable) (floor : Option Level) :
    Except GraphError (SortedMap Variable Level) :=
  match f.position? start with
  | none => .error (.unknownVariable start.name)
  | some i => .ok (f.named (f.edges.row i floor))

end Frame

end LinkClosure
