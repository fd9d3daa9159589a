import LinkClosure.Engine
import LinkClosure.Graph.Cluster

/-!
# Sessions

A session works through requests one after the other, on graphs and closures
that are kept under names. A graph comes into being, empty, when its name is
first used; asking for its closure or its clusters freezes it.
-/

set_option autoImplicit false

namespace LinkClosure

inductive Request where
  | add (graph : String) (v : Variable) (edges : List (Variable × Level))
  | addAll (graph : String) (nodes : List (Variable × List (Variable × Level)))
  | info (graph : String)
  | contains (graph : String) (v : Variable)
  | visit (graph : String)
  | clusters (graph : String)
  | close (graph closure : String)
  | links (closure : String) (start : Variable) (floor : Option Level)
  | linksOfAll (closure : String)
  | variableAt (closure : String) (i : Nat)
  | savings (closure : String)
  | shapeDigest (closure : String)
  | sameDigest (closure other : String)
  | cacheCounters
  | invalidate
  | discard (digest : UInt64)
  | engine
  | report
  | trace

inductive Answer where
  | nothing
  | unknownClosure
  | failure (error : GraphError)
  | flag (value : Bool)
  | count (value : Nat)
  | graph (value : Graph)
  | nodes (value : List (Variable × SortedMap Variable Level))
  | clusters (value : Clusters)
  | frame (value : Frame)
  | row (value : SortedMap Variable Level)
  | variableAt (value : Option Variable)
  | digest (value : UInt64)
  | counters (entries : Nat) (value : CacheCounters)
  | engine (value : Engine)
  | trace (records : List TraceRecord)

structure Session where
  hasEngine : Bool
  engine : Engine
  graphs : SortedMap String Graph
  closures : SortedMap String Closure

namespace Session

def start : Option Settings → Session
  | none => ⟨false, .plain, .empty, .empty⟩
  | some s => ⟨true, .ofSettings s, .empty, .empty⟩

def graph (s : Session) (name : String) : Graph := (s.graphs.get? name).getD .empty

def setGraph (name : String) (g : Graph) (s : Session) : Session :=
  { s with graphs := s.graphs.insert name g }

/-- Add nodes until one is refused. -/
def addNodes (g : Graph) : List (Variable × List (Variable × Level)) → Graph × Option GraphError
  | [] => (g, none)
  | n :: rest =>
    match (Graph.addNode n.1 n.2).run g with
    | .ok _ g => addNodes g rest
    | .error err g => (g, some err)

def addTo (name : String) (nodes : List (Variable × List (Variable × Level))) (s : Session) :
    Session × Answer :=
  let (g, err) := addNodes (s.graph name) nodes
  (s.setGraph name g, err.elim (.graph g) .failure)

def onClosure (name : String) (s : Session) (f : Closure → Session × Answer) : Session × Answer :=
  match s.closures.get? name with
  | some c => f c
  | none => (s, .unknownClosure)

def withEngine (e : Engine) (s : Session) : Session := { s with engine := e }

def perform (s : Session) : Request → Session × Answer
  | .add name v edges => s.addTo name [(v, edges)]
  | .addAll name nodes => s.addTo name nodes
  | .info name =>
    let g := s.graph name
    (s.setGraph name g, .graph g)
  | .contains name v =>
    let g := s.graph name
    (s.setGraph name g, .flag (g.contains v))
  | .visit name =>
    let g := s.graph name
    (s.setGraph name g, .nodes g.nodes)
  | .clusters name =>
    let g := (s.graph name).freeze
    (s.setGraph name g, .clusters g.clusters)
  | .close name closure =>
    let g := (s.graph name).freeze
    let (e, c) := s.engine.close g
    ({ s.setGraph name g with engine := e, closures := s.closures.insert closure c },
      .frame c.frame)
  | .links closure start floor => s.onClosure closure fun c =>
    let (e, row) := s.engine.links c start floor
    (s.withEngine e, match row with | .ok row => .row row | .error err => .failure err)
  | .linksOfAll closure => s.onClosure closure fun c =>
    let (e, rows) := s.engine.linksOfAll c
    (s.withEngine e, .nodes rows)
  | .variableAt closure i => s.onClosure closure fun c => (s, .variableAt c.frame.nodes[i]?)
  | .savings closure => s.onClosure closure fun c => (s, .count (s.engine.savings c))
  | .shapeDigest closure => s.onClosure closure fun c => (s, .digest c.frame.shapeDigest)
  | .sameDigest closure other => s.onClosure closure fun c =>
    s.onClosure other fun d => (s, .flag (c.frame.shapeDigest == d.frame.shapeDigest))
  | .cacheCounters =>
    let e := s.engine.maintain
    (s.withEngine e, match e.cache with
      | some c => .counters c.size c.counters
      | none => .nothing)
  | .invalidate => (s.withEngine s.engine.invalidate, .nothing)
  | .discard d => (s.withEngine (s.engine.discard d), .nothing)
  | .engine => (s, if s.hasEngine then .engine s.engine else .nothing)
  | .report => (s.withEngine s.engine.report, .nothing)
  | .trace =>
    let (e, records) := s.engine.takeTrace
    (s.withEngine e, .trace records)

def run (s : Session) : List Request → Session × List Answer
  | [] => (s, [])
  | r :: rest =>
    let (s, a) := s.perform r
    let (s, as) := s.run rest
    (s, a :: as)

end Session

end LinkClosure
