import LinkClosure.Engine.RowTable
import LinkClosure.Engine.ShapeCache
import LinkClosure.Graph.Frame
import LinkClosure.Settings

/-!
# Engines

An engine makes closures of graphs and answers questions about them. Closures
of graphs with the same shape share one table of rows as long as the cache
knows the shape; a closure keeps its table for good, also when the cache has
dropped it. Tables are numbered in order of creation.
-/

set_option autoImplicit false

namespace LinkClosure

structure Engine where
  isEager : Bool
  logsRejections : Bool
  cache : Option ShapeCache
  tables : Array RowTable
  trace : Array TraceRecord

/-- A frozen graph together with the number of the table that holds its rows. -/
structure Closure where
  frame : Frame
  table : Nat

namespace Engine

/-- Without settings there is neither a cache nor a record of the creation. -/
def plain : Engine := ⟨false, false, none, #[], #[]⟩

def ofSettings (s : Settings) : Engine :=
  ⟨s.isEager, s.logsRejections,
    if s.usesCache then some (.ofCapacity s.capacity) else none, #[],
    #[.engineCreated s.usesCache s.isEager]⟩

def log (r : TraceRecord) (e : Engine) : Engine := { e with trace := e.trace.push r }

def mapCache (f : ShapeCache → ShapeCache) (e : Engine) : Engine :=
  { e with cache := e.cache.map f }

def savingsOf (e : Engine) (table : Nat) : Nat := (e.tables[table]?.map RowTable.savings).getD 0

def openTable (shape : String) (e : Engine) : Engine × Nat :=
  ({ e with tables := e.tables.push (.ofShape shape) }, e.tables.size)

def hasShape (e : Engine) (shape : String) (table : Nat) : Bool :=
  e.tables[table]?.any fun t => t.shape == shape

def logLookup (l : Lookup) (e : Engine) : Engine :=
  e.mapCache (ShapeCache.logLookup e.savingsOf l)

/-- The table for a shape. A shape that is not found is looked up once more before a new
table is stored for it. Where two shapes have the same digest, the later one gets a
table of its own that is not cached. -/
def tableFor (shape : String) (e : Engine) : Engine × Nat :=
  match e.cache with
  | none => e.openTable shape
  | some c =>
    let d := digest shape
    match c.find? d with
    | some table =>
      let e := ((e.logLookup ⟨d, true⟩).mapCache ShapeCache.countHit).log .cacheHit
      if e.hasShape shape table then (e, table) else (e.log .cacheCollision).openTable shape
    | none =>
      let e := ((e.logLookup ⟨d, false⟩).mapCache ShapeCache.countMiss).log .cacheMiss
      let (e, table) := (e.logLookup ⟨d, false⟩).openTable shape
      (e.mapCache (ShapeCache.store d table), table)

def rowRecords (e : Engine) (f : Frame) (i : Fin f.nodes.size) (floor : Option Level)
    (row : Row) : List TraceRecord :=
  let rejected :=
    if e.logsRejections then
      (f.edges.refusals i floor).map fun r =>
        .compositionRejected f.nodes[r.1].name f.nodes[r.2].name
    else []
  .rowStarted i.val (floor.map Level.rank) :: rejected ++ [.rowComputed row.length]

def row (c : Closure) (i : Fin c.frame.nodes.size) (floor : Option Level) (e : Engine) :
    Engine × Row :=
  let key : RowKey := ⟨i.val, floor.map Level.rank⟩
  match (e.tables[c.table]?).bind (·.find? key) with
  | some row => ({ e with tables := e.tables.modify c.table RowTable.countSaving }, row)
  | none =>
    let row := c.frame.edges.row i floor
    ({ e with
        tables := e.tables.modify c.table (RowTable.store key row)
        trace := e.trace ++ e.rowRecords c.frame i floor row }, row)

def allRows (c : Closure) (e : Engine) : Engine :=
  (List.finRange c.frame.nodes.size).foldl (fun e i => (e.row c i none).1) e

def close (g : Graph) (e : Engine) : Engine × Closure :=
  let f := Frame.ofGraph g
  let (e, table) := (e.log (.graphFrozen f.size f.edgeCount)).tableFor f.shape
  let c : Closure := ⟨f, table⟩
  (if e.isEager then e.allRows c else e, c)

def links (c : Closure) (start : Variable) (floor : Option Level) (e : Engine) :
    Engine × Except GraphError (SortedMap Variable Level) :=
  match c.frame.position? start with
  | none => (e, .error (.unknownVariable start.name))
  | some i =>
    let (e, row) := e.row c i floor
    (e, .ok (c.frame.named row))

/-- One row for each variable, without floor, by increasing variable. -/
def linksOfAll (c : Closure) (e : Engine) :
    Engine × List (Variable × SortedMap Variable Level) :=
  (List.finRange c.frame.nodes.size).foldl (fun (acc : Engine × List _) i =>
    let (e, row) := acc.1.row c i none
    (e, acc.2 ++ [(c.frame.nodes[i], c.frame.named row)])) (e, [])

def savings (c : Closure) (e : Engine) : Nat := e.savingsOf c.table

def maintain (e : Engine) : Engine := e.mapCache (ShapeCache.maintain e.savingsOf)

/-- The cache gives up the slot of a digest on its own account. -/
def discard (d : UInt64) (e : Engine) : Engine :=
  e.mapCache (ShapeCache.remove e.savingsOf d)

def invalidate (e : Engine) : Engine := e.mapCache ShapeCache.invalidate

def report (e : Engine) : Engine :=
  match e.cache with
  | some c => e.log (.cacheReport c.counters)
  | none => e

def takeTrace (e : Engine) : Engine × List TraceRecord :=
  ({ e with trace := #[] }, e.trace.toList)

end Engine

end LinkClosure
