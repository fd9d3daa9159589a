import LinkClosure.Digest

/-!
# Trace records

What an engine reports while it works, in the order in which it happens.
-/

set_option autoImplicit false

namespace LinkClosure

/-- Counted without bound. Counters of 64 bits show the same as long as fewer than `2 ^ 64`
closures are made and rows asked for. -/
structure CacheCounters where
  hits : Nat
  misses : Nat
  removals : Nat
  evictedSavings : Nat
  deriving DecidableEq, Repr

namespace CacheCounters

def zero : CacheCounters := ⟨0, 0, 0, 0⟩

def hitRate (c : CacheCounters) : Float :=
  let total := c.hits.toFloat + c.misses.toFloat
  if total == 0 then 0 else c.hits.toFloat / total

def hitRateBits (c : CacheCounters) : String := hexadecimal 16 c.hitRate.toBits.toNat

def render (c : CacheCounters) : String :=
  "ClosureCache \x7b hits: " ++ toString c.hits ++ ", misses: " ++ toString c.misses ++
    ", removals: " ++ toString c.removals ++ " \x7d"

end CacheCounters

inductive TraceRecord where
  | engineCreated (cacheEnabled eager : Bool)
  | graphFrozen (nodes edges : Nat)
  | cacheHit
  | cacheMiss
  | cacheCollision
  | rowStarted (start : Nat) (floor : Option Int)
  | compositionRejected (source target : String)
  | rowComputed (reached : Nat)
  | cacheReport (counters : CacheCounters)
  deriving DecidableEq, Repr

namespace TraceRecord

def flag (b : Bool) : String := if b then "true" else "false"

def rankText : Option Int → String
  | none => "None"
  | some r => "Some(" ++ toString r ++ ")"

def event (level message : String) (fields : List (String × String)) : List (String × String) :=
  ("level", level) :: ("message", message) :: fields

/-- Names and values of a record; the start of a row is a span, all else an event. -/
def fields : TraceRecord → List (String × String)
  | engineCreated cacheEnabled eager =>
    event "DEBUG" "closure engine created"
      [("cache_enabled", flag cacheEnabled), ("eager_closure", flag eager)]
  | graphFrozen nodes edges =>
    event "DEBUG" "graph frozen"
      [("graph_node_count", toString nodes), ("graph_edge_count", toString edges)]
  | cacheHit => event "TRACE" "closure cache hit" []
  | cacheMiss => event "TRACE" "closure cache miss" []
  | cacheCollision => event "WARN" "closure cache hash collision" []
  | rowStarted start floor =>
    [("span", "closure_row"), ("start", toString start), ("floor", rankText floor)]
  | compositionRejected source target =>
    event "TRACE" "composition rejected" [("from", source), ("to", target)]
  | rowComputed reached =>
    event "DEBUG" "closure row computed" [("closure_reached", toString reached)]
  | cacheReport c =>
    event "INFO" "closure cache"
      [("hits", toString c.hits), ("misses", toString c.misses),
        ("removals", toString c.removals), ("cache_hit_rate", c.hitRateBits),
        ("closure_savings", toString c.evictedSavings)]

end TraceRecord

end LinkClosure
