import LinkClosure.Engine.Trace

/-!
# The cache of shapes

The cache remembers, for the digest of a shape, the number of the table that
serves it. Finding and storing take effect at once; all other bookkeeping
waits. Look-ups and stores are logged, and maintenance works the log off, on
request or when a look-up is logged behind too many others.

Maintenance admits stored slots one after the other. A newcomer to a full cache
takes the place of the least recently used resident if it has been looked up
more often, and is dropped itself otherwise; either way one slot counts as
removed. Look-ups are counted once the cache has been found half full.

Invalidated slots are not found any more but keep their places until the next
maintenance is through with admissions. What is given up on request does not
count as removed. A cache without capacity stores nothing.
-/

set_option autoImplicit false

namespace LinkClosure

structure Slot where
  digest : UInt64
  table : Nat
  isValid : Bool
  isResident : Bool
  deriving DecidableEq, Repr

structure Lookup where
  digest : UInt64
  found : Bool
  deriving DecidableEq, Repr

/-- The slots stand by their last use, the least recent first. -/
structure ShapeCache where
  capacity : Nat
  slots : List Slot
  lookups : List Lookup
  stores : List UInt64
  counted : Option (List UInt64)
  counters : CacheCounters

namespace ShapeCache

def ofCapacity (capacity : Nat) : ShapeCache := ⟨capacity, [], [], [], none, .zero⟩

def size (c : ShapeCache) : Nat := c.slots.length

def slot? (c : ShapeCache) (d : UInt64) : Option Slot := c.slots.find? fun s => s.digest == d

def find? (c : ShapeCache) (d : UInt64) : Option Nat :=
  ((c.slot? d).filter Slot.isValid).map Slot.table

def countHit (c : ShapeCache) : ShapeCache :=
  { c with counters := { c.counters with hits := c.counters.hits + 1 } }

def countMiss (c : ShapeCache) : ShapeCache :=
  { c with counters := { c.counters with misses := c.counters.misses + 1 } }

/-- Account for removed slots, whose tables have these savings. -/
def countRemovals (savings : List Nat) (c : ShapeCache) : ShapeCache :=
  { c with counters :=
      { c.counters with
        removals := c.counters.removals + savings.length
        evictedSavings := savings.foldl (· + ·) c.counters.evictedSavings } }

def remove (savingsOf : Nat → Nat) (d : UInt64) (c : ShapeCache) : ShapeCache :=
  let removed := c.slots.filter fun s => s.digest == d
  countRemovals (removed.map fun s => savingsOf s.table)
    { c with slots := c.slots.filter fun s => s.digest != d }

/-- Change the slot of a digest, as its latest use. -/
def touch (change : Slot → Slot) (d : UInt64) (c : ShapeCache) : ShapeCache :=
  { c with slots :=
      (c.slots.filter fun s => s.digest != d) ++
        (c.slots.filter fun s => s.digest == d).map change }

def residents (c : ShapeCache) : List Slot := c.slots.filter Slot.isResident

/-- How often a digest has been looked up since counting began; the count ends at
fifteen. -/
def demand (c : ShapeCache) (d : UInt64) : Nat := Nat.min 15 ((c.counted.getD []).count d)

def settleLookup (c : ShapeCache) (l : Lookup) : ShapeCache :=
  let c := { c with counted := c.counted.map (l.digest :: ·) }
  if l.found then c.touch id l.digest else c

/-- The resident that a newcomer may replace. One that is about to be stored again is
passed over. -/
def victim? (waiting : List UInt64) (c : ShapeCache) : Option Slot :=
  c.residents.find? fun s => !waiting.contains s.digest

/-- Admit the slot of a digest, or remove it or the one that makes way for it; the
digests in `waiting` are still to be settled. A slot that is about to be stored again
is not removed before that. -/
def settleStore (savingsOf : Nat → Nat) (waiting : List UInt64) (d : UInt64) (c : ShapeCache) :
    ShapeCache :=
  match c.slot? d with
  | none => c
  | some s =>
    let admitted := touch (fun s => { s with isResident := true }) d
    if s.isResident || c.residents.length < c.capacity then admitted c
    else
      match (c.victim? waiting).filter fun v => c.demand v.digest < c.demand d with
      | some v => admitted (c.remove savingsOf v.digest)
      | none => if waiting.contains d then c else c.remove savingsOf d

def settleStores (savingsOf : Nat → Nat) : List UInt64 → ShapeCache → ShapeCache
  | [], c => c
  | d :: waiting, c => settleStores savingsOf waiting (c.settleStore savingsOf waiting d)

def startCounting (c : ShapeCache) : ShapeCache :=
  if c.counted.isNone && c.capacity / 2 ≤ c.residents.length then { c with counted := some [] }
  else c

def dropInvalid (c : ShapeCache) : ShapeCache := { c with slots := c.slots.filter Slot.isValid }

/-- Work off the log: look-ups before stores. -/
def maintain (savingsOf : Nat → Nat) (c : ShapeCache) : ShapeCache :=
  let settled := c.lookups.foldl settleLookup { c with lookups := [], stores := [] }
  (settleStores savingsOf c.stores settled).startCounting.dropInvalid

def logLimit : Nat := 64

def logLookup (savingsOf : Nat → Nat) (l : Lookup) (c : ShapeCache) : ShapeCache :=
  let c := if logLimit ≤ c.lookups.length then c.maintain savingsOf else c
  { c with lookups := c.lookups ++ [l] }

/-- An invalidated slot of the same digest is renewed in its place. -/
def store (d : UInt64) (table : Nat) (c : ShapeCache) : ShapeCache :=
  if c.capacity = 0 then c
  else
    { c with
      stores := c.stores ++ [d]
      slots :=
        if (c.slot? d).isSome then
          c.slots.map fun s => if s.digest == d then { s with table, isValid := true } else s
        else c.slots ++ [⟨d, table, true, false⟩] }

def invalidate (c : ShapeCache) : ShapeCache :=
  { c with slots := c.slots.map fun s => { s with isValid := false } }

end ShapeCache

end LinkClosure
