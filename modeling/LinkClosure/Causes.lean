import LinkClosure.Sorted.Set

/-!
# Causes of a delay

The labels that explain why a relationship is not known yet. Causes accumulate:
merging two delays keeps all causes of both.
-/

set_option autoImplicit false

namespace LinkClosure

structure Causes where
  labels : SortedSet String
  deriving DecidableEq

namespace Causes

def none : Causes := ⟨.empty⟩

def single (label : String) : Causes := ⟨.singleton label⟩

def ofList (labels : List String) : Causes := ⟨.ofList labels⟩

def toList (c : Causes) : List String := c.labels.toList

def size (c : Causes) : Nat := c.labels.size

def isEmpty (c : Causes) : Bool := c.labels.isEmpty

def merge (c d : Causes) : Causes := ⟨c.labels.union d.labels⟩

def render (c : Causes) : String := ",".intercalate c.toList

end Causes

end LinkClosure
