import LinkClosure.Level
import LinkClosure.Variable

/-!
# The linked variables of one variable

What a closure says about a variable, as it is handed on: the level of each
linked variable, or the marker that nothing has been computed yet.
-/

set_option autoImplicit false

namespace LinkClosure

inductive Neighbourhood where
  | notYetSet
  | resolved (levels : SortedMap Variable Level)
  deriving DecidableEq

namespace Neighbourhood

def empty : Neighbourhood := .resolved .empty

def single (v : Variable) (l : Level) : Neighbourhood := .resolved (.singleton v l)

def isNotYetSet : Neighbourhood → Bool
  | notYetSet => true
  | resolved _ => false

/-- The marker counts as delayed. -/
def isDelayed : Neighbourhood → Bool
  | notYetSet => true
  | resolved m => m.values.any Level.isDelayed

def contains (v : Variable) : Neighbourhood → Bool
  | notYetSet => false
  | resolved m => m.contains v

def levels (operation : String) : Neighbourhood → Except GraphError (SortedMap Variable Level)
  | notYetSet => .error (.notYetSet operation)
  | resolved m => .ok m

def value (v : Variable) (n : Neighbourhood) : Except GraphError (Option Level) :=
  (n.levels "value").map (·.get? v)

def size (n : Neighbourhood) : Except GraphError Nat := (n.levels "len").map (·.size)

def isEmpty (n : Neighbourhood) : Except GraphError Bool := (n.levels "is_empty").map (·.isEmpty)

def toList (n : Neighbourhood) : Except GraphError (List (Variable × Level)) :=
  (n.levels "iter").map (·.entries)

/-- The text by which `select` orders an entry. -/
def selectionKey (e : Variable × Level) : String :=
  e.1.simpleName ++ ":" ++ toString e.2.rank

def bySelectionKey (m : SortedMap Variable Level) : List (Variable × Level) :=
  m.entries.mergeSort fun a b => compare (selectionKey a) (selectionKey b) != .gt

/-- The level at an index when entries are ordered by simple name and rank. -/
def select (i : Nat) (n : Neighbourhood) : Except GraphError Level :=
  (n.levels "select").bind fun m =>
    match (bySelectionKey m)[i]? with
    | some e => .ok e.2
    | none => .error (.selectOutOfRange i m.size)

def comparePrinted (a b : Variable × Level) : Ordering :=
  (compare a.1.simpleName b.1.simpleName).then (compare a.1.name b.1.name)

def byPrintedName (m : SortedMap Variable Level) : List (Variable × Level) :=
  m.entries.mergeSort fun a b => comparePrinted a b != .gt

def render : Neighbourhood → String
  | notYetSet => "NOT_YET_SET"
  | resolved m =>
    ", ".intercalate ((byPrintedName m).map fun e => e.2.render ++ ":" ++ e.1.simpleName)

/-- A level of the other side, raised to at least the given minimum. -/
def raise (minimum : Option Level) (l : Level) : Except Level.Clash Level :=
  match minimum with
  | none => .ok l
  | some k => l.max k

/-- Static assignment on either side stays; all else is combined. -/
def mergeLevels (mine theirs : Level) : Level :=
  if mine = .staticallyAssigned || theirs = .staticallyAssigned then .staticallyAssigned
  else theirs.min mine

def merge (a b : Neighbourhood) (minimum : Option Level) : Except Level.Clash Neighbourhood :=
  match a, b with
  | resolved m, resolved n => do
    let raised ← n.entries.mapM fun e => (raise minimum e.2).map fun l => (e.1, l)
    return .resolved (raised.foldl (fun acc e => acc.insertWith mergeLevels e.1 e.2) m)
  | _, _ => .ok .notYetSet

end Neighbourhood

end LinkClosure
