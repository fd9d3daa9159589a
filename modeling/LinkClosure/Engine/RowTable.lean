import LinkClosure.Closure.Row

/-!
# Tables of computed rows

All closures of one shape share a table. A row is stored under its start and the
rank of its floor, since the floor acts through its rank alone; each request
that finds its row stored counts as saved.
-/

set_option autoImplicit false

namespace LinkClosure

structure RowKey where
  start : Nat
  floor : Option Int
  deriving DecidableEq, Repr

/-- Savings are counted without bound. A counter of 64 bits shows the same as long as fewer
than `2 ^ 64` rows are asked for. -/
structure RowTable where
  shape : String
  rows : List (RowKey × Row)
  savings : Nat

namespace RowTable

def ofShape (shape : String) : RowTable := ⟨shape, [], 0⟩

def find? (t : RowTable) (k : RowKey) : Option Row := t.rows.lookup k

def store (k : RowKey) (row : Row) (t : RowTable) : RowTable :=
  { t with rows := (k, row) :: t.rows }

def countSaving (t : RowTable) : RowTable := { t with savings := t.savings + 1 }

end RowTable

end LinkClosure
