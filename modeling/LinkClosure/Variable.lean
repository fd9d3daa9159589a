/-!
# Variables

A variable of the analysed scope is known by its fully qualified name. Such
names share long beginnings, so the order compares them from their last
character backwards, and falls back on kind and simple name.
-/

set_option autoImplicit false

namespace LinkClosure

inductive VariableKind where
  | local
  | field
  | this
  | returnValue
  deriving DecidableEq, Repr

namespace VariableKind

def toNat : VariableKind → Nat
  | .local => 0
  | .field => 1
  | .this => 2
  | .returnValue => 3

theorem toNat_inj {a b : VariableKind} (h : a.toNat = b.toNat) : a = b := by
  cases a <;> cases b <;> simp_all [toNat]

instance : Ord VariableKind := ⟨compareOn toNat⟩

instance : Std.TransOrd VariableKind := inferInstanceAs (Std.TransCmp (compareOn toNat))

instance : Std.LawfulEqOrd VariableKind where
  eq_of_compare h := toNat_inj (Std.LawfulEqOrd.eq_of_compare (α := Nat) h)
  compare_self := Std.ReflOrd.compare_self (α := Nat)

end VariableKind

structure Variable where
  name : String
  simpleName : String
  kind : VariableKind
  deriving DecidableEq, Repr

namespace Variable

def backwards (name : String) : List Char := name.toList.reverse

def compareBackwards (a b : String) : Ordering := compare (backwards a) (backwards b)

instance : Ord Variable :=
  ⟨compareLex (fun u v => compareBackwards u.name v.name)
    (compareLex (compareOn kind) (compareOn simpleName))⟩

instance : Std.TransOrd Variable :=
  inferInstanceAs (Std.TransCmp (compareLex (compareOn fun v : Variable => backwards v.name)
    (compareLex (compareOn kind) (compareOn simpleName))))

theorem eq_of_compare {a b : Variable} (h : compare a b = .eq) : a = b := by
  obtain ⟨hn, h⟩ := Ordering.then_eq_eq.1 h
  obtain ⟨hk, hs⟩ := Ordering.then_eq_eq.1 h
  have hname : a.name = b.name :=
    String.toList_inj.1 (List.reverse_inj.1 (Std.LawfulEqOrd.eq_of_compare hn))
  have hkind : a.kind = b.kind := Std.LawfulEqOrd.eq_of_compare hk
  have hsimple : a.simpleName = b.simpleName := Std.LawfulEqOrd.eq_of_compare hs
  cases a; cases b
  simp_all

instance : Std.LawfulEqOrd Variable where
  eq_of_compare := eq_of_compare

def lastSegment (name : String) : String :=
  String.ofList ((backwards name).takeWhile (· != '.')).reverse

def ofName (kind : VariableKind) (name : String) : Variable := ⟨name, lastSegment name, kind⟩

def isReturnValue (v : Variable) : Bool := v.kind == .returnValue

end Variable

end LinkClosure
