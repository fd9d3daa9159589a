/-!
# TOML documents

A node is a scalar, a list, a table or a list of tables. A table remembers how
it came about, because that decides what may still be added to it: a table with
a header of its own is closed to dotted keys, one that dotted keys brought about
cannot get a header, one that merely lies on the path of a header can, and an
inline table is complete.
-/

set_option autoImplicit false

namespace LinkClosure.Toml

inductive Origin where
  | header
  | path
  | dotted
  | inline
  deriving DecidableEq, Repr

inductive Node where
  | text (value : String)
  | integer (value : Int)
  | float (digits : String)
  | boolean (value : Bool)
  | datetime (digits : String)
  | array (items : List Node)
  | table (origin : Origin) (entries : List (String × Node))
  | tables (elements : List (List (String × Node)))

abbrev Entries := List (String × Node)

def insertNew (key : String) (n : Node) (entries : Entries) : Option Entries :=
  if (entries.lookup key).isSome then none else some (entries ++ [(key, n)])

def replace (key : String) (n : Node) (entries : Entries) : Entries :=
  entries.map fun e => if e.1 == key then (key, n) else e

/-- Change the table at the end of a path. A key that is missing on the way becomes a
table of the origin `fresh`; existing tables are passed if `pass` admits their
origin; of a list of tables, the last one is meant. -/
def descend (pass : Origin → Bool) (fresh : Origin) (change : Origin → Entries → Option Entries) :
    List String → Origin → Entries → Option Entries
  | [], origin, entries => change origin entries
  | key :: rest, _, entries =>
    match entries.lookup key with
    | none =>
      (descend pass fresh change rest fresh []).map fun sub =>
        entries ++ [(key, .table fresh sub)]
    | some (.table origin sub) =>
      if pass origin then
        (descend pass fresh change rest origin sub).map fun sub =>
          replace key (.table origin sub) entries
      else none
    | some (.tables elements) =>
      (descend pass fresh change rest .header (elements.getLast?.getD [])).map fun sub =>
        replace key (.tables (elements.dropLast ++ [sub])) entries
    | some _ => none

/-- Give a value to a dotted key. Dotted keys add to tables that dotted keys brought
about, and to those on the path of a header only by way of new tables. -/
def assign (path : List String) (key : String) (n : Node) (origin : Origin) (entries : Entries) :
    Option Entries :=
  descend (fun o => o == .dotted || o == .path) .dotted
    (fun o es => if path.isEmpty || o == .dotted then insertNew key n es else none)
    path origin entries

def atHeader (path : List String) (change : Entries → Option Entries) (root : Entries) :
    Option Entries :=
  descend (· != .inline) .path (fun _ es => change es) path .header root

def openTable (key : String) (entries : Entries) : Option Entries :=
  match entries.lookup key with
  | none => some (entries ++ [(key, .table .header [])])
  | some (.table .path sub) => some (replace key (.table .header sub) entries)
  | some _ => none

def openElement (key : String) (entries : Entries) : Option Entries :=
  match entries.lookup key with
  | none => some (entries ++ [(key, .tables [[]])])
  | some (.tables elements) => some (replace key (.tables (elements ++ [[]])) entries)
  | some _ => none

def inlineTable (pairs : List ((List String × String) × Node)) : Option Node :=
  (pairs.foldlM (fun es p =>
    descend (· == .dotted) .dotted
      (fun o es => if p.1.1.isEmpty || o == .dotted then insertNew p.1.2 p.2 es else none)
      p.1.1 .inline es) []).map (.table .inline)

/-- A line of a document. Keys are split into all parts but the last, and the last. -/
inductive Statement where
  | assignment (path : List String) (key : String) (value : Node)
  | header (path : List String) (key : String)
  | elementHeader (path : List String) (key : String)

/-- The document so far and the header under which assignments stand. -/
structure Assembly where
  root : Entries
  current : List String

namespace Assembly

def start : Assembly := ⟨[], []⟩

def add (a : Assembly) : Statement → Option Assembly
  | .assignment path key n =>
    (atHeader a.current (assign path key n .header) a.root).map fun root => { a with root }
  | .header path key =>
    (atHeader path (openTable key) a.root).map fun root => ⟨root, path ++ [key]⟩
  | .elementHeader path key =>
    (atHeader path (openElement key) a.root).map fun root => ⟨root, path ++ [key]⟩

end Assembly

def assemble (statements : List Statement) : Option Entries :=
  (statements.foldlM Assembly.add .start).map Assembly.root

end LinkClosure.Toml
