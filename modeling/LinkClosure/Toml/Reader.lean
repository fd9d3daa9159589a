import LinkClosure.Toml.Quoted

/-!
# Reading TOML

A document is a list of statements, one on a line: assignments and headers, with
blanks, comments and empty lines between them. Values nest in arrays and inline
tables; arrays may extend over several lines, inline tables may not. Nesting
and the number of parts of a key are limited.
-/

set_option autoImplicit false

namespace LinkClosure.Toml

/-- Fewer levels of nesting, and fewer parts of a key, than this. -/
def nestingLimit : Nat := 80

def skipBlanks (cs : List Char) : List Char := cs.dropWhile isBlank

def lineEnd? (cs : List Char) : Option (List Char) :=
  let cs := skipBlanks cs
  let cs := if cs.head? == some '#' then cs.dropWhile isTextChar else cs
  match cs with
  | [] => some []
  | '\n' :: rest => some rest
  | '\r' :: '\n' :: rest => some rest
  | _ => none

def skipLines (inComment : Bool) : List Char → List Char
  | [] => []
  | '\n' :: rest => skipLines false rest
  | '\r' :: '\n' :: rest => skipLines false rest
  | c :: rest =>
    if inComment then if isTextChar c then skipLines true rest else c :: rest
    else if isBlank c then skipLines false rest
    else if c == '#' then skipLines true rest
    else c :: rest

def isBareKeyChar (c : Char) : Bool := c.isAlphanum || c == '-' || c == '_'

def keyPart? (cs : List Char) : Option (String × List Char) :=
  match cs with
  | [] => none
  | c :: rest =>
    if c == '"' then (basicString? rest).map fun r => (String.ofList r.1, r.2)
    else if c == singleQuote then (literalString? rest).map fun r => (String.ofList r.1, r.2)
    else if isBareKeyChar c then
      some (String.ofList (cs.takeWhile isBareKeyChar), cs.dropWhile isBareKeyChar)
    else none

def keyParts? : Nat → List Char → Option (List String × List Char)
  | 0, _ => none
  | k + 1, cs => do
    let (part, rest) ← keyPart? (skipBlanks cs)
    match skipBlanks rest with
    | '.' :: rest =>
      let (parts, rest) ← keyParts? k rest
      return (part :: parts, rest)
    | rest => return ([part], rest)

def key? (cs : List Char) : Option ((List String × String) × List Char) := do
  let (parts, rest) ← keyParts? (nestingLimit - 1) cs
  let last ← parts.getLast?
  return ((parts.dropLast, last), rest)

mutual

/-- The value at the start of a text. `depth` levels may still be opened; `fuel` bounds
the number of steps and never runs out before the text does. -/
def value? : Nat → Nat → List Char → Option (Node × List Char)
  | 0, _, _ => none
  | fuel + 1, depth, cs =>
    match cs with
    | '[' :: rest =>
      if depth = 0 then none
      else (items? fuel (depth - 1) rest).map fun r => (.array r.1, r.2)
    | '\x7b' :: rest =>
      if depth = 0 then none
      else
        match skipBlanks rest with
        | '\x7d' :: rest => some (.table .inline [], rest)
        | _ => do
          let (pairs, rest) ← pairs? fuel (depth - 1) rest
          return (← inlineTable pairs, rest)
    | _ =>
      if cs.head? == some '"' || cs.head? == some singleQuote then
        (string? cs).map fun r => (.text (String.ofList r.1), r.2)
      else scalar? cs

def items? : Nat → Nat → List Char → Option (List Node × List Char)
  | 0, _, _ => none
  | fuel + 1, depth, cs =>
    match skipLines false cs with
    | ']' :: rest => some ([], rest)
    | cs => do
      let (n, rest) ← value? fuel depth cs
      match skipLines false rest with
      | ',' :: rest =>
        let (ns, rest) ← items? fuel depth rest
        return (n :: ns, rest)
      | ']' :: rest => return ([n], rest)
      | _ => none

def pairs? : Nat → Nat → List Char → Option (List ((List String × String) × Node) × List Char)
  | 0, _, _ => none
  | fuel + 1, depth, cs => do
    let (key, rest) ← key? cs
    match rest with
    | '=' :: rest =>
      let (n, rest) ← value? fuel depth (skipBlanks rest)
      match skipBlanks rest with
      | ',' :: rest =>
        let (ps, rest) ← pairs? fuel depth rest
        return ((key, n) :: ps, rest)
      | '\x7d' :: rest => return ([(key, n)], rest)
      | _ => none
    | _ => none

end

def assignment? (cs : List Char) : Option (Statement × List Char) := do
  let ((path, key), rest) ← key? cs
  match rest with
  | '=' :: rest =>
    let (n, rest) ← value? cs.length (nestingLimit - 1) (skipBlanks rest)
    return (.assignment path key n, ← lineEnd? rest)
  | _ => none

def elementHeader? (cs : List Char) : Option (Statement × List Char) := do
  let ((path, key), rest) ← key? cs
  match rest with
  | ']' :: ']' :: rest => return (.elementHeader path key, ← lineEnd? rest)
  | _ => none

def header? (cs : List Char) : Option (Statement × List Char) := do
  let ((path, key), rest) ← key? cs
  match rest with
  | ']' :: rest => return (.header path key, ← lineEnd? rest)
  | _ => none

def statement? (cs : List Char) : Option (Statement × List Char) :=
  match cs with
  | '[' :: '[' :: rest => elementHeader? rest
  | '[' :: rest => header? rest
  | _ => assignment? cs

def statements? : Nat → List Char → Option (List Statement)
  | 0, _ => none
  | fuel + 1, cs =>
    match skipBlanks cs with
    | [] => some []
    | cs =>
      match lineEnd? cs with
      | some rest => statements? fuel rest
      | none => do
        let (s, rest) ← statement? cs
        return s :: (← statements? fuel rest)

def dropMark (cs : List Char) : List Char :=
  match cs with
  | '\ufeff' :: rest => rest
  | _ => cs

def read? (text : String) : Option Entries :=
  let cs := dropMark text.toList
  (statements? (cs.length + 1) cs).bind assemble

end LinkClosure.Toml
