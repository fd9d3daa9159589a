import LinkClosure.Toml.Scalar

/-!
# TOML strings

Basic strings stand between double quotes and know escapes, literal strings
between single quotes and know none. Tripled quotes allow line breaks and up to
two quotes just before the closing ones; a first line break is dropped, and in a
basic string a backslash at the end of a line joins it with the next text.
Each function reads behind the opening quotes and gives the content and what
follows the closing quotes.
-/

set_option autoImplicit false

namespace LinkClosure.Toml

def singleQuote : Char := '\x27'

def isBlank (c : Char) : Bool := c == ' ' || c == '\t'

def isTextChar (c : Char) : Bool := c == '\t' || (' ' ≤ c && c != '\x7f')

def simpleEscape? (c : Char) : Option Char :=
  match c with
  | 'b' => some '\x08'
  | 't' => some '\t'
  | 'n' => some '\n'
  | 'f' => some '\x0c'
  | 'r' => some '\r'
  | '"' => some '"'
  | '\\' => some '\\'
  | _ => none

def codePoint? (ds : List Char) : Option Char :=
  let n := natOfDigits 16 ds
  if ds.all isHexDigit && n.isValidChar then some (Char.ofNat n) else none

def contentCons (c : Char) (r : List Char × List Char) : List Char × List Char := (c :: r.1, r.2)

def basicString? : List Char → Option (List Char × List Char)
  | [] => none
  | '"' :: rest => some ([], rest)
  | '\\' :: 'u' :: a :: b :: c :: d :: rest => do
    return contentCons (← codePoint? [a, b, c, d]) (← basicString? rest)
  | '\\' :: 'U' :: a :: b :: c :: d :: e :: f :: g :: h :: rest => do
    return contentCons (← codePoint? [a, b, c, d, e, f, g, h]) (← basicString? rest)
  | '\\' :: c :: rest => do return contentCons (← simpleEscape? c) (← basicString? rest)
  | c :: rest => if isTextChar c then (basicString? rest).map (contentCons c) else none

def literalString? : List Char → Option (List Char × List Char)
  | [] => none
  | c :: rest =>
    if c == singleQuote then some ([], rest)
    else if isTextChar c then (literalString? rest).map (contentCons c)
    else none

def joinsLines (rest : List Char) : Bool :=
  match rest.dropWhile isBlank with
  | '\n' :: _ => true
  | '\r' :: '\n' :: _ => true
  | _ => false

/-- With `joining` set, blanks and line breaks are skipped. -/
def longBasicString? (joining : Bool) : List Char → Option (List Char × List Char)
  | [] => none
  | '"' :: '"' :: '"' :: '"' :: '"' :: rest =>
    if rest.head? == some '"' then none else some (['"', '"'], rest)
  | '"' :: '"' :: '"' :: '"' :: rest => some (['"'], rest)
  | '"' :: '"' :: '"' :: rest => some ([], rest)
  | '\\' :: 'u' :: a :: b :: c :: d :: rest => do
    return contentCons (← codePoint? [a, b, c, d]) (← longBasicString? false rest)
  | '\\' :: 'U' :: a :: b :: c :: d :: e :: f :: g :: h :: rest => do
    return contentCons (← codePoint? [a, b, c, d, e, f, g, h]) (← longBasicString? false rest)
  | '\\' :: c :: rest =>
    if joinsLines (c :: rest) then longBasicString? true (c :: rest)
    else do return contentCons (← simpleEscape? c) (← longBasicString? false rest)
  | '\r' :: '\n' :: rest =>
    if joining then longBasicString? true rest
    else (longBasicString? false rest).map (contentCons '\n')
  | c :: rest =>
    if joining && (isBlank c || c == '\n') then longBasicString? true rest
    else if isTextChar c || c == '\n' then (longBasicString? false rest).map (contentCons c)
    else none

def longLiteralString? : List Char → Option (List Char × List Char)
  | [] => none
  | '\r' :: '\n' :: rest => (longLiteralString? rest).map (contentCons '\n')
  | c :: rest =>
    if c == singleQuote then
      let quotes := (c :: rest).takeWhile (· == singleQuote)
      if quotes.length < 3 then (longLiteralString? rest).map (contentCons c)
      else if quotes.length ≤ 5 then
        some (quotes.drop 3, (c :: rest).drop quotes.length)
      else none
    else if isTextChar c || c == '\n' then (longLiteralString? rest).map (contentCons c)
    else none

def dropLineBreak (cs : List Char) : List Char :=
  match cs with
  | '\n' :: rest => rest
  | '\r' :: '\n' :: rest => rest
  | _ => cs

def string? (cs : List Char) : Option (List Char × List Char) :=
  match cs with
  | '"' :: '"' :: '"' :: rest => longBasicString? false (dropLineBreak rest)
  | '"' :: rest => basicString? rest
  | a :: b :: c :: rest =>
    if a == singleQuote && b == singleQuote && c == singleQuote then
      longLiteralString? (dropLineBreak rest)
    else if a == singleQuote then literalString? (b :: c :: rest)
    else none
  | a :: rest => if a == singleQuote then literalString? rest else none
  | [] => none

end LinkClosure.Toml
