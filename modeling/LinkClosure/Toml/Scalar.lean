import LinkClosure.Toml.Node

/-!
# TOML scalars that are not quoted

Numbers, truth values, dates and times are words without blanks, except that one
space may divide a date from a time. Underscores may stand between two digits.
Integers are 64-bit words. A float may not exceed the range of double precision
upwards; dates and times are checked against the calendar.
-/

set_option autoImplicit false

namespace LinkClosure.Toml

def isWordChar (c : Char) : Bool := c.isAlphanum || "_+-.:".toList.contains c

/-- Digits, with underscores between them taken out. -/
def digits? (isDigit : Char → Bool) : List Char → Option (List Char)
  | [] => none
  | [c] => if isDigit c then some [c] else none
  | c :: '_' :: rest => if isDigit c then (digits? isDigit rest).map (c :: ·) else none
  | c :: rest => if isDigit c then (digits? isDigit rest).map (c :: ·) else none

def digitValue (c : Char) : Nat :=
  if c.isDigit then c.toNat - '0'.toNat
  else if 'a' ≤ c && c ≤ 'f' then c.toNat - 'a'.toNat + 10
  else if 'A' ≤ c && c ≤ 'F' then c.toNat - 'A'.toNat + 10
  else 0

def isHexDigit (c : Char) : Bool :=
  c.isDigit || ('a' ≤ c && c ≤ 'f') || ('A' ≤ c && c ≤ 'F')

def natOfDigits (base : Nat) (ds : List Char) : Nat :=
  ds.foldl (fun n c => n * base + digitValue c) 0

def signed (cs : List Char) : Bool × List Char :=
  match cs with
  | '+' :: rest => (false, rest)
  | '-' :: rest => (true, rest)
  | _ => (false, cs)

def decimal? (cs : List Char) : Option (List Char) :=
  match cs with
  | '0' :: _ :: _ => none
  | _ => digits? Char.isDigit cs

def based? (base : Nat) (isDigit : Char → Bool) (cs : List Char) : Option Int :=
  (digits? isDigit cs).map fun ds => natOfDigits base ds

def integerValue? (cs : List Char) : Option Int :=
  match cs with
  | '0' :: 'x' :: rest => based? 16 isHexDigit rest
  | '0' :: 'o' :: rest => based? 8 (fun c => '0' ≤ c && c ≤ '7') rest
  | '0' :: 'b' :: rest => based? 2 (fun c => c == '0' || c == '1') rest
  | _ =>
    let (negative, ds) := signed cs
    (decimal? ds).map fun ds =>
      let n : Int := natOfDigits 10 ds
      if negative then -n else n

def integer? (cs : List Char) : Option Node :=
  (integerValue? cs).bind fun n =>
    if -9223372036854775808 ≤ n ∧ n ≤ 9223372036854775807 then some (.integer n) else none

/-- Whether `n` times the given power of ten rounds to no double. Far from the limit
the number of digits decides. -/
def exceedsDouble (n : Nat) (exponent : Int) : Bool :=
  let limit := Nat.pow 2 1024 - Nat.pow 2 970
  let magnitude : Int := (Nat.toDigits 10 n).length + exponent
  if n = 0 || magnitude < 300 then false
  else if 320 < magnitude then true
  else if 0 ≤ exponent then limit ≤ n * Nat.pow 10 exponent.toNat
  else limit * Nat.pow 10 (-exponent).toNat ≤ n

def isDecimalChar (c : Char) : Bool := c.isDigit || c == '_'

def exponent? (cs : List Char) : Option Int :=
  match cs with
  | [] => some 0
  | c :: rest =>
    if c == 'e' || c == 'E' then
      let (negative, ds) := signed rest
      (digits? Char.isDigit ds).map fun ds =>
        let n : Int := natOfDigits 10 ds
        if negative then -n else n
    else none

def fraction? (cs : List Char) : Option (List Char × List Char) :=
  match cs with
  | '.' :: rest =>
    (digits? Char.isDigit (rest.takeWhile isDecimalChar)).map fun ds =>
      (ds, rest.dropWhile isDecimalChar)
  | _ => some ([], cs)

def isFiniteFloat (cs : List Char) : Bool :=
  let (negative, body) := signed cs
  let rest := body.dropWhile isDecimalChar
  let parts := do
    let whole ← decimal? (body.takeWhile isDecimalChar)
    let (fraction, rest) ← fraction? rest
    let exponent ← exponent? rest
    return (natOfDigits 10 (whole ++ fraction), exponent - fraction.length)
  !rest.isEmpty && parts.any fun p => negative || !exceedsDouble p.1 p.2

def float? (cs : List Char) : Option Node :=
  let body := (signed cs).2
  if isFiniteFloat cs || body == "inf".toList || body == "nan".toList then
    some (.float (String.ofList cs))
  else none

def pairWithin (least greatest : Nat) (a b : Char) : Bool :=
  a.isDigit && b.isDigit &&
    least ≤ natOfDigits 10 [a, b] && natOfDigits 10 [a, b] ≤ greatest

def daysOfMonth (year month : Nat) : Nat :=
  if month = 2 then
    if year % 4 = 0 && (year % 100 ≠ 0 || year % 400 = 0) then 29 else 28
  else if month = 4 || month = 6 || month = 9 || month = 11 then 30
  else 31

def afterDate? (cs : List Char) : Option (List Char) :=
  match cs with
  | a :: b :: c :: d :: '-' :: e :: f :: '-' :: g :: h :: rest =>
    let year := natOfDigits 10 [a, b, c, d]
    let month := natOfDigits 10 [e, f]
    if [a, b, c, d].all Char.isDigit && pairWithin 1 12 e f &&
        pairWithin 1 (daysOfMonth year month) g h then some rest
    else none
  | _ => none

def afterTime? (cs : List Char) : Option (List Char) :=
  match cs with
  | a :: b :: ':' :: c :: d :: ':' :: e :: f :: rest =>
    if pairWithin 0 23 a b && pairWithin 0 59 c d && pairWithin 0 60 e f then
      match rest with
      | '.' :: rest =>
        if (rest.takeWhile Char.isDigit).isEmpty then none else some (rest.dropWhile Char.isDigit)
      | _ => some rest
    else none
  | _ => none

def isOffset (cs : List Char) : Bool :=
  match cs with
  | [] => true
  | [c] => c == 'Z' || c == 'z'
  | [s, a, b, ':', c, d] => (s == '+' || s == '-') && pairWithin 0 23 a b && pairWithin 0 59 c d
  | _ => false

def isTimeWithOffset (cs : List Char) : Bool := (afterTime? cs).any isOffset

def isDatetime (cs : List Char) : Bool :=
  match afterDate? cs with
  | some [] => true
  | some (c :: rest) => (c == 'T' || c == 't') && isTimeWithOffset rest
  | none => afterTime? cs == some []

def datetime? (cs : List Char) : Option Node :=
  if isDatetime cs then some (.datetime (String.ofList cs)) else none

def word? (cs : List Char) : Option Node :=
  if cs == "true".toList then some (.boolean true)
  else if cs == "false".toList then some (.boolean false)
  else (datetime? cs).or ((float? cs).or (integer? cs))

def scalar? (cs : List Char) : Option (Node × List Char) :=
  let word := cs.takeWhile isWordChar
  let rest := cs.dropWhile isWordChar
  let later := rest.tail.takeWhile isWordChar
  if afterDate? word == some [] && rest.head? == some ' ' && !later.isEmpty then
    if isTimeWithOffset later then
      some (.datetime (String.ofList (word ++ ' ' :: later)), rest.tail.dropWhile isWordChar)
    else none
  else (word? word).map fun n => (n, rest)

end LinkClosure.Toml
