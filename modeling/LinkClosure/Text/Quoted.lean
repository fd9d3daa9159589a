import LinkClosure.Text.Invisible

/-!
# Quoted texts

A quoted text stands between double quotes. A backslash introduces whatever
cannot stand for itself: the quote, the backslash, line ends, tabs, NUL, and by
its code point every other invisible character.
-/

set_option autoImplicit false

namespace LinkClosure.Text

def quotedChar (c : Char) : List Char :=
  if c = Char.ofNat 0 then ['\\', '0']
  else if c = '\t' then ['\\', 't']
  else if c = '\r' then ['\\', 'r']
  else if c = '\n' then ['\\', 'n']
  else if c = '"' then ['\\', '"']
  else if c = '\\' then ['\\', '\\']
  else if isInvisible c then ['\\', 'u', '\x7b'] ++ Nat.toDigits 16 c.toNat ++ ['\x7d']
  else [c]

def quoted (s : String) : String :=
  String.ofList ('"' :: s.toList.flatMap quotedChar ++ ['"'])

end LinkClosure.Text
