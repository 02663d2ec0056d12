/-
  Rulebook.Text.Quoted — text inside a diagnostic.

  The text stands between double quotes. A quote and a backslash have a backslash in
  front, the tab, the line feed, the carriage return and NUL have letters of their own,
  and every other unprinted character is written by its number, as `\u` and the number
  in hexadecimal between braces.
-/

import Rulebook.Text.Unprinted

namespace Rulebook.Text

def quotedChar (c : Char) : List Char :=
  if c = '"' then ['\\', '"']
  else if c = '\\' then ['\\', '\\']
  else if c = '\t' then ['\\', 't']
  else if c = '\n' then ['\\', 'n']
  else if c = '\r' then ['\\', 'r']
  else if c.toNat = 0 then ['\\', '0']
  else if isUnprinted c then "\\u\x7b".toList ++ Nat.toDigits 16 c.toNat ++ ['\x7d']
  else [c]

def quoted (text : List Char) : List Char := '"' :: (text.flatMap quotedChar ++ ['"'])

end Rulebook.Text
