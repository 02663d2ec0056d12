/-
  Rulebook.Text.Escape — characters that are written by their number.

  A numbered escape has two, four or eight hexadecimal digits, as its letter says. It is
  a character unless its number is beyond the last one or half of a pair.
-/

namespace Rulebook.Text

def codeLength? (c : Char) : Option Nat :=
  match c with
  | 'x' => some 2
  | 'u' => some 4
  | 'U' => some 8
  | _ => none

def charOf? (n : Nat) : Option Char := if h : n.isValidChar then some (Char.ofNatAux n h) else none

end Rulebook.Text
