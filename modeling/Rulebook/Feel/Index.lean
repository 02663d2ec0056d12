/-
  Rulebook.Feel.Index — positions in lists.

  Rules count the items of a list from 1, the engine from 0. An index that is a number
  is lowered by one as it is written, and refused below 1; an index that starts with a
  string is a key and stays; any other index is lowered where it is evaluated.

  Whether a bracket is an index depends on what is written before it: it is one after a
  closing bracket and after a word, but not after the words that a list may follow.
-/

import Rulebook.Text.Blank
import Rulebook.Text.Digits
import Rulebook.Text.Word

namespace Rulebook.Feel

open Rulebook.Text (isBlank isWordChar skipBlank trim decimal readInt64)

/-- Why a rule is not rewritten; a position counts the characters before it. -/
inductive Fault where
  | unclosedLiteral (position : Nat)
  | indexBelowOne (index : Int) (position : Nat)
  deriving DecidableEq, Repr

def Fault.message : Fault → String
  | .unclosedLiteral position => s!"unterminated string literal starting at position {position}"
  | .indexBelowOne index position =>
    s!"list index {index} at position {position} is not supported, indices start at 1"

/-- The words that a list may follow. -/
def listWords : List (List Char) := ["in".toList, "then".toList, "else".toList, "return".toList]

/-- Whether a bracket after the text `before`, which is given in reverse, is an index. -/
def opensIndex (before : List Char) : Bool :=
  match skipBlank before with
  | [] => false
  | c :: rest =>
    if c = ')' ∨ c = ']' then true
    else if isWordChar c then !listWords.contains ((c :: rest).takeWhile isWordChar).reverse
    else false

/-- The text of an index, lowered by one; `position` is where its bracket stands. -/
def lowered (index : List Char) (position : Nat) : Except Fault (List Char) :=
  let index := trim index
  if index.head? = some '"' then .ok index
  else
    match readInt64 index with
    | .ok n => if 1 ≤ n then .ok (decimal (n - 1)) else .error (.indexBelowOne n position)
    | .error _ => .ok ('(' :: (index ++ ") - 1".toList))

end Rulebook.Feel
