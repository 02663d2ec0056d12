/-
  Rulebook.Expr.Token — rule text cut into tokens.

  At each place the longest token is taken. Blanks and comments, which run from `//` to
  the end of the line, only separate tokens. A number is an integer in decimal or
  hexadecimal, with a `u` behind it if it has no sign, or a float, which needs digits
  behind its point. Text stands between single or double quotes, on one line, or between
  three of them, over several; an `r` in front takes backslashes as they are, a `b`
  makes bytes of it. A name between back quotes may hold blanks and a few marks.

  Where no token starts, the text is no rule.
-/

import Rulebook.Text.Digits

namespace Rulebook.Expr

/-- A token of rule text; literals keep their text. -/
inductive Token where
  | mark (text : String)
  | name (text : String)
  | quotedName (text : String)
  | int (text : List Char)
  | uint (text : List Char)
  | float (text : List Char)
  | string (text : List Char)
  | bytes (text : List Char)
  deriving DecidableEq, Repr

def isSpace (c : Char) : Bool := c == ' ' || c == '\t' || c == '\n' || c == '\r' || c == '\x0c'

def isHexDigit (c : Char) : Bool := (Text.hexValue? c).isSome

/-! ## Text literals -/

/-- The length of the escape that a backslash starts, without the backslash, if there is one. -/
def escapeLength? : List Char → Option Nat
  | [] => none
  | c :: rest =>
    let hexDigits (n : Nat) := if (rest.take n).length = n ∧ (rest.take n).all isHexDigit then some (n + 1) else none
    let isOctal (c : Char) := decide ('0' ≤ c) && decide (c ≤ '7')
    if "abfnrtv\\?\"'`".toList.contains c then some 1
    else if c = 'x' ∨ c = 'X' then hexDigits 2
    else if c = 'u' then hexDigits 4
    else if c = 'U' then hexDigits 8
    else if '0' ≤ c ∧ c ≤ '3' then
      if (rest.take 2).length = 2 ∧ (rest.take 2).all isOctal then some 3 else none
    else none

/-- The length of the body of a literal up to and with its closing quotes, of which `done`
    characters are read; `skip` of the next belong to an escape. -/
def bodyLength? (quotes : List Char) (raw : Bool) (done skip : Nat) : List Char → Option Nat
  | [] => none
  | c :: rest =>
    match skip with
    | skip + 1 => bodyLength? quotes raw (done + 1) skip rest
    | 0 =>
      if quotes.isPrefixOf (c :: rest) then some (done + quotes.length)
      else if quotes.length = 1 ∧ (c = '\n' ∨ c = '\r') then none
      else if c = '\\' ∧ !raw then
        match escapeLength? rest with
        | none => none
        | some n => bodyLength? quotes raw (done + 1) n rest
      else bodyLength? quotes raw (done + 1) 0 rest

/-- The length of a literal without prefix: between three quotes if it can be, else between single ones. -/
def quotedLength? (raw : Bool) : List Char → Option Nat
  | [] => none
  | q :: rest =>
    if q = '"' ∨ q = '\'' then
      let triple := if [q, q].isPrefixOf rest then
          (bodyLength? [q, q, q] raw 0 0 (rest.drop 2)).map (· + 3)
        else none
      triple.or ((bodyLength? [q] raw 0 0 rest).map (· + 1))
    else none

def textLength? : List Char → Option Nat
  | [] => none
  | c :: rest => if c = 'r' ∨ c = 'R' then (quotedLength? true rest).map (· + 1) else quotedLength? false (c :: rest)

def bytesLength? : List Char → Option Nat
  | [] => none
  | c :: rest => if c = 'b' ∨ c = 'B' then (textLength? rest).map (· + 1) else none

/-! ## Numbers -/

def spanLength (test : Char → Bool) (text : List Char) : Nat := (text.takeWhile test).length

def exponentLength (text : List Char) : Nat :=
  match text with
  | [] => 0
  | e :: rest =>
    if e = 'e' ∨ e = 'E' then
      let sign := if rest.head? = some '+' ∨ rest.head? = some '-' then 1 else 0
      let n := spanLength Char.isDigit (rest.drop sign)
      if n = 0 then 0 else 1 + sign + n
    else 0

def fractionLength (text : List Char) : Nat :=
  match text with
  | '.' :: rest =>
    let n := spanLength Char.isDigit rest
    if n = 0 then 0 else n + 1
  | _ => 0

/-- The number token at the front of a text, and its length. -/
def number? (text : List Char) : Option (Token × Nat) :=
  let whole := spanLength Char.isDigit text
  let part := fractionLength (text.drop whole)
  let exponent := exponentLength (text.drop (whole + part))
  let hex := match text with
    | '0' :: 'x' :: rest => spanLength isHexDigit rest
    | _ => 0
  let isUnsigned (n : Nat) := (text.drop n).head? == some 'u' || (text.drop n).head? == some 'U'
  if 0 < hex then
    if isUnsigned (hex + 2) then some (.uint (text.take (hex + 2)), hex + 3)
    else some (.int (text.take (hex + 2)), hex + 2)
  else if 0 < part ∨ (0 < whole ∧ 0 < exponent) then
    some (.float (text.take (whole + part + exponent)), whole + part + exponent)
  else if 0 < whole then
    if isUnsigned whole then some (.uint (text.take whole), whole + 1) else some (.int (text.take whole), whole)
  else none

/-! ## Tokens -/

def startsName (c : Char) : Bool := c.isAlpha || c == '_'

def inName (c : Char) : Bool := c.isAlphanum || c == '_'

def quotedName? : List Char → Option (Token × Nat)
  | '`' :: rest =>
    let n := spanLength (fun c => inName c || c == '.' || c == '-' || c == '/' || c == ' ') rest
    if 0 < n ∧ (rest.drop n).head? = some '`' then
      some (.quotedName (String.ofList (('`' :: rest).take (n + 2))), n + 2)
    else none
  | _ => none

def longMarks : List String := ["==", "!=", "<=", ">=", "&&", "||"]

def shortMarks : List Char := "<>[]\x7b\x7d().,-!?:+*/%".toList

def mark? (text : List Char) : Option (Token × Nat) :=
  match longMarks.find? fun mark => mark.toList.isPrefixOf text with
  | some mark => some (.mark mark, 2)
  | none =>
    match text with
    | [] => none
    | c :: _ => if shortMarks.contains c then some (.mark (String.singleton c), 1) else none

def token? (text : List Char) : Option (Token × Nat) :=
  match bytesLength? text with
  | some n => some (.bytes (text.take n), n)
  | none =>
    match textLength? text with
    | some n => some (.string (text.take n), n)
    | none =>
      match number? text with
      | some found => some found
      | none =>
        if text.head?.any startsName then
          let n := spanLength inName text
          some (.name (String.ofList (text.take n)), n)
        else (quotedName? text).or (mark? text)

/-- The tokens of a text, of which the next `skip` characters belong to the token before, or to
    a comment if `comment`. -/
def lex (comment : Bool) (skip : Nat) : List Char → Option (List Token)
  | [] => some []
  | c :: rest =>
    if comment then lex (c != '\n') 0 rest
    else
      match skip with
      | skip + 1 => lex false skip rest
      | 0 =>
        if isSpace c then lex false 0 rest
        else if c = '/' ∧ rest.head? = some '/' then lex true 0 rest
        else
          match token? (c :: rest) with
          | none => none
          | some (token, length) => (lex false (length - 1) rest).map (token :: ·)

def tokens? (text : List Char) : Option (List Token) := lex false 0 text

end Rulebook.Expr
