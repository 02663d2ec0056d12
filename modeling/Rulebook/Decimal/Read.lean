/-
  Rulebook.Decimal.Read — floats written in decimal.

  `nearest` is the float nearest to a decimal number. `readFloat` reads the text of one:
  an optional sign, then `inf`, `infinity` or `nan` in any case, or digits with an
  optional point, at least one digit on either side of it, and an optional exponent.
-/

import Rulebook.Text.Digits

namespace Rulebook.Decimal

open Rulebook.Text

/-- The float nearest to `n * 10 ^ exponent`. Far outside the range of floats it is zero or infinite. -/
def nearest (n : Nat) (exponent : Int) : Float :=
  let size := (numeral n).length
  if n = 0 then 0.0
  else if exponent + size < -400 then 0.0
  else if 400 < exponent + size then 1.0 / 0.0
  else Float.ofScientific n (decide (exponent < 0)) exponent.natAbs

/-- Digits at the front of a text, the number they write read on from `n`, and their count. -/
def spanDigits (n count : Nat) : List Char → Nat × Nat × List Char
  | [] => (n, count, [])
  | c :: rest =>
    if c.isDigit then spanDigits (10 * n + (c.toNat - '0'.toNat)) (count + 1) rest else (n, count, c :: rest)

/-- A sign at the front of a text, `true` for minus. -/
def spanSign : List Char → Bool × List Char
  | '-' :: rest => (true, rest)
  | '+' :: rest => (false, rest)
  | text => (false, text)

def spanExponent? : List Char → Option (Int × List Char)
  | e :: rest =>
    if e = 'e' ∨ e = 'E' then
      let (negative, rest) := spanSign rest
      match spanDigits 0 0 rest with
      | (_, 0, _) => none
      | (n, _, rest) => some (if negative then -(n : Int) else n, rest)
    else none
  | [] => none

/-- Digits with an optional point at the front of a text: the number without its point, the
    places after the point. -/
def spanPoint? (text : List Char) : Option (Nat × Nat × List Char) :=
  let (whole, count, rest) := spanDigits 0 0 text
  match rest with
  | '.' :: after =>
    match spanDigits whole 0 after with
    | (n, places, rest) => if count + places = 0 then none else some (n, places, rest)
  | _ => if count = 0 then none else some (whole, 0, rest)

inductive FloatFault where
  | empty
  | invalid
  deriving DecidableEq, Repr

def FloatFault.message : FloatFault → String
  | .empty => "cannot parse float from empty string"
  | .invalid => "invalid float literal"

def readMagnitude? (text : List Char) : Option Float :=
  let lower := text.map Char.toLower
  if lower = "inf".toList ∨ lower = "infinity".toList then some (1.0 / 0.0)
  else if lower = "nan".toList then some (0.0 / 0.0)
  else do
    let (n, places, rest) ← spanPoint? text
    match rest with
    | [] => some (nearest n (-(places : Int)))
    | rest =>
      match spanExponent? rest with
      | some (exponent, []) => some (nearest n (exponent - places))
      | _ => none

def readFloat (text : List Char) : Except FloatFault Float :=
  match text with
  | [] => .error .empty
  | _ =>
    let (negative, rest) := spanSign text
    match readMagnitude? rest with
    | none => .error .invalid
    | some x => .ok (if negative then -x else x)

end Rulebook.Decimal
