/-
  Rulebook.Time.Duration — lengths of time, and the three ways to write one.

  A duration is a number of nanoseconds. It is read as numbers with units (`1h30m`,
  `1.5s`), one after the other, after an optional minus; text after the last of them is
  left alone. Each number is multiplied by its unit as a float, cut off, and kept within
  64 bits.
  - `iso`: seconds with a fraction (`PT5400S`, `-PT0.5S`, `P0D` for none);
  - `clock`: hours, minutes and seconds (`1h30m0s`), or one smaller unit (`1.5ms`);
  - `diagnostic`: whole seconds below it, and the nanoseconds from there.
-/

import Rulebook.Decimal.Read
import Rulebook.Text.Quoted

namespace Rulebook.Time

open Rulebook.Text (numeral decimal digitsPadded)

structure Duration where
  nanos : Int
  deriving DecidableEq, Repr

def second : Nat := 1000000000

def withoutTrailingZeros (text : List Char) : List Char := (text.reverse.dropWhile (· == '0')).reverse

/-- The digits of a fraction on `places` places, after a point; nothing at all for zero. -/
def fraction (places n : Nat) : List Char :=
  if n = 0 then [] else '.' :: withoutTrailingZeros (digitsPadded 10 places n)

def Duration.iso (d : Duration) : List Char :=
  let n := d.nanos.natAbs
  let sign := if d.nanos < 0 then ['-'] else []
  if n = 0 then "P0D".toList
  else sign ++ "PT".toList ++ numeral (n / second) ++ fraction 9 (n % second) ++ ['S']

def Duration.clock (d : Duration) : List Char :=
  let n := d.nanos.natAbs
  let sign := if d.nanos < 0 then ['-'] else []
  if n = 0 then "0s".toList
  else if n < 1000 then sign ++ numeral n ++ "ns".toList
  else if n < 1000000 then sign ++ numeral (n / 1000) ++ fraction 3 (n % 1000) ++ "µs".toList
  else if n < second then sign ++ numeral (n / 1000000) ++ fraction 6 (n % 1000000) ++ "ms".toList
  else
    let seconds := n / second
    let minutes := seconds / 60
    let tail := numeral (seconds % 60) ++ fraction 9 (n % second) ++ ['s']
    if minutes = 0 then sign ++ tail
    else if minutes < 60 then sign ++ numeral minutes ++ 'm' :: tail
    else sign ++ numeral (minutes / 60) ++ 'h' :: (numeral (minutes % 60) ++ 'm' :: tail)

def Duration.diagnostic (d : Duration) : List Char :=
  "TimeDelta \x7b secs: ".toList ++ decimal (d.nanos / second) ++ ", nanos: ".toList ++
    decimal (d.nanos % second) ++ " \x7d".toList

/-! ## Reading -/

/-- Why a text is not a duration: what stands where a number or a unit should, or where a number breaks off. -/
inductive DurationFault where
  | noNumber (rest : List Char)
  | noUnit (rest : List Char)
  | brokenNumber (rest : List Char)
  deriving DecidableEq, Repr

def DurationFault.message : DurationFault → String
  | .noNumber rest => "Parsing Error: Error \x7b input: " ++ String.ofList (Text.quoted rest) ++ ", code: Float \x7d"
  | .noUnit rest => "Parsing Error: Error \x7b input: " ++ String.ofList (Text.quoted rest) ++ ", code: Char \x7d"
  | .brokenNumber rest =>
    "Parsing Failure: Error \x7b input: " ++ String.ofList (Text.quoted rest) ++ ", code: Float \x7d"

/-- A unit at the front of a text, in nanoseconds, and what follows it. -/
def unit? : List Char → Option (Nat × List Char)
  | 'm' :: 's' :: rest => some (1000000, rest)
  | 'u' :: 's' :: rest => some (1000, rest)
  | 'n' :: 's' :: rest => some (1, rest)
  | 'h' :: rest => some (3600 * second, rest)
  | 'm' :: rest => some (60 * second, rest)
  | 's' :: rest => some (second, rest)
  | _ => none

def numberWord? (text : List Char) : Option (Float × List Char) :=
  let front := (text.take 3).map Char.toLower
  if front = "nan".toList then some (0.0 / 0.0, text.drop 3)
  else if front = "inf".toList then some (1.0 / 0.0, text.drop 3)
  else none

def number (text : List Char) : Except DurationFault (Float × List Char) :=
  let (negative, rest) := Decimal.spanSign text
  match Decimal.spanPoint? rest with
  | none =>
    match numberWord? text with
    | some found => .ok found
    | none => .error (.noNumber text)
  | some (n, places, rest) =>
    let signed (x : Float) := if negative then -x else x
    match Decimal.spanExponent? rest with
    | some (e, after) => .ok (signed (Decimal.nearest n (e - places)), after)
    | none =>
      if rest.head?.any fun c => c == 'e' || c == 'E' then .error (.brokenNumber text)
      else .ok (signed (Decimal.nearest n (-(places : Int))), rest)

def numberUnit (text : List Char) : Except DurationFault (Int × List Char) := do
  let (x, rest) ← number text
  match unit? rest with
  | none => throw (.noUnit rest)
  | some (nanos, rest) => return ((x * nanos.toFloat).toInt64.toInt, rest)

/-- The sum `total` and the numbers with units that follow, at most `fuel` of them. -/
def sum (total : Int) : Nat → List Char → Except DurationFault Int
  | 0, _ => .ok total
  | fuel + 1, text =>
    match numberUnit text with
    | .ok (nanos, rest) => sum (total + nanos) fuel rest
    | .error (.brokenNumber rest) => .error (.brokenNumber rest)
    | .error _ => .ok total

def Duration.read (text : List Char) : Except DurationFault Duration := do
  let (negative, text) := match text with
    | '-' :: rest => (true, rest)
    | text => (false, text)
  if text = ['0'] then return ⟨0⟩
  let (first, rest) ← numberUnit text
  let total ← sum first rest.length rest
  return ⟨if negative then -total else total⟩

end Rulebook.Time
