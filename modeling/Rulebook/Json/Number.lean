/-
  Rulebook.Json.Number — number literals and the numbers they stand for.

  A literal without fraction and exponent is an integer: signed if it fits 64 bits so,
  else unsigned if it fits those, else a float; `-0` is a float too. Every other literal
  is a float: its digits are gathered into an integer of 64 bits until the next one
  would overflow it, the rest of them only counts as a power of ten before the point and
  not at all behind it, and the integer is multiplied or divided by the power of ten
  that is left. A result beyond the floats is a fault, one below them is zero.
-/

import Rulebook.Text.Digits
import Rulebook.Value
import Rulebook.Json.Fault

namespace Rulebook.Json

open Rulebook.Text (wordMax)

/-- The parts of a number literal; the sign of an exponent is true for minus. -/
structure Literal where
  negative : Bool
  whole : List Nat
  fraction : List Nat
  exponent : Option (Bool × List Nat)
  deriving DecidableEq, Repr

/-- Gathers digits into `n` up to the first that would overflow 64 bits: the result, and the
    digits that are left. -/
def gather (n : Nat) : List Nat → Nat × List Nat
  | [] => (n, [])
  | d :: rest => if wordMax < 10 * n + d then (n, d :: rest) else gather (10 * n + d) rest

def ofDigits (ds : List Nat) : Nat := ds.foldl (fun n d => 10 * n + d) 0

/-- A power of ten up to 308, as a float. -/
def tenTo (e : Nat) : Float := Float.ofScientific 1 false e

/-- Divides by a power of ten, by at most 308 places at a time, until nothing is left. -/
def divideByTens (x : Float) (e : Nat) : Float :=
  if e ≤ 308 then x / tenTo e
  else if x == 0.0 then x
  else divideByTens (x / tenTo 308) (e - 308)
termination_by e

def scaled (n : Nat) (e : Int) : Except Fault Float :=
  let x := (UInt64.ofNat n).toFloat
  if e < 0 then .ok (divideByTens x e.natAbs)
  else if e ≤ 308 then
    let y := x * tenTo e.natAbs
    if y.isInf then .error .numberOutOfRange else .ok y
  else if n = 0 then .ok x
  else .error .numberOutOfRange

/-- The magnitude of a literal with a fraction or an exponent, or too great for 64 bits. -/
def Literal.magnitude (l : Literal) : Except Fault Float :=
  let (whole, dropped) := gather 0 l.whole
  let (n, ignored) := gather whole l.fraction
  let e : Int := dropped.length - (l.fraction.length - ignored.length : Nat)
  match l.exponent with
  | none => scaled n e
  | some (negative, ds) =>
    let k := ofDigits ds
    if k ≤ 2147483647 then scaled n (if negative then e - k else e + k)
    else if n ≠ 0 ∧ !negative then .error .numberOutOfRange
    else .ok 0.0

def Literal.number (l : Literal) : Except Fault Number :=
  let float := l.magnitude.map fun x => Number.float (if l.negative then -x else x)
  match l.fraction, l.exponent, gather 0 l.whole with
  | [], none, (n, []) =>
    if l.negative then
      if 0 < n ∧ n ≤ 9223372036854775808 then .ok (.int (Int64.ofInt (-(n : Int)))) else float
    else if n ≤ 9223372036854775807 then .ok (.int (Int64.ofNat n))
    else .ok (.uint (UInt64.ofNat n))
  | _, _, _ => float

end Rulebook.Json
