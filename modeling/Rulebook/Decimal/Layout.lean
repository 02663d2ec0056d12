/-
  Rulebook.Decimal.Layout — the three ways a float is written.

  All three write the shortest digits that read back. They differ in when an exponent is
  used, in its sign, and in whether a whole number keeps a fraction:
  - `plain`: never an exponent, no fraction on whole numbers (`100`, `0.0000001`);
  - `json`: an exponent from 1e16 on and below 1e-5, with a `+` (`1.0`, `1e+16`, `1e-7`);
  - `diagnostic`: an exponent from 1e16 on and below 1e-4, without a `+` (`1.0`, `1e16`, `1e-5`).
-/

import Rulebook.Decimal.Shortest

namespace Rulebook.Decimal

structure Layout where
  /-- The exponents of the first digit that are written without an exponent, from and below; all
      if there is none. -/
  positional : Option (Int × Int)
  /-- Whether a whole number is written with `.0`. -/
  fraction : Bool
  /-- Whether an exponent above zero has a `+`. -/
  plus : Bool
  tie : Tie
  deriving DecidableEq, Repr

def Layout.plain : Layout := ⟨none, false, false, .up⟩

def Layout.json : Layout := ⟨some (-5, 16), true, true, .toEven⟩

def Layout.diagnostic : Layout := ⟨some (-4, 16), true, false, .up⟩

/-- The digits of `n`, a point after the first `whole` of them; zeros fill up on either side. -/
def withPoint (fraction : Bool) (n : List Char) (whole : Int) : List Char :=
  if whole ≤ 0 then '0' :: '.' :: (List.replicate (-whole).toNat '0' ++ n)
  else
    let k := whole.toNat
    let front := n.take k ++ List.replicate (k - n.length) '0'
    match n.drop k with
    | [] => if fraction then front ++ ['.', '0'] else front
    | rest => front ++ '.' :: rest

/-- The digits of `n` with a point after the first, and the exponent of that digit. -/
def withExponent (plus : Bool) (n : List Char) (exponent : Int) : List Char :=
  let front := match n with
    | [] => []
    | [d] => [d]
    | d :: rest => d :: '.' :: rest
  let sign := if exponent < 0 then ['-'] else if plus then ['+'] else []
  front ++ 'e' :: (sign ++ Nat.toDigits 10 exponent.natAbs)

def Layout.write (layout : Layout) (d : Decimal) : List Char :=
  let n := Nat.toDigits 10 d.digits
  let whole := d.exponent + n.length
  let isPositional := match layout.positional with
    | none => true
    | some (low, high) => d.digits = 0 || (decide (low ≤ whole - 1) && decide (whole - 1 < high))
  if isPositional then withPoint layout.fraction n whole else withExponent layout.plus n (whole - 1)

def isNegative (x : Float) : Bool := x.toBits >>> 63 == 1

def Layout.text (layout : Layout) (x : Float) : List Char :=
  if x.isNaN then "NaN".toList
  else
    let magnitude := if x.isInf then "inf".toList
      else layout.write ((Dyadic.ofBits x.toBits).shortest layout.tie)
    if isNegative x then '-' :: magnitude else magnitude

end Rulebook.Decimal
