/-
  Rulebook.Decimal.Shortest — the shortest decimal that reads back as a float.

  A finite float is a dyadic number, a mantissa times a power of two. The reals that
  round to it are those between the midpoints to its two neighbours, the midpoints
  themselves included when the mantissa is even. On the grid of decimals with one, two,
  three ... digits its only candidates are the two grid points around it; the first
  grid with a candidate inside that interval gives the digits, the nearer candidate
  first, and a tie is settled by the writer. All comparisons are exact.
-/

namespace Rulebook

/-- The number `digits * 10 ^ exponent`. -/
structure Decimal where
  digits : Nat
  exponent : Int
  deriving DecidableEq, Repr

namespace Decimal

/-- The number `mantissa * 2 ^ exponent`; below a power of two the next smaller float is only half as far away. -/
structure Dyadic where
  mantissa : Nat
  exponent : Int
  narrowBelow : Bool
  deriving DecidableEq, Repr

/-- Which of two equally near decimals a writer takes. -/
inductive Tie where
  | up
  | toEven
  deriving DecidableEq, Repr

def Dyadic.ofBits (bits : UInt64) : Dyadic :=
  let e := ((bits >>> 52) &&& 0x7FF).toNat
  let f := (bits &&& 0xFFFFFFFFFFFFF).toNat
  if e = 0 then ⟨f, -1074, false⟩ else ⟨0x10000000000000 + f, (e : Int) - 1075, f == 0 && decide (1 < e)⟩

/-- The power of two with an exponent, and 1 below zero. -/
def twos (i : Int) : Nat := Nat.pow 2 i.toNat

def tens (i : Int) : Nat := Nat.pow 10 i.toNat

/-- Compares `a * 10 ^ i` with `b * 2 ^ j`. -/
def compareScaled (a : Nat) (i : Int) (b : Nat) (j : Int) : Ordering :=
  compare (a * tens i * twos (-j)) (b * twos j * tens (-i))

/-- Whether a decimal rounds to a float: it lies between the midpoints around it. -/
def Dyadic.rounds (x : Dyadic) (d : Decimal) : Bool :=
  let low := if x.narrowBelow then 4 * x.mantissa - 1 else 4 * x.mantissa - 2
  let fromLow := compareScaled d.digits d.exponent low (x.exponent - 2)
  let fromHigh := compareScaled d.digits d.exponent (4 * x.mantissa + 2) (x.exponent - 2)
  if x.mantissa % 2 = 0 then fromLow != .lt && fromHigh != .gt else fromLow == .gt && fromHigh == .lt

/-- The greatest whole number of `10 ^ i` in a float. -/
def Dyadic.floor (x : Dyadic) (i : Int) : Nat :=
  x.mantissa * twos x.exponent * tens (-i) / (tens i * twos (-x.exponent))

/-- The least `k` with the float below `10 ^ k`, for a float that is not zero. -/
def Dyadic.scale (x : Dyadic) : Int :=
  let whole := (Nat.toDigits 10 (x.mantissa * twos x.exponent)).length
  let part := (Nat.toDigits 10 (twos (-x.exponent))).length
  let k : Int := whole - part
  if compareScaled 1 k x.mantissa x.exponent == .gt then k else k + 1

/-- Of the two neighbours of a float on the grid of `10 ^ i`, the one to write, if any reads back. -/
def Dyadic.onGrid (tie : Tie) (x : Dyadic) (i : Int) : Option Decimal :=
  let below := x.floor i
  match x.rounds ⟨below, i⟩, x.rounds ⟨below + 1, i⟩ with
  | false, false => none
  | true, false => some ⟨below, i⟩
  | false, true => some ⟨below + 1, i⟩
  | true, true =>
    match compareScaled (2 * below + 1) i x.mantissa (x.exponent + 1) with
    | .gt => some ⟨below, i⟩
    | .lt => some ⟨below + 1, i⟩
    | .eq =>
      match tie with
      | .up => some ⟨below + 1, i⟩
      | .toEven => some ⟨if below % 2 = 0 then below else below + 1, i⟩

/-- Drops trailing zeros, at most `fuel` of them. -/
def strip : Nat → Decimal → Decimal
  | 0, d => d
  | fuel + 1, d =>
    if d.digits ≠ 0 ∧ d.digits % 10 = 0 then strip fuel ⟨d.digits / 10, d.exponent + 1⟩ else d

def Dyadic.search (tie : Tie) (x : Dyadic) (scale : Int) : Nat → Nat → Option Decimal
  | 0, _ => none
  | tries + 1, count => (x.onGrid tie (scale - count)).orElse fun _ => x.search tie scale tries (count + 1)

def Dyadic.exact (x : Dyadic) : Decimal :=
  ⟨x.mantissa * twos x.exponent * Nat.pow 5 (-x.exponent).toNat, min x.exponent 0⟩

/-- The fewest digits that read back as the float; its exact value should seventeen not do. -/
def Dyadic.shortest (tie : Tie) (x : Dyadic) : Decimal :=
  if x.mantissa = 0 then ⟨0, 0⟩
  else strip 400 ((x.search tie x.scale 17 1).getD x.exact)

end Decimal

end Rulebook
