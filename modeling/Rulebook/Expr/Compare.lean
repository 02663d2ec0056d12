/-
  Rulebook.Expr.Compare — truth, equality and order of data.

  Numbers of different kinds are compared by value, an integer with a float after it has
  become a float. Lists are equal item by item, maps if they have the same keys with
  equal data; other data of different kinds differ. Only numbers, strings, booleans,
  nulls, durations and timestamps have an order, each with its own kind.
-/

import Rulebook.Expr.Datum

namespace Rulebook.Datum

open Rulebook.Time (Timestamp)

def fitsInt64 (n : Int) : Bool := decide (-9223372036854775808 ≤ n) && decide (n ≤ 9223372036854775807)

def truth : Datum → Bool
  | .null => false
  | .boolean b => b
  | .int n => n != 0
  | .uint n => n != 0
  | .float x => x != 0.0
  | .string text => !text.isEmpty
  | .bytes content => !content.isEmpty
  | .list items => !items.isEmpty
  | .map entries => !entries.isEmpty
  | .duration d => fitsInt64 d.nanos && d.nanos != 0
  | .timestamp t => fitsInt64 t.sinceEpoch && decide (0 < t.sinceEpoch)
  | .function _ _ => false

/-- Whether two numbers, or data without parts, are equal. -/
def samePlain : Datum → Datum → Bool
  | .null, .null => true
  | .boolean a, .boolean b => a == b
  | .int a, .int b => a == b
  | .int a, .uint b => a.toInt == (b.toNat : Int)
  | .int a, .float b => a.toFloat == b
  | .uint a, .int b => (a.toNat : Int) == b.toInt
  | .uint a, .uint b => a == b
  | .uint a, .float b => a.toFloat == b
  | .float a, .int b => a == b.toFloat
  | .float a, .uint b => a == b.toFloat
  | .float a, .float b => a == b
  | .string a, .string b => a == b
  | .bytes a, .bytes b => a == b
  | .duration a, .duration b => decide (a = b)
  | .timestamp a, .timestamp b => a.order b == .eq
  | _, _ => false

mutual
def same : Datum → Datum → Bool
  | .list as, b =>
    match b with
    | .list bs => sameItems as bs
    | _ => false
  | .map as, b =>
    match b with
    | .map bs => as.length == bs.length && sameEntries as bs
    | _ => false
  | .function f a, b =>
    match b with
    | .function g c => f == g && same a c
    | _ => false
  | a, b => samePlain a b
def sameItems : List Datum → List Datum → Bool
  | [], [] => true
  | a :: as, bs =>
    match bs with
    | b :: bs => same a b && sameItems as bs
    | [] => false
  | [], _ :: _ => false
def sameEntries : List (Key × Datum) → List (Key × Datum) → Bool
  | [], _ => true
  | a :: as, bs =>
    (match get? bs a.1 with
      | some b => same a.2 b
      | none => false) && sameEntries as bs
end

/-- The order of two floats, unless one is no number. -/
def orderFloats (a b : Float) : Option Ordering :=
  if a < b then some .lt else if b < a then some .gt else if a == b then some .eq else none

def order? : Datum → Datum → Option Ordering
  | .null, .null => some .eq
  | .boolean a, .boolean b => some (compare a.toNat b.toNat)
  | .int a, .int b => some (compare a.toInt b.toInt)
  | .int a, .uint b => some (compare a.toInt (b.toNat : Int))
  | .int a, .float b => orderFloats a.toFloat b
  | .uint a, .int b => some (compare (a.toNat : Int) b.toInt)
  | .uint a, .uint b => some (compare a.toNat b.toNat)
  | .uint a, .float b => orderFloats a.toFloat b
  | .float a, .int b => orderFloats a b.toFloat
  | .float a, .uint b => orderFloats a b.toFloat
  | .float a, .float b => orderFloats a b
  | .string a, .string b => some (if a < b then .lt else if a = b then .eq else .gt)
  | .duration a, .duration b => some (compare a.nanos b.nanos)
  | .timestamp a, .timestamp b => some (a.order b)
  | _, _ => none

end Rulebook.Datum
