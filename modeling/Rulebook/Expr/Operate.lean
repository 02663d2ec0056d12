/-
  Rulebook.Expr.Operate — operators on data.

  Arithmetic wants two numbers of one kind, and integers must stay within 64 bits;
  division and remainder cut towards zero. `+` also joins strings and lists, and moves
  timestamps by durations; `-` also gives the time between two timestamps. A timestamp
  that is moved must stay within the years 1 to 9999.
-/

import Rulebook.Expr.Compare
import Rulebook.Expr.Fault

namespace Rulebook.Datum

open Rulebook.Expr (Fault)
open Rulebook.Time (Timestamp Duration)

def checkedInt (op : Operator) (a b : Int64) (result : Int) : Except Fault Datum :=
  if fitsInt64 result then .ok (.int (Int64.ofInt result)) else .error (.overflow op (.int a) (.int b))

def checkedUint (op : Operator) (a b : UInt64) (result : Int) : Except Fault Datum :=
  if 0 ≤ result ∧ result ≤ Text.wordMax then .ok (.uint (UInt64.ofNat result.toNat))
  else .error (.overflow op (.uint a) (.uint b))

/-- The first moment of the year 1. -/
def earliest : Timestamp := ⟨-62135596800, 0, 0⟩

/-- The last moment of the year 9999. -/
def latest : Timestamp := ⟨253402300799, 999999999, 0⟩

def movedWithin (op : Operator) (t : Timestamp) (d : Duration) (distance : Duration) : Except Fault Datum :=
  let result := t.moved distance
  if result.order latest == .gt || result.order earliest == .lt then
    .error (.overflow op (.timestamp t) (.duration d))
  else .ok (.timestamp result)

def add : Datum → Datum → Except Fault Datum
  | .int a, .int b => checkedInt .add a b (a.toInt + b.toInt)
  | .uint a, .uint b => checkedUint .add a b (a.toNat + b.toNat : Nat)
  | .float a, .float b => .ok (.float (a + b))
  | .string a, .string b => .ok (.string (a ++ b))
  | .list a, .list b => .ok (.list (a ++ b))
  | .duration a, .duration b => .ok (.duration ⟨a.nanos + b.nanos⟩)
  | .timestamp t, .duration d => movedWithin .add t d d
  | .duration d, .timestamp t => .ok (.timestamp (t.moved d))
  | a, b => .error (.unsupported .add a b)

def sub : Datum → Datum → Except Fault Datum
  | .int a, .int b => checkedInt .sub a b (a.toInt - b.toInt)
  | .uint a, .uint b => checkedUint .sub a b ((a.toNat : Int) - b.toNat)
  | .float a, .float b => .ok (.float (a - b))
  | .duration a, .duration b => .ok (.duration ⟨a.nanos - b.nanos⟩)
  | .timestamp t, .duration d => movedWithin .sub t d ⟨-d.nanos⟩
  | .timestamp a, .timestamp b => .ok (.duration (a.since b))
  | a, b => .error (.unsupported .sub a b)

def mul : Datum → Datum → Except Fault Datum
  | .int a, .int b => checkedInt .mul a b (a.toInt * b.toInt)
  | .uint a, .uint b => checkedUint .mul a b (a.toNat * b.toNat : Nat)
  | .float a, .float b => .ok (.float (a * b))
  | a, b => .error (.unsupported .mul a b)

def div : Datum → Datum → Except Fault Datum
  | .int a, .int b =>
    if b = 0 then .error (.divisionByZero (.int a)) else checkedInt .div a b (a.toInt.tdiv b.toInt)
  | .uint a, .uint b =>
    if b = 0 then .error (.divisionByZero (.uint a)) else .ok (.uint (a / b))
  | .float a, .float b => .ok (.float (a / b))
  | a, b => .error (.unsupported .div a b)

/-- The remainder of two data; that of the least integer by -1 counts as an overflow. -/
def rem : Datum → Datum → Except Fault Datum
  | .int a, .int b =>
    if b = 0 then .error (.remainderByZero (.int a))
    else if fitsInt64 (a.toInt.tdiv b.toInt) then .ok (.int (Int64.ofInt (a.toInt.tmod b.toInt)))
    else .error (.overflow .rem (.int a) (.int b))
  | .uint a, .uint b =>
    if b = 0 then .error (.remainderByZero (.uint a)) else .ok (.uint (a % b))
  | a, b => .error (.unsupported .rem a b)

def compared (a b : Datum) (test : Ordering → Bool) : Except Fault Datum :=
  match order? a b with
  | some order => .ok (.boolean (test order))
  | none => .error (.incomparable a b)

def isInfix {α : Type} [BEq α] (part : List α) : List α → Bool
  | [] => part.isEmpty
  | c :: rest => part.isPrefixOf (c :: rest) || isInfix part rest

/-- Whether a datum is in another: text in text, an item in a list, a key in a map. -/
def isIn : Datum → Datum → Except Fault Datum
  | .string a, .string b => .ok (.boolean (isInfix a.toList b.toList))
  | a, .list items => .ok (.boolean (items.any fun item => same item a))
  | a, .map entries => .ok (.boolean (a.key?.any fun key => (get? entries key).isSome))
  | a, b => .error (.incomparable a b)

def operate : Operator → Datum → Datum → Except Fault Datum
  | .add, a, b => add a b
  | .sub, a, b => sub a b
  | .mul, a, b => mul a b
  | .div, a, b => div a b
  | .rem, a, b => rem a b
  | .equal, a, b => .ok (.boolean (same a b))
  | .notEqual, a, b => .ok (.boolean !(same a b))
  | .less, a, b => compared a b (· == .lt)
  | .lessEqual, a, b => compared a b (· != .gt)
  | .greater, a, b => compared a b (· == .gt)
  | .greaterEqual, a, b => compared a b (· != .lt)
  | .isIn, a, b => isIn a b

def negate : Datum → Except Fault Datum
  | .int n => if n = Int64.minValue then .error .crash else .ok (.int (-n))
  | .float x => .ok (.float (-x))
  | datum => .error (.cannotNegate datum)

/-! ## Items and members -/

/-- The entry of a map under a key, where signed and unsigned keys of one value match. -/
def lookup (entries : List (Key × Datum)) (key : Key) : Option Datum :=
  (get? entries key).or <|
    match key with
    | .int n => if 0 ≤ n.toInt then get? entries (.uint (UInt64.ofNat n.toInt.toNat)) else none
    | .uint n => if n.toNat ≤ 9223372036854775807 then get? entries (.int (Int64.ofNat n.toNat)) else none
    | _ => none

/-- The text of the one byte at a place, if that byte is a character. -/
def byteAt (n : Nat) : List Char → Datum
  | [] => .null
  | c :: rest =>
    if n = 0 then (if c.utf8Size = 1 then .string (String.singleton c) else .null)
    else if n < c.utf8Size then .null
    else byteAt (n - c.utf8Size) rest

/-- An item of a datum: of a list or a string by its place from 0, of a map by its key. What is
    not there is null. -/
def item (base index : Datum) : Except Fault Datum :=
  match base, index with
  | .list items, .int n => .ok (if n.toInt < 0 then .null else (items[n.toInt.toNat]?).getD .null)
  | .list _, index => .error (.badListIndex index)
  | .string text, .int n =>
    if n = Int64.maxValue then .error .crash
    else .ok (if n.toInt < 0 then .null else byteAt n.toInt.toNat text.toList)
  | .map entries, index =>
    match index.key? with
    | some key => .ok ((lookup entries key).getD .null)
    | none => .error (.badMapIndex index)
  | base, index => .error (.badIndex base index)

def hasMember (base : Datum) (field : String) : Bool :=
  match base with
  | .map entries => entries.any fun entry => entry.1.text == field
  | _ => false

end Rulebook.Datum
