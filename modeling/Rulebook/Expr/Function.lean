/-
  Rulebook.Expr.Function — the functions that every rule may call.

  A function is given its receiver, if it is called like a member, and its arguments,
  each a datum or the fault of evaluating it. Most functions work on the receiver or,
  without one, on the first argument, and then take what else they need from the
  arguments that are left, in order. Arguments that a function does not take are never
  looked at, so their faults do not count.
-/

import Rulebook.Expr.Operate
import Rulebook.Pattern

namespace Rulebook.Expr

open Rulebook.Time (Timestamp)

/-- An argument: its datum, or the fault of evaluating it. -/
abbrev Arg := Except Fault Datum

/-- What a call gives to a function: the name it is called by, its receiver and its arguments. -/
structure Call where
  name : String
  receiver : Option Datum
  args : List Arg

namespace Call

def fault (call : Call) (text : String) : Fault := .execution call.name text

def arg (call : Call) (i : Nat) : Except Fault Datum :=
  match call.args[i]? with
  | none => .error (.argumentCount (i + 1) call.args.length)
  | some arg => arg

/-- What the function works on, and the place of the argument after it. -/
def target (call : Call) : Except Fault (Datum × Nat) :=
  match call.receiver with
  | some datum => .ok (datum, 0)
  | none =>
    match call.args with
    | .ok datum :: _ => .ok (datum, 1)
    | _ => .error .noTarget

end Call

def wantString : Datum → Except Fault String
  | .string text => .ok text
  | datum => .error (.wrongType datum "Arc<String>")

def wantTimestamp : Datum → Except Fault Timestamp
  | .timestamp t => .ok t
  | datum => .error (.wrongType datum "chrono::DateTime<chrono::FixedOffset>")

/-! ## Texts and containers -/

/-- The number of bytes or of parts. -/
def size (call : Call) : Except Fault Datum := do
  let (target, _) ← call.target
  let count (n : Nat) : Datum := .int (Int64.ofNat n)
  match target with
  | .list items => return count items.length
  | .map entries => return count entries.length
  | .string text => return count text.utf8ByteSize
  | .bytes content => return count content.length
  | datum => throw (call.fault s!"cannot determine the size of {datum.shown}")

def contains (call : Call) : Except Fault Datum := do
  let (target, i) ← call.target
  let part ← call.arg i
  match target, part with
  | .list items, part => return .boolean (items.any fun item => Datum.same item part)
  | .map entries, part =>
    match part.key? with
    | some key => return .boolean (Datum.get? entries key).isSome
    | none => throw (.badKey part)
  | .string text, .string part => return .boolean (Datum.isInfix part.toList text.toList)
  | .bytes content, .bytes part =>
    if part.isEmpty then throw .crash else return .boolean (Datum.isInfix part content)
  | _, _ => return .boolean false

def testStrings (test : List Char → List Char → Bool) (call : Call) : Except Fault Datum := do
  let (target, i) ← call.target
  let text ← wantString target
  let part ← wantString (← call.arg i)
  return .boolean (test part.toList text.toList)

def isMatch (call : Call) : Except Fault Datum := do
  let (target, i) ← call.target
  let text ← wantString target
  let pattern ← wantString (← call.arg i)
  match Pattern.read? pattern.toList with
  | some p => return .boolean (p.occursIn text.toList)
  | none => throw (call.fault s!"'{pattern}' not a valid regex")

/-- The item that comes last in order, or first; of equal items the last. -/
def extreme (better : Ordering) (best : Datum) : List Datum → Except Fault Datum
  | [] => .ok best
  | next :: rest =>
    match Datum.order? best next with
    | some order => extreme better (if order = better then best else next) rest
    | none => .error (.incomparable best next)

/-- The extreme of the arguments, or of the items of one list. -/
def extremeOf (better : Ordering) (call : Call) : Except Fault Datum := do
  let args ← call.args.mapM id
  let items := match args with
    | [.list items] => items
    | args => args
  match items with
  | [] => return .null
  | first :: rest => extreme better first rest

/-! ## Conversions -/

def toText (call : Call) : Except Fault Datum := do
  let (target, _) ← call.target
  let text (chars : List Char) : Datum := .string (String.ofList chars)
  match target with
  | .string s => return .string s
  | .timestamp t => return text t.text
  | .duration d => return text d.clock
  | .int n => return text (Text.decimal n.toInt)
  | .uint n => return text (Text.numeral n.toNat)
  | .float x => return text (Decimal.Layout.plain.text x)
  | .bytes content => return text (Text.Utf8.lossy content)
  | datum => throw (call.fault s!"cannot convert {datum.shown} to string")

def toBytes (call : Call) : Except Fault Datum := do
  let text ← wantString (← call.arg 0)
  return .bytes (Text.Utf8.encode text.toList)

def toFloat (call : Call) : Except Fault Datum := do
  let (target, _) ← call.target
  match target with
  | .string s =>
    match Decimal.readFloat s.toList with
    | .ok x => return .float x
    | .error fault => throw (call.fault s!"string parse error: {fault.message}")
  | .float x => return .float x
  | .int n => return .float n.toFloat
  | .uint n => return .float n.toFloat
  | datum => throw (call.fault s!"cannot convert {datum.shown} to double")

/-- The signed integer of a number or a text; a float is cut off. -/
def toInt (call : Call) : Except Fault Datum := do
  let (target, _) ← call.target
  match target with
  | .string s =>
    match Text.readInt64 s.toList with
    | .ok n => return .int (Int64.ofInt n)
    | .error fault => throw (call.fault s!"string parse error: {fault.message}")
  | .float x =>
    if x > 9223372036854775808.0 || x < -9223372036854775808.0 then throw (call.fault "integer overflow")
    else return .int x.toInt64
  | .int n => return .int n
  | .uint n =>
    if n.toNat ≤ 9223372036854775807 then return .int (Int64.ofNat n.toNat) else throw (call.fault "integer overflow")
  | datum => throw (call.fault s!"cannot convert {datum.shown} to int")

def toUint (call : Call) : Except Fault Datum := do
  let (target, _) ← call.target
  match target with
  | .string s =>
    match Text.readWord s.toList with
    | .ok n => return .uint (UInt64.ofNat n)
    | .error fault => throw (call.fault s!"string parse error: {fault.message}")
  | .float x =>
    if x > 18446744073709551616.0 || x < 0.0 then throw (call.fault "unsigned integer overflow")
    else return .uint x.toUInt64
  | .int n =>
    if 0 ≤ n.toInt then return .uint (UInt64.ofNat n.toInt.toNat) else throw (call.fault "unsigned integer overflow")
  | .uint n => return .uint n
  | datum => throw (call.fault s!"cannot convert {datum.shown} to uint")

/-! ## Time -/

def toDuration (call : Call) : Except Fault Datum := do
  let text ← wantString (← call.arg 0)
  match Time.Duration.read text.toList with
  | .ok d => return .duration d
  | .error fault => throw (call.fault fault.message)

def toTimestamp (call : Call) : Except Fault Datum := do
  let text ← wantString (← call.arg 0)
  match Timestamp.read text.toList with
  | .ok t => return .timestamp t
  | .error fault => throw (call.fault fault.message)

def fieldOf (field : Timestamp → Int) (call : Call) : Except Fault Datum := do
  let (target, _) ← call.target
  let t ← wantTimestamp target
  return .int (Int64.ofInt (field t))

/-! ## All functions -/

def functions : List (String × (Call → Except Fault Datum)) := [
  ("contains", contains),
  ("size", size),
  ("max", extremeOf .gt),
  ("min", extremeOf .lt),
  ("startsWith", testStrings fun part text => part.isPrefixOf text),
  ("endsWith", testStrings fun part text => part.isSuffixOf text),
  ("matches", isMatch),
  ("string", toText),
  ("bytes", toBytes),
  ("double", toFloat),
  ("int", toInt),
  ("uint", toUint),
  ("duration", toDuration),
  ("timestamp", toTimestamp),
  ("getFullYear", fieldOf fun t => t.date.year),
  ("getMonth", fieldOf fun t => t.date.month - 1),
  ("getDayOfYear", fieldOf fun t => t.date.ordinal),
  ("getDayOfMonth", fieldOf fun t => t.date.day - 1),
  ("getDate", fieldOf fun t => t.date.day),
  ("getDayOfWeek", fieldOf fun t => t.date.weekday),
  ("getHours", fieldOf fun t => t.hour),
  ("getMinutes", fieldOf fun t => t.minute),
  ("getSeconds", fieldOf fun t => t.secondOfMinute),
  ("getMilliseconds", fieldOf fun t => t.milliseconds)]

end Rulebook.Expr
