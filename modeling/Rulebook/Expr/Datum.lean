/-
  Rulebook.Expr.Datum — what an expression evaluates to.

  The engine has every kind of value and, besides, bytes, durations, timestamps, maps
  with keys of four kinds, and functions named like members. A value becomes a datum
  with the same parts. A datum becomes a value again when no part of it is a function:
  bytes become text, timestamps and durations their texts, and keys the texts of keys.

  A map is gone through in the order in which its entries stand. What order that is nobody
  can rely on, so whatever makes a map takes it from an `Arrangement`.
-/

import Rulebook.Time.Timestamp
import Rulebook.Value
import Rulebook.Decimal.Layout

namespace Rulebook

open Rulebook.Time (Timestamp Duration)

inductive Key where
  | int (n : Int64)
  | uint (n : UInt64)
  | boolean (b : Bool)
  | string (text : String)
  deriving DecidableEq

inductive Datum where
  | null
  | boolean (b : Bool)
  | int (n : Int64)
  | uint (n : UInt64)
  | float (x : Float)
  | string (text : String)
  | bytes (content : List UInt8)
  | list (items : List Datum)
  | map (entries : List (Key × Datum))
  | duration (d : Duration)
  | timestamp (t : Timestamp)
  | function (name : String) (receiver : Datum)
  deriving Inhabited

/-- An order for the entries of a map. -/
structure Arrangement where
  of : List (Key × Datum) → List (Key × Datum)
  perm : ∀ entries, (of entries).Perm entries

def Arrangement.asSet : Arrangement := ⟨id, fun _ => .refl _⟩

namespace Key

def text : Key → String
  | .int n => String.ofList (Text.decimal n.toInt)
  | .uint n => String.ofList (Text.numeral n.toNat)
  | .boolean true => "true"
  | .boolean false => "false"
  | .string text => text

def diagnostic : Key → List Char
  | .int n => "Int(".toList ++ Text.decimal n.toInt ++ [')']
  | .uint n => "Uint(".toList ++ Text.numeral n.toNat ++ [')']
  | .boolean b => "Bool(".toList ++ (toString b).toList ++ [')']
  | .string text => "String(".toList ++ Text.quoted text.toList ++ [')']

end Key

namespace Datum

/-! ## Entries of maps -/

/-- Sets the entry of a key: in its place if the key has one, else at the end. -/
def put (entries : List (Key × Datum)) (key : Key) (datum : Datum) : List (Key × Datum) :=
  match entries with
  | [] => [(key, datum)]
  | entry :: rest => if entry.1 = key then (key, datum) :: rest else entry :: put rest key datum

def get? (entries : List (Key × Datum)) (key : Key) : Option Datum :=
  (entries.find? fun entry => decide (entry.1 = key)).map Prod.snd

def key? : Datum → Option Key
  | .int n => some (.int n)
  | .uint n => some (.uint n)
  | .boolean b => some (.boolean b)
  | .string text => some (.string text)
  | _ => none

/-! ## Values -/

mutual
/-- The datum of a value, its maps in the order of the names. -/
def ofValue : Value → Datum
  | .null => .null
  | .boolean b => .boolean b
  | .number (.int n) => .int n
  | .number (.uint n) => .uint n
  | .number (.float x) => .float x
  | .string text => .string text
  | .sequence items => .list (ofItems items)
  | .mapping entries => .map (ofEntries entries)
def ofItems : List Value → List Datum
  | [] => []
  | item :: rest => ofValue item :: ofItems rest
def ofEntries : List (String × Value) → List (Key × Datum)
  | [] => []
  | entry :: rest => (.string entry.1, ofValue entry.2) :: ofEntries rest
end

mutual
/-- The value of a datum, or the part of it that is no data. -/
def toValue : Datum → Except Datum Value
  | .null => .ok .null
  | .boolean b => .ok (.boolean b)
  | .int n => .ok (.int n)
  | .uint n => .ok (.uint n)
  | .float x => .ok (.float x)
  | .string text => .ok (.string text)
  | .bytes content => .ok (.string (String.ofList (Text.Utf8.lossy content)))
  | .list items => (toItems items).map .sequence
  | .map entries => (toEntries [] entries).map .mapping
  | .duration d => .ok (.string (String.ofList d.iso))
  | .timestamp t => .ok (.string (String.ofList t.shortText))
  | .function name receiver => .error (.function name receiver)
def toItems : List Datum → Except Datum (List Value)
  | [] => .ok []
  | item :: rest => do
    let item ← toValue item
    let rest ← toItems rest
    return item :: rest
/-- The mapping entries `done` and those of map entries, under the texts of their keys. -/
def toEntries (done : List (String × Value)) : List (Key × Datum) → Except Datum (List (String × Value))
  | [] => .ok done
  | entry :: rest => do
    let value ← toValue entry.2
    toEntries (Entries.put done entry.1.text value) rest
end

/-! ## Arrangements -/

mutual
/-- A datum with all its maps in the order of an arrangement. -/
def arranged (arrangement : Arrangement) : Datum → Datum
  | .list items => .list (arrangedItems arrangement items)
  | .map entries => .map (arrangement.of (arrangedEntries arrangement entries))
  | datum => datum
def arrangedItems (arrangement : Arrangement) : List Datum → List Datum
  | [] => []
  | item :: rest => arranged arrangement item :: arrangedItems arrangement rest
def arrangedEntries (arrangement : Arrangement) : List (Key × Datum) → List (Key × Datum)
  | [] => []
  | entry :: rest => (entry.1, arranged arrangement entry.2) :: arrangedEntries arrangement rest
end

/-! ## Diagnostics -/

def separated : List (List Char) → List Char
  | [] => []
  | [text] => text
  | text :: rest => text ++ ',' :: ' ' :: separated rest

mutual
def diagnostic : Datum → List Char
  | .null => "Null".toList
  | .boolean b => "Bool(".toList ++ (toString b).toList ++ [')']
  | .int n => "Int(".toList ++ Text.decimal n.toInt ++ [')']
  | .uint n => "UInt(".toList ++ Text.numeral n.toNat ++ [')']
  | .float x => "Float(".toList ++ Decimal.Layout.diagnostic.text x ++ [')']
  | .string text => "String(".toList ++ Text.quoted text.toList ++ [')']
  | .bytes content => "Bytes([".toList ++ separated (content.map fun b => Text.numeral b.toNat) ++ "])".toList
  | .list items => "List([".toList ++ separated (diagnosticItems items) ++ "])".toList
  | .map entries => "Map(Map \x7b map: \x7b".toList ++ separated (diagnosticEntries entries) ++ "\x7d \x7d)".toList
  | .duration d => "Duration(".toList ++ d.diagnostic ++ [')']
  | .timestamp t => "Timestamp(".toList ++ t.text ++ [')']
  | .function name receiver =>
    "Function(".toList ++ Text.quoted name.toList ++ ", Some(".toList ++ diagnostic receiver ++ "))".toList
def diagnosticItems : List Datum → List (List Char)
  | [] => []
  | item :: rest => diagnostic item :: diagnosticItems rest
def diagnosticEntries : List (Key × Datum) → List (List Char)
  | [] => []
  | entry :: rest => (entry.1.diagnostic ++ ':' :: ' ' :: diagnostic entry.2) :: diagnosticEntries rest
end

def shown (datum : Datum) : String := String.ofList datum.diagnostic

end Datum

end Rulebook
