/-
  Rulebook.Json.Form — JSON data, and the two ways to write it.

  An object keeps its members in the order in which they are written. The compact form
  has no blanks at all. The indented form gives every item and member a line of its own,
  two blanks deeper than its container, and writes an empty container as the compact
  form does. In a string only the quote, the backslash and the control characters below
  U+0020 are escaped. JSON has no number for a float that is not finite: such a float is
  null, as data and where it is written.
-/

import Rulebook.Decimal.Layout
import Rulebook.Json.Tree

namespace Rulebook

inductive Json where
  | null
  | boolean (b : Bool)
  | number (n : Number)
  | string (text : String)
  | list (items : List Json)
  | object (members : List (String × Json))
  deriving Inhabited

namespace Json

/-! ## Writing -/

def escapedChar (c : Char) : List Char :=
  if c = '"' then ['\\', '"']
  else if c = '\\' then ['\\', '\\']
  else if c = '\x08' then ['\\', 'b']
  else if c = '\x0c' then ['\\', 'f']
  else if c = '\n' then ['\\', 'n']
  else if c = '\r' then ['\\', 'r']
  else if c = '\t' then ['\\', 't']
  else if c.toNat < 0x20 then '\\' :: 'u' :: Text.digitsPadded 16 4 c.toNat
  else [c]

def written (text : List Char) : List Char := '"' :: (text.flatMap escapedChar ++ ['"'])

def writtenNumber : Number → List Char
  | .int n => Text.decimal n.toInt
  | .uint n => Text.numeral n.toNat
  | .float x => if x.isNaN || x.isInf then "null".toList else Decimal.Layout.json.text x

mutual
def compact : Json → List Char
  | .null => "null".toList
  | .boolean true => "true".toList
  | .boolean false => "false".toList
  | .number n => writtenNumber n
  | .string text => written text.toList
  | .list items => '[' :: (compactItems items ++ [']'])
  | .object members => '\x7b' :: (compactMembers members ++ ['\x7d'])
def compactItems : List Json → List Char
  | [] => []
  | [item] => item.compact
  | item :: rest => item.compact ++ ',' :: compactItems rest
def compactMembers : List (String × Json) → List Char
  | [] => []
  | [member] => written member.1.toList ++ ':' :: member.2.compact
  | member :: rest => written member.1.toList ++ ':' :: (member.2.compact ++ ',' :: compactMembers rest)
end

def newLine (depth : Nat) : List Char := '\n' :: List.replicate (2 * depth) ' '

mutual
def indented (depth : Nat) : Json → List Char
  | .list (item :: rest) => '[' :: (indentedItems (depth + 1) (item :: rest) ++ newLine depth ++ [']'])
  | .object (member :: rest) =>
    '\x7b' :: (indentedMembers (depth + 1) (member :: rest) ++ newLine depth ++ ['\x7d'])
  | .list [] => "[]".toList
  | .object [] => ['\x7b', '\x7d']
  | .null => "null".toList
  | .boolean true => "true".toList
  | .boolean false => "false".toList
  | .number n => writtenNumber n
  | .string text => written text.toList
def indentedItems (depth : Nat) : List Json → List Char
  | [] => []
  | [item] => newLine depth ++ item.indented depth
  | item :: rest => newLine depth ++ item.indented depth ++ ',' :: indentedItems depth rest
def indentedMembers (depth : Nat) : List (String × Json) → List Char
  | [] => []
  | [member] => newLine depth ++ written member.1.toList ++ ':' :: ' ' :: member.2.indented depth
  | member :: rest =>
    newLine depth ++ written member.1.toList ++ ':' :: ' ' :: member.2.indented depth ++
      ',' :: indentedMembers depth rest
end

def toText (json : Json) : String := String.ofList json.compact

def toIndented (json : Json) : String := String.ofList (json.indented 0)

end Json

/-! ## Numbers of JSON data -/

namespace Number

def int64? : Number → Option Int64
  | .int n => some n
  | .uint n => if n.toNat ≤ 9223372036854775807 then some (Int64.ofNat n.toNat) else none
  | .float _ => none

def uint64? : Number → Option UInt64
  | .int n => if n.toInt < 0 then none else some (UInt64.ofNat n.toInt.toNat)
  | .uint n => some n
  | .float _ => none

def nearest : Number → Float
  | .int n => n.toFloat
  | .uint n => n.toFloat
  | .float x => x

/-- A number as a signed integer if it is one, else as an unsigned one, else as a float. -/
def settled (n : Number) : Number :=
  match n.int64?, n.uint64? with
  | some i, _ => .int i
  | none, some u => .uint u
  | none, none => .float n.nearest

end Number

/-! ## Values as JSON data -/

namespace Value

mutual
def toJson : Value → Json
  | .null => .null
  | .boolean b => .boolean b
  | .number n => .number n
  | .string text => .string text
  | .sequence items => .list (itemsToJson items)
  | .mapping entries => .object (entriesToJson entries)
def itemsToJson : List Value → List Json
  | [] => []
  | item :: rest => item.toJson :: itemsToJson rest
def entriesToJson : List (String × Value) → List (String × Json)
  | [] => []
  | entry :: rest => (entry.1, entry.2.toJson) :: entriesToJson rest
end

mutual
def ofJson : Json → Value
  | .null => .null
  | .boolean b => .boolean b
  | .number n => .number n.settled
  | .string text => .string text
  | .list items => .sequence (itemsOfJson items)
  | .object members => .mapping (Entries.ofList (entriesOfJson members))
def itemsOfJson : List Json → List Value
  | [] => []
  | item :: rest => ofJson item :: itemsOfJson rest
def entriesOfJson : List (String × Json) → List (String × Value)
  | [] => []
  | member :: rest => (member.1, ofJson member.2) :: entriesOfJson rest
end

end Value

end Rulebook
