/-
  Rulebook.Json.Decode — data of an expected shape, taken from a tree.

  A decoder walks its tree in the order of the text, so it reports the first fault that
  it meets; what it does not ask for it skips. A record is written as an object, or as a
  list of its fields in order. In an object a field may stand in any place but only
  once, and a name that is none of the fields is refused or skipped, as the record says;
  both are noticed at the name, before its value. In a list fields may be left out from
  the end, but for those that the record requires.
-/

import Rulebook.Json.Form
import Rulebook.Text.Quoted

namespace Rulebook.Json

/-- How many lists and objects may stand inside each other. -/
def maxDepth : Nat := 127

/-- The kind of thing that stands in a tree, as a fault names it. -/
def Tree.found : Tree → Except Fault String
  | .scalar .null => .ok "null"
  | .scalar (.boolean b) => .ok s!"boolean `{b}`"
  | .scalar (.number (.float x)) => .ok s!"floating point `{String.ofList (Decimal.Layout.json.text x)}`"
  | .scalar (.number (.int n)) => .ok s!"integer `{n}`"
  | .scalar (.number (.uint n)) => .ok s!"integer `{n}`"
  | .text s => .ok s!"string {String.ofList (Text.quoted s.toList)}"
  | .flawed flaw => .error flaw.read
  | .list _ _ => .ok "sequence"
  | .object _ _ => .ok "map"

/-- The fault of a tree that is not what is expected. -/
def Tree.mismatch {α : Type} (tree : Tree) (expected : String) : Except Fault α := do
  throw (.invalidType (← tree.found) expected)

/-- The end of a list or an object that has been read up to it. -/
def ended (ending : Option Flaw) : Except Fault Unit :=
  match ending with
  | none => .ok ()
  | some flaw => .error flaw.read

def Name.read : Name → Except Fault String
  | .ok name => .ok name
  | .error flaw => .error flaw.read

def Tree.string : Tree → Except Fault String
  | .text s => .ok s
  | tree => tree.mismatch "a string"

def Tree.items {α : Type} (item : Tree → Except Fault α) : Tree → Except Fault (List α)
  | .list trees ending => do
    let items ← trees.mapM item
    ended ending
    return items
  | tree => tree.mismatch "a sequence"

def Tree.optional {α : Type} (present : Tree → Except Fault α) : Tree → Except Fault (Option α)
  | .scalar .null => .ok none
  | tree => (present tree).map some

def Tree.size : Tree → Except Fault Nat
  | .scalar (.number (.int n)) =>
    if n.toInt < 0 then .error (.invalidValue s!"integer `{n}`" "usize") else .ok n.toInt.toNat
  | .scalar (.number (.uint n)) => .ok n.toNat
  | tree => tree.mismatch "usize"

/-! ## Records -/

/-- A field of a record: its name, another name it may be written under, and whether a list must hold it. -/
structure Field where
  name : String
  also : Option String := none
  required : Bool := false

/-- Whether a field is written under a name. -/
def Field.answers (field : Field) (name : String) : Bool := field.name == name || field.also == some name

/-- A record: its name, its fields in order, and whether other names are refused. -/
structure Record where
  name : String
  fields : List Field
  closed : Bool

def Record.described (record : Record) : String :=
  s!"struct {record.name} with {record.fields.length} elements"

/-- The fields that have been taken, under their own names. -/
abbrev Taken (α : Type) := List (String × α)

/-- The fields of a record from the members of an object, beyond those of `taken`. -/
def Record.ofMembers {α : Type} (record : Record) (take : String → Tree → Except Fault α) (taken : Taken α) :
    List Member → Except Fault (Taken α)
  | [] => .ok taken
  | member :: rest => do
    let name ← Name.read member.1
    match record.fields.find? (·.answers name) with
    | some field =>
      if taken.any (·.1 == field.name) then throw (.duplicateField field.name)
      let value ← take field.name member.2
      record.ofMembers take (taken ++ [(field.name, value)]) rest
    | none =>
      if record.closed then throw (.unknownField name (record.fields.flatMap fun f => f.name :: f.also.toList))
      member.2.skip
      record.ofMembers take taken rest

/-- The fault of a list that goes on after the last field of a record, if it does. -/
def listEnd (items : List Tree) (ending : Option Flaw) : Except Fault Unit :=
  match items, ending with
  | [], none => .ok ()
  | [], some flaw =>
    if flaw.read = .trailingComma ∨ flaw.read = .breaksOff .list then .error flaw.read
    else .error .trailingCharacters
  | _ :: _, _ => .error .trailingCharacters

/-- The fields of a record from the items of a list, of which `index` have been taken before. -/
def Record.ofItems {α : Type} (record : Record) (take : String → Tree → Except Fault α) (index : Nat) :
    List Field → List Tree → Option Flaw → Except Fault (Taken α)
  | [], items, ending => do
    listEnd items ending
    return []
  | field :: fields, [], ending => do
    ended ending
    if field.required then throw (.invalidLength index record.described)
    record.ofItems take (index + 1) fields [] ending
  | field :: fields, item :: items, ending => do
    let value ← take field.name item
    let rest ← record.ofItems take (index + 1) fields items ending
    return (field.name, value) :: rest

def Tree.record {α : Type} (record : Record) (take : String → Tree → Except Fault α) :
    Tree → Except Fault (Taken α)
  | .object members ending => do
    -- the ending stands after the last member, so it is looked at when all members are taken
    let taken ← record.ofMembers take [] members
    ended ending
    return taken
  | .list items ending => record.ofItems take 0 record.fields items ending
  | tree => tree.mismatch s!"struct {record.name}"

def Document.decode {α : Type} (document : Document) (take : Tree → Except Fault α) : Except Fault α := do
  let value ← take document.root
  if let some fault := document.ending then throw fault
  return value

end Rulebook.Json
