/-
  Rulebook.Settings.Node — the data of settings texts, whatever their format.

  Settings are records of numbers, words and choices. Data that no setting can be, such
  as a fraction or a date, is not told apart. Formats differ in what else they take for a
  record or a choice: a record may be a list of its fields in order, or nothing at all,
  and a choice may be a table whose one name is the choice. A convention says which.

  The fields of a record are set one by one, in the order of the text, on top of what a
  record has without them. A name that is none of the fields, a name that comes twice and
  a value that the field cannot have each end this; the first of them is the cause that is
  kept. Where in the text it stands is not.
-/

import Rulebook.Json.Tree

namespace Rulebook.Settings

inductive Node where
  | nothing
  | text (text : String)
  | size (n : Nat)
  | other
  | list (items : List Node)
  | table (entries : List (String × Node))
  deriving Inhabited

/-- Which lists stand for records: none, those that hold no more than the fields, or all, of
    which what is beyond the fields is skipped. -/
inductive Listed where
  | never
  | within
  | leading
  deriving DecidableEq, Repr

/-- What a format takes for records and choices besides tables and words. -/
structure Convention where
  listed : Listed
  /-- Whether nothing is a record without fields. -/
  bare : Bool
  /-- What may stand behind the name of a choice that is written as a table. -/
  plain : Node → Bool

namespace Convention

/-- Lists of the fields are records, and null stands behind the name of a choice. -/
def json : Convention := ⟨.within, false, fun node => match node with | .nothing => true | _ => false⟩

/-- Lists that begin with the fields are records, and a choice has an empty list or table behind its name. -/
def toml : Convention :=
  ⟨.leading, false, fun node => match node with | .list [] => true | .table [] => true | _ => false⟩

/-- No list is a record, but nothing is one, and choices are words only. -/
def yaml : Convention := ⟨.never, true, fun _ => false⟩

end Convention

/-! ## Records -/

/-- Why a text holds no settings. -/
inductive Cause where
  | broken
  | noRecord
  | unknownField (name : String) (expected : List String)
  | duplicateField (name : String)
  | badValue (field : String)
  deriving DecidableEq, Repr

/-- The wording of a cause, if all formats word it alike. -/
def Cause.message? : Cause → Option String
  | .unknownField name expected => some (Json.Fault.unknownField name expected).message
  | .duplicateField name => some (Json.Fault.duplicateField name).message
  | .broken | .noRecord | .badValue _ => none

/-- A field of a record, and how data changes it. -/
structure Field (α : Type) where
  name : String
  set : Node → α → Except Cause α

def Field.reading {α β : Type} (name : String) (read : Node → Option β) (put : β → α → α) : Field α where
  name := name
  set node record :=
    match read node with
    | some value => .ok (put value record)
    | none => .error (.badValue name)

/-- A record after its fields have been set to the data of entries; those in `done` have been before. -/
def setFields {α : Type} (fields : List (Field α)) (done : List String) (record : α) :
    List (String × Node) → Except Cause α
  | [] => .ok record
  | (name, node) :: rest =>
    match fields.find? (·.name == name) with
    | none => .error (.unknownField name (fields.map Field.name))
    | some field =>
      if done.contains name then .error (.duplicateField name)
      else do
        let record ← field.set node record
        setFields fields (name :: done) record rest

namespace Node

def entries (convention : Convention) (names : List String) : Node → Except Cause (List (String × Node))
  | .table entries => .ok entries
  | .nothing => if convention.bare then .ok [] else .error .noRecord
  | .list items =>
    match convention.listed with
    | .never => .error .noRecord
    | .within => if items.length ≤ names.length then .ok (names.zip items) else .error .noRecord
    | .leading => .ok (names.zip items)
  | _ => .error .noRecord

/-- A record with what data says of its fields. -/
def record {α : Type} (convention : Convention) (fields : List (Field α)) (default : α) (node : Node) :
    Except Cause α := do
  let entries ← node.entries convention (fields.map Field.name)
  setFields fields [] default entries

/-! ## Values -/

def choice? (convention : Convention) : Node → Option String
  | .text s => some s
  | .table [(name, node)] => if convention.plain node then some name else none
  | _ => none

def text? : Node → Option String
  | .text s => some s
  | _ => none

def size? : Node → Option UInt64
  | .size n => if n < UInt64.size then some (UInt64.ofNat n) else none
  | _ => none

/-! ## JSON -/

def ofNumber : Number → Node
  | .int n => if n.toInt < 0 then .other else .size n.toInt.toNat
  | .uint n => .size n.toNat
  | .float _ => .other

mutual
def ofTree : Json.Tree → Option Node
  | .scalar .null => some .nothing
  | .scalar (.boolean _) => some .other
  | .scalar (.number n) => some (ofNumber n)
  | .text s => some (.text s)
  | .flawed _ => none
  | .list _ (some _) => none
  | .object _ (some _) => none
  | .list items none => (ofTrees items).map .list
  | .object members none => (ofMembers members).map .table
def ofTrees : List Json.Tree → Option (List Node)
  | [] => some []
  | item :: rest =>
    match ofTree item, ofTrees rest with
    | some item, some rest => some (item :: rest)
    | _, _ => none
def ofMembers : List (Except Json.Flaw String × Json.Tree) → Option (List (String × Node))
  | [] => some []
  | member :: rest =>
    match member.1, ofTree member.2, ofMembers rest with
    | .ok name, some node, some rest => some ((name, node) :: rest)
    | _, _, _ => none
end

def ofJson? (text : List Char) : Option Node :=
  let document := Json.Document.ofSymbols (text.map some)
  match document.ending with
  | none => ofTree document.root
  | some _ => none

end Node

end Rulebook.Settings
