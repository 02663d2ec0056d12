/-
  Rulebook.Context — the named data that rules refer to.

  A context is a mapping: each of its entries is a name that rules may use. It is the
  same data as a value and is written and read as one.
-/

import Rulebook.Json.Content
import Rulebook.Json.Data

namespace Rulebook

/-- Names and their data, in ascending order of the names. -/
structure Context where
  entries : List (String × Value)

namespace Context

def empty : Context := ⟨[]⟩

/-- The context of a list of entries in any order; of one name the last counts. -/
def ofList (entries : List (String × Value)) : Context := ⟨Entries.ofList entries⟩

def insert (context : Context) (name : String) (value : Value) : Context := ⟨Entries.put context.entries name value⟩

def get? (context : Context) (name : String) : Option Value := Entries.get? context.entries name

def size (context : Context) : Nat := context.entries.length

def isEmpty (context : Context) : Bool := context.entries.isEmpty

def names (context : Context) : List String := context.entries.map Prod.fst

def toValue (context : Context) : Value := .mapping context.entries

/-- The context that JSON data is, or the kind of data that is none. -/
def ofJson (json : Json) : Except Kind Context :=
  match Value.ofJson json with
  | .mapping entries => .ok ⟨entries⟩
  | value => .error value.kind

/-- The entries `done` and those of the members of an object; of one name the last counts. -/
def ofMembers (depth : Nat) (done : List (String × Value)) :
    List Json.Member → Except Json.Fault (List (String × Value))
  | [] => .ok done
  | member :: rest => do
    let name ← Json.Name.read member.1
    let value ← Value.ofTree depth member.2
    ofMembers depth (Entries.put done name value) rest

/-- The context of a tree in which at most `depth` lists and objects stand inside each other. -/
def ofTree (depth : Nat) : Json.Tree → Except Json.Fault Context
  | .object members ending =>
    if depth = 0 then .error .tooDeep
    else do
      let entries ← ofMembers (depth - 1) [] members
      Json.ended ending
      return ⟨entries⟩
  | tree => tree.mismatch "a map"

def ofText (text : String) : Except Json.Fault Context :=
  (Json.Document.ofText text).decode (ofTree Json.maxDepth)

def notAnObject (kind : Kind) : String := s!"evaluation context must be a Mapping, got {kind.name}"

theorem get?_insert_self (context : Context) (name : String) (value : Value) :
    (context.insert name value).get? name = some value :=
  Entries.get?_put_self _ _ _

theorem get?_insert_of_ne (context : Context) {name other : String} (value : Value) (h : other ≠ name) :
    (context.insert name value).get? other = context.get? other :=
  Entries.get?_put_of_ne _ _ h

end Context

end Rulebook
