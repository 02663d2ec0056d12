/-
  Rulebook.Settings.Toml.Table — the tables of a TOML text while they are defined.

  A name is defined once. A table that a header names may only have been passed by
  headers before; a table that points between names make may only be extended by such
  names; a value, be it a table in braces, may not be extended at all.
-/

import Rulebook.Settings.Node

namespace Rulebook.Settings.Toml

/-- How a table came to be: named by a header, passed by one on the way to another table, or
    made by points between names. -/
inductive Made where
  | named
  | passed
  | dotted
  deriving DecidableEq, Repr

/-- What a name stands for: a value, or a table that is still open. -/
inductive Item where
  | value (node : Node)
  | table (made : Made) (entries : List (String × Item))

abbrev Entries := List (String × Item)

namespace Entries

def item? (entries : Entries) (name : String) : Option Item := (entries.find? (·.1 == name)).map Prod.snd

def change (entries : Entries) (name : String) (item : Item) : Entries :=
  entries.map fun entry => if entry.1 = name then (name, item) else entry

/-- Defines a name, under the tables that points before it make. -/
def define (value : Node) : List String → Entries → Option Entries
  | [], _ => none
  | [name], entries =>
    match entries.item? name with
    | none => some (entries ++ [(name, .value value)])
    | some _ => none
  | name :: path, entries =>
    match entries.item? name with
    | none => (define value path []).map fun inner => entries ++ [(name, .table .dotted inner)]
    | some (.table .dotted inner) =>
      (define value path inner).map fun inner => entries.change name (.table .dotted inner)
    | some _ => none

def header : List String → Entries → Option Entries
  | [], _ => none
  | [name], entries =>
    match entries.item? name with
    | none => some (entries ++ [(name, .table .named [])])
    | some (.table .passed inner) => some (entries.change name (.table .named inner))
    | some _ => none
  | name :: path, entries =>
    match entries.item? name with
    | none => (header path []).map fun inner => entries ++ [(name, .table .passed inner)]
    | some (.table made inner) => (header path inner).map fun inner => entries.change name (.table made inner)
    | some (.value _) => none

def defineUnder (value : Node) (path : List String) : List String → Entries → Option Entries
  | [], entries => entries.define value path
  | name :: rest, entries =>
    match entries.item? name with
    | some (.table made inner) =>
      (defineUnder value path rest inner).map fun inner => entries.change name (.table made inner)
    | _ => none

end Entries

mutual
def Item.node : Item → Node
  | .value node => node
  | .table _ entries => .table (nodes entries)
def nodes : List (String × Item) → List (String × Node)
  | [] => []
  | (name, item) :: rest => (name, item.node) :: nodes rest
end

end Rulebook.Settings.Toml
