/-
  Rulebook.Request — requests to evaluate rules.

  A request is a JSON document in one of two layouts. Besides the rules and the time it
  holds three sections, which become the entries of the context: two of any data, and
  the change that the rules judge, which is itself a record. What is not there, or is
  null, is null in the context, but the entry of the change is always a mapping of all
  its fields. A request has no names but those of its layout, and a change may have
  others, which are skipped.

  Of the faults of a request the first in this order is reported: the text is none of
  the layout, there are no rules, there is no time, the time cannot be read.
  - `Layout.ofName?_name`: a layout is found by its name.
-/

import Rulebook.Context
import Rulebook.Time.Timestamp

namespace Rulebook

open Rulebook.Json (Tree Record Field Taken)
open Rulebook.Time (Timestamp)

/-- The layouts of requests, named for the change that they carry. -/
inductive Layout where
  | event
  | processState
  deriving DecidableEq, Repr, Inhabited

namespace Layout

def name : Layout → String
  | .event => "event"
  | .processState => "process-state"

def ofName? (name : String) : Option Layout :=
  if name = "event" then some .event else if name = "process-state" then some .processState else none

theorem ofName?_name (layout : Layout) : ofName? layout.name = some layout := by
  cases layout <;> rfl

def record : Layout → Record
  | .event =>
    ⟨"EventRequest",
      [⟨"rules", none, true⟩, ⟨"context", none, false⟩, ⟨"environment", none, false⟩, ⟨"event", none, false⟩,
        ⟨"currentTime", none, true⟩], true⟩
  | .processState =>
    ⟨"ProcessStateRequest",
      [⟨"rules", none, true⟩, ⟨"newProcessState", none, false⟩, ⟨"environmentState", none, false⟩,
        ⟨"delta", none, false⟩, ⟨"currentTime", none, true⟩], true⟩

/-- The sections of a request that hold any data, with their names in the context. -/
def sections : Layout → List (String × String)
  | .event => [("context", "context"), ("environment", "environment")]
  | .processState => [("newProcessState", "processState"), ("environmentState", "environmentState")]

/-- The section of the change, under the same name in the context. -/
def change : Layout → String
  | .event => "event"
  | .processState => "delta"

def changeRecord : Layout → Record
  | .event =>
    ⟨"EventMessage", [⟨"payload", some "content", false⟩, ⟨"sender", none, false⟩, ⟨"signers", none, false⟩], false⟩
  | .processState =>
    ⟨"StateDelta", [⟨"content", none, false⟩, ⟨"sender", none, false⟩, ⟨"signers", none, false⟩], false⟩

end Layout

/-- What an evaluation needs: the rules, the data that they refer to, and the time. -/
structure Request where
  rules : List String
  context : Context
  time : Timestamp

namespace Request

inductive Fault where
  | misfit (layout : Layout) (fault : Json.Fault)
  | noRules
  | noTime
  | badTime (text : String) (fault : Timestamp.Fault)

def Fault.message : Fault → String
  | .misfit layout fault => s!"request does not match the {layout.name} layout: {fault.message}"
  | .noRules => (Json.Fault.missingField "rules").message
  | .noTime => (Json.Fault.missingField "currentTime").message
  | .badTime text fault => s!"`currentTime` is not an RFC 3339 timestamp ('{text}'): {fault.message}"

/-! ## The parts of a request -/

/-- The data of a field, null if the field is not there. -/
def dataOf (fields : Taken Value) (name : String) : Value :=
  match fields.find? (·.1 == name) with
  | some field => field.2
  | none => .null

/-- A change as data: all its fields, of which those that are not `fields` are null. -/
def changeOf (layout : Layout) (fields : Taken Value) : Value :=
  .ofEntries (layout.changeRecord.fields.map fun field => (field.name, dataOf fields field.name))

def sectionDepth : Nat := Json.maxDepth - 1

def takeChange (layout : Layout) (tree : Tree) : Except Json.Fault Value := do
  let fields ← tree.optional (Tree.record layout.changeRecord fun _ => Value.ofTree (sectionDepth - 1))
  return changeOf layout (fields.getD [])

inductive Part where
  | rules (rules : Option (List String))
  | time (text : Option String)
  | data (value : Value)

def takePart (layout : Layout) (name : String) (tree : Tree) : Except Json.Fault Part :=
  if name = "rules" then (tree.optional (Tree.items Tree.string)).map .rules
  else if name = "currentTime" then (tree.optional Tree.string).map .time
  else if name = layout.change then (takeChange layout tree).map .data
  else (Value.ofTree sectionDepth tree).map .data

def rules? (parts : Taken Part) : Option (List String) :=
  parts.findSome? fun part => match part.2 with | .rules rules => rules | _ => none

def time? (parts : Taken Part) : Option String :=
  parts.findSome? fun part => match part.2 with | .time text => text | _ => none

def section? (parts : Taken Part) (name : String) : Option Value :=
  parts.findSome? fun part =>
    match part.2 with
    | .data value => if part.1 = name then some value else none
    | _ => none

def contextOf (layout : Layout) (parts : Taken Part) : Context :=
  .ofList ((layout.change, (section? parts layout.change).getD (changeOf layout [])) ::
    layout.sections.map fun names => (names.2, (section? parts names.1).getD .null))

end Request

def Layout.parts (layout : Layout) (body : Json.Document) : Except Json.Fault (Taken Request.Part) :=
  body.decode (Tree.record layout.record (Request.takePart layout))

def Layout.request (layout : Layout) (body : Json.Document) : Except Request.Fault Request :=
  match layout.parts body with
  | .error fault => .error (.misfit layout fault)
  | .ok parts =>
    match Request.rules? parts, Request.time? parts with
    | none, _ => .error .noRules
    | _, none => .error .noTime
    | some rules, some text =>
      match Timestamp.read text.toList with
      | .error fault => .error (.badTime text fault)
      | .ok time => .ok ⟨rules, Request.contextOf layout parts, time⟩

def Layout.read (layout : Layout) (body : List UInt8) : Except Request.Fault Request :=
  layout.request (.ofBytes body)

end Rulebook
