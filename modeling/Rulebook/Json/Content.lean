/-
  Rulebook.Json.Content — data that is gathered before its shape is known.

  Where any data may stand, all that a text holds there is gathered first and fitted to a
  shape afterwards. What is gathered is whole: a flaw anywhere in it is a fault, and so
  are lists and objects too deep inside each other. Integers are kept as they are
  written, with a minus or without, and an object keeps all its members in order, those
  of one name too.

  A value is fitted by trying its shapes one after the other, and for a number its kinds:
  null, a boolean, a signed integer, an unsigned one, a float, a string, a sequence, a
  mapping. The first that fits is taken.
-/

import Rulebook.Json.Decode

namespace Rulebook.Json

/-- What a text holds where any data may stand. -/
inductive Content where
  | null
  | boolean (b : Bool)
  | unsigned (n : UInt64)
  | negative (n : Int64)
  | float (x : Float)
  | text (s : String)
  | list (items : List Content)
  | object (members : List (String × Content))

namespace Content

/-! ## Gathering -/

def ofNumber : Number → Content
  | .int n => if n.toInt < 0 then .negative n else .unsigned (UInt64.ofNat n.toInt.toNat)
  | .uint n => .unsigned n
  | .float x => .float x

mutual
/-- What a tree holds in which at most `depth` lists and objects stand inside each other. -/
def ofTree (depth : Nat) : Tree → Except Fault Content
  | .scalar .null => .ok .null
  | .scalar (.boolean b) => .ok (.boolean b)
  | .scalar (.number n) => .ok (ofNumber n)
  | .text s => .ok (.text s)
  | .flawed flaw => .error flaw.read
  | .list items ending =>
    if depth = 0 then .error .tooDeep
    else do
      let items ← ofTrees (depth - 1) items
      ended ending
      return .list items
  | .object members ending =>
    if depth = 0 then .error .tooDeep
    else do
      let members ← ofMembers (depth - 1) members
      ended ending
      return .object members
def ofTrees (depth : Nat) : List Tree → Except Fault (List Content)
  | [] => .ok []
  | item :: rest => do
    let item ← ofTree depth item
    let rest ← ofTrees depth rest
    return item :: rest
def ofMembers (depth : Nat) : List (Except Flaw String × Tree) → Except Fault (List (String × Content))
  | [] => .ok []
  | member :: rest => do
    let name ← Name.read member.1
    let value ← ofTree depth member.2
    let rest ← ofMembers depth rest
    return (name, value) :: rest
end

def ofDocument (depth : Nat) (document : Document) : Except Fault Content := document.decode (ofTree depth)

/-! ## Fitting to a shape without parts -/

def null? : Content → Option Unit
  | .null => some ()
  | _ => none

def boolean? : Content → Option Bool
  | .boolean b => some b
  | _ => none

def int64? : Content → Option Int64
  | .unsigned n => if n.toNat ≤ 9223372036854775807 then some (Int64.ofNat n.toNat) else none
  | .negative n => some n
  | _ => none

def uint64? : Content → Option UInt64
  | .unsigned n => some n
  | .negative n => if n.toInt < 0 then none else some (UInt64.ofNat n.toInt.toNat)
  | _ => none

/-- A float; an integer is the float nearest to it. -/
def float? : Content → Option Float
  | .unsigned n => some n.toFloat
  | .negative n => some n.toFloat
  | .float x => some x
  | _ => none

/-- A number, of the first kind that fits. -/
def number? (content : Content) : Option Number :=
  content.int64?.map .int <|> content.uint64?.map .uint <|> content.float?.map .float

def text? : Content → Option String
  | .text s => some s
  | _ => none

end Content

end Rulebook.Json

namespace Rulebook.Value

open Rulebook.Json (Content Tree Fault)

mutual
/-- The value of what has been gathered, of the first shape that fits. -/
def ofContent (content : Content) : Option Value :=
  content.null?.map (fun _ => .null) <|>
    content.boolean?.map .boolean <|>
    content.number?.map .number <|>
    content.text?.map .string <|>
    (match content with
    | .list items => (itemsOfContent items).map .sequence
    | _ => none) <|>
    match content with
    | .object members => (entriesOfContent [] members).map .mapping
    | _ => none
def itemsOfContent : List Content → Option (List Value)
  | [] => some []
  | item :: rest => do
    let item ← ofContent item
    let rest ← itemsOfContent rest
    return item :: rest
/-- The entries `done` and those of members; of one name the last counts. -/
def entriesOfContent (done : List (String × Value)) : List (String × Content) → Option (List (String × Value))
  | [] => some done
  | member :: rest => do
    let value ← ofContent member.2
    entriesOfContent (Entries.put done member.1 value) rest
end

def ofTree (depth : Nat) (tree : Tree) : Except Fault Value := do
  let content ← Content.ofTree depth tree
  match ofContent content with
  | some value => .ok value
  | none => .error (.noVariant "RuleValue")

def ofText (text : String) : Except Fault Value := (Json.Document.ofText text).decode (ofTree Json.maxDepth)

end Rulebook.Value
