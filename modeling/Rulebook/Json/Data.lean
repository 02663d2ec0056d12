/-
  Rulebook.Json.Data — JSON data from a text.

  An object whose first name is `rawName` is no object: the name is reserved for JSON text
  that is handed on as it is, as a string. What stands there is the data of that text,
  which is read from the start, so that its depth is counted anew. The string must be all
  that is in the object. Further on in an object, and wherever a value of another shape is
  expected, the name is a name like others.

  The text in a string is shorter than the text around it, so the reading ends
  (`longest_raw_lt`).
-/

import Rulebook.Json.Decode
import Rulebook.Json.Leaf

namespace Rulebook.Json

/-- A number as data; JSON has none for a float that is not finite. -/
def ofNumber : Number → Json
  | .float x => if x.isFinite then .number (.float x) else .null
  | n => .number n

/-! ## Text in a string -/

/-- The name that is reserved for JSON text in a string. -/
def rawName : String := "$serde_json::private::RawValue"

/-- What stands behind the reserved name, if an object starts with it, and the members that follow. -/
def raw? : List Member → Option (Tree × List Member)
  | (.ok name, tree) :: rest => if name = rawName then some (tree, rest) else none
  | _ => none

/-- The end of an object that must have no members behind its first. -/
def rawEnd (rest : List Member) (ending : Option Flaw) : Except Fault Unit :=
  match rest, ending with
  | [], none => .ok ()
  | [], some flaw =>
    if flaw.read = .breaksOff .object then .error flaw.read
    else if flaw.read = .expectedObjectEnd then .error .trailingCharacters
    else .error .trailingComma
  | _ :: _, _ => .error .trailingComma

/-- The strings in the tree of a text in a string are shorter than that string. -/
theorem longest_raw_lt {members rest : List Member} {text : String} (h : raw? members = some (.text text, rest))
    (ending : Option Flaw) : (Document.ofText text).root.longest < (Tree.object members ending).longest := by
  unfold raw? at h
  split at h
  · rename_i name tree more
    split at h
    · obtain ⟨rfl, rfl⟩ := Prod.mk.inj (Option.some.inj h)
      have hinner := longest_ofText text
      rw [Tree.longest, Tree.longestMember, Tree.longest]
      omega
    · cases h
  · cases h

theorem sizeOf_member_lt (member : Member) (rest : List Member) : sizeOf member.2 < sizeOf (member :: rest) := by
  obtain ⟨name, tree⟩ := member
  decreasing_tactic

/-! ## Data -/

mutual
/-- The data of a tree in which at most `depth` lists and objects stand inside each other. -/
def ofTree (depth : Nat) : Tree → Except Fault Json
  | .scalar .null => .ok .null
  | .scalar (.boolean b) => .ok (.boolean b)
  | .scalar (.number n) => .ok (ofNumber n)
  | .text s => .ok (.string s)
  | .flawed flaw => .error flaw.read
  | .list items ending =>
    if depth = 0 then .error .tooDeep
    else do
      let items ← ofTrees (depth - 1) items
      ended ending
      return .list items
  | .object members ending =>
    if depth = 0 then .error .tooDeep
    else
      match _h : raw? members with
      | some (.text text, rest) => do
        let json ← ofTree maxDepth (Document.ofText text).root
        if let some fault := (Document.ofText text).ending then throw fault
        rawEnd rest ending
        return json
      | some (tree, _) => tree.mismatch "raw value"
      | none => do
        let members ← ofMembers (depth - 1) members
        ended ending
        return .object (Entries.ofList members)
termination_by tree => (tree.longest, sizeOf tree)
decreasing_by
  · decreasing_tactic
  · exact Prod.Lex.left _ _ (longest_raw_lt _h ending)
  · decreasing_tactic
def ofTrees (depth : Nat) : List Tree → Except Fault (List Json)
  | [] => .ok []
  | item :: rest => do
    let item ← ofTree depth item
    let rest ← ofTrees depth rest
    return item :: rest
termination_by items => (Tree.longestItem items, sizeOf items)
decreasing_by
  · exact Prod.Lex.right' _ (Nat.le_max_left ..) (by decreasing_tactic)
  · exact Prod.Lex.right' _ (Nat.le_max_right ..) (by decreasing_tactic)
def ofMembers (depth : Nat) : List Member → Except Fault (List (String × Json))
  | [] => .ok []
  | member :: rest => do
    let name ← Name.read member.1
    let value ← ofTree depth member.2
    let rest ← ofMembers depth rest
    return (name, value) :: rest
termination_by members => (Tree.longestMember members, sizeOf members)
decreasing_by
  · exact Prod.Lex.right' _ (Nat.le_max_left ..) (sizeOf_member_lt member rest)
  · exact Prod.Lex.right' _ (Nat.le_max_right ..) (by decreasing_tactic)
end

def ofDocument (depth : Nat) (document : Document) : Except Fault Json := document.decode (ofTree depth)

def ofText (text : String) : Except Fault Json := ofDocument maxDepth (Document.ofText text)

end Rulebook.Json
