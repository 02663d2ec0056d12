/-
  Rulebook.Extension.Verification — the extensions that every registry starts from.

  They check the change, the proofs and the report of a request. The proof checks
  compare against fixed texts: `acceptedType` with `acceptedValue`, the two points of
  `acceptedPoint`, or `acceptedPresentation`. Arguments of the wrong shape are faults
  that name the place, and the places are looked at in a fixed order, each only when the
  ones before it leave the answer open.
-/

import Rulebook.Extension.Registry

namespace Rulebook.Verification

def acceptedType : String := "test"

def acceptedValue : String := "validProofForTesting"

/-- The point of a proof that is accepted by its scheme. -/
def acceptedPoint : List String := [
  "0x274b3599e54e0e5fb9d76ccaca94d428030910961c7c5085b00041ac231ba64a",
  "0x2dafc3fb00b51507b84d3cfbe4a318a9d6f44435b2625d26eb1f68af4696f646"]

def acceptedPresentation : String :=
  "zqpLMweBrSxMY2xHX5XTYV8nQAJeV6doDwLWxQeVbY4oey5q2pmEcqaqA3Q1gVHMrXFkXM3XKaxup3tmzN4DRFTLV"

def reportFields : List String :=
  ["id", "legalBasis", "inspectionDate", "inspectionBody", "inspectionResult", "pdf"]

/-- The entries of a value that must be a mapping. -/
def mapping (name : String) (value : Value) : Except CallFault (List (String × Value)) :=
  match value.mapping? with
  | some entries => .ok entries
  | none => .error (.wrongType name .mapping value.kind)

def sequence (name : String) (value : Value) : Except CallFault (List Value) :=
  match value.sequence? with
  | some items => .ok items
  | none => .error (.wrongType name .sequence value.kind)

def string (name : String) (value : Value) : Except CallFault String :=
  match value.string? with
  | some text => .ok text
  | none => .error (.wrongType name .string value.kind)

def single : List Value → Except CallFault Value
  | [value] => .ok value
  | args => .error (.arity 1 args.length)

/-- The texts of items that must all be strings; `index` is the place of the first. -/
def strings (name : String) (index : Nat) : List Value → Except CallFault (List String)
  | [] => .ok []
  | item :: rest => do
    let text ← string s!"{name}[{index}]" item
    let rest ← strings name (index + 1) rest
    return text :: rest

/-- Whether every name of an object except `id` is listed as allowed. -/
def hasAllowedChanges : List Value → Except CallFault Bool
  | [object, allowed] => do
    let entries ← mapping "context" object
    let items ← sequence "allowedKeys" allowed
    let keys ← strings "allowedKeys" 0 items
    return entries.all fun entry => entry.1 == "id" || keys.contains entry.1
  | args => .error (.arity 2 args.length)

/-- Whether the items equal the expected texts one by one, up to the first that does not;
    `index` is the place of the first. -/
def samePoint (index : Nat) : List Value → List String → Except CallFault Bool
  | item :: items, text :: texts => do
    if (← string s!"proof.proof.a[{index}]" item) == text then samePoint (index + 1) items texts else return false
  | _, _ => .ok true

def isPointAccepted (inner : Value) : Except CallFault Bool := do
  let inner ← mapping "proof.proof" inner
  match Entries.get? inner "a" with
  | none => .error (.missing "proof.proof.a")
  | some point =>
    let items ← sequence "proof.proof.a" point
    if items.length = acceptedPoint.length then samePoint 0 items acceptedPoint else return false

/-- Whether a proof is accepted: by type and value if it has both, else by its scheme if it has one. -/
def isProofValid (args : List Value) : Except CallFault Bool := do
  let proof ← mapping "proof" (← single args)
  match Entries.get? proof "type", Entries.get? proof "value" with
  | some type, some value =>
    if (← string "type" type) == acceptedType then
      return (← string "value" value) == acceptedValue
    else return false
  | _, _ =>
    match Entries.contains proof "scheme" && Entries.contains proof "curve", Entries.get? proof "proof" with
    | true, some inner => isPointAccepted inner
    | _, _ => return false

def isReportValid (args : List Value) : Except CallFault Bool := do
  let report ← mapping "report" (← single args)
  return reportFields.all (Entries.contains report)

/-- Whether a presentation has no proof, or one with the accepted value. -/
def isPresentationValid (args : List Value) : Except CallFault Bool := do
  let presentation ← mapping "vp" (← single args)
  match Entries.get? presentation "proof" with
  | none => return true
  | some proof =>
    let proof ← mapping "vp.proof" proof
    match Entries.get? proof "proofValue" with
    | none => .error (.missing "vp.proof.proofValue")
    | some value => return (← string "vp.proof.proofValue" value) == acceptedPresentation

def extensions : List Extension := [
  ⟨"has allowed changes", "True if every key of the object other than 'id' is listed in allowedKeys",
    ["context", "allowedKeys"], hasAllowedChanges⟩,
  ⟨"is proof valid", "True if the proof object carries an accepted proof", ["proof"], isProofValid⟩,
  ⟨"is report valid", "True if the report object has all required inspection report fields", ["report"],
    isReportValid⟩,
  ⟨"is vp valid", "True if the verifiable presentation has no proof or an accepted proof value", ["vp"],
    isPresentationValid⟩]

end Rulebook.Verification

namespace Rulebook

def Registry.builtin : Registry := .ofList Verification.extensions

end Rulebook
