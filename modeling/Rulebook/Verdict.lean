/-
  Rulebook.Verdict — how the rules of a batch fared.

  A rule passes when it evaluates to true. Everything else is an outcome with a message:
  false, a result that is no boolean, or a failure to evaluate. The report of a batch
  holds one error for each rule that did not pass, with the place of the rule, counted
  from 0, in the order of the rules.
  - `errorsFrom_append`: the errors of a longer batch go on from those of a shorter one.
  - `isEmpty_ofOutcomes`: a report is empty exactly when all rules passed.
-/

import Rulebook.Json.Decode

namespace Rulebook

inductive Outcome where
  | passed
  | failedAssertion
  | wrongResult (kind : Kind)
  | failed (message : String)
  deriving DecidableEq, Repr

namespace Outcome

def ofAnswer : Except String Value → Outcome
  | .ok (.boolean true) => .passed
  | .ok (.boolean false) => .failedAssertion
  | .ok value => .wrongResult value.kind
  | .error message => .failed message

def isPassed : Outcome → Bool
  | .passed => true
  | _ => false

/-- What is reported of a rule that did not pass. -/
def message? : Outcome → Option String
  | .passed => none
  | .failedAssertion => some "Rule evaluated to 'false'"
  | .wrongResult kind => some s!"Result type of rule was {kind.name}, but must be Boolean."
  | .failed message => some message

def summary : Outcome → String
  | .passed => "passed"
  | .failedAssertion => "failed: evaluated to false"
  | .wrongResult kind => s!"failed: result was {kind.name}"
  | .failed message => s!"error: {message}"

end Outcome

/-- A rule that did not pass: its place in the batch, from 0, and what is wrong. -/
structure RuleError where
  index : Nat
  message : String
  deriving DecidableEq, Repr

namespace RuleError

def line (error : RuleError) : String := s!"rule {error.index}: {error.message}"

def toJson (error : RuleError) : Json :=
  .object [("index", .number (.uint (UInt64.ofNat error.index))), ("message", .string error.message)]

def record : Json.Record := ⟨"EvaluationError", [⟨"index", none, true⟩, ⟨"message", none, true⟩], false⟩

inductive Part where
  | index (n : Nat)
  | message (text : String)

def takePart (name : String) (tree : Json.Tree) : Except Json.Fault Part :=
  if name = "index" then tree.size.map .index else tree.string.map .message

def ofTree (tree : Json.Tree) : Except Json.Fault RuleError := do
  let parts ← tree.record record takePart
  match parts.findSome? (fun p => match p.2 with | .index n => some n | _ => none),
      parts.findSome? (fun p => match p.2 with | .message text => some text | _ => none) with
  | none, _ => throw (.missingField "index")
  | _, none => throw (.missingField "message")
  | some index, some message => return ⟨index, message⟩

def ofText (text : String) : Except Json.Fault RuleError := (Json.Document.ofText text).decode ofTree

end RuleError

/-- The errors of a batch, in the order of its rules. -/
structure Report where
  errors : List RuleError
  deriving DecidableEq, Repr

namespace Report

/-- The errors of outcomes of which the first has the place `index`. -/
def errorsFrom (index : Nat) : List Outcome → List RuleError
  | [] => []
  | outcome :: rest =>
    match outcome.message? with
    | none => errorsFrom (index + 1) rest
    | some message => ⟨index, message⟩ :: errorsFrom (index + 1) rest

def ofOutcomes (outcomes : List Outcome) : Report := ⟨errorsFrom 0 outcomes⟩

def isEmpty (report : Report) : Bool := report.errors.isEmpty

def size (report : Report) : Nat := report.errors.length

/-- A report as text: a heading, then a line for each error. -/
def text (report : Report) : String :=
  s!"{report.size} rule(s) failed" ++ String.join (report.errors.map fun error => "\n  " ++ error.line)

def toJson (report : Report) : Json := .list (report.errors.map RuleError.toJson)

theorem errorsFrom_append (index : Nat) (xs ys : List Outcome) :
    errorsFrom index (xs ++ ys) = errorsFrom index xs ++ errorsFrom (index + xs.length) ys := by
  induction xs generalizing index with
  | nil => rfl
  | cons outcome rest ih =>
    simp only [List.cons_append, errorsFrom, List.length_cons]
    rw [ih, Nat.add_assoc, Nat.add_comm 1]
    split <;> rfl

theorem errorsFrom_eq_nil_iff (index : Nat) (outcomes : List Outcome) :
    errorsFrom index outcomes = [] ↔ ∀ outcome ∈ outcomes, outcome = .passed := by
  induction outcomes generalizing index with
  | nil => simp [errorsFrom]
  | cons outcome rest ih =>
    cases outcome <;> simp [errorsFrom, Outcome.message?, ih]

theorem isEmpty_ofOutcomes (outcomes : List Outcome) :
    (ofOutcomes outcomes).isEmpty = true ↔ ∀ outcome ∈ outcomes, outcome = .passed := by
  rw [isEmpty, List.isEmpty_iff]
  exact errorsFrom_eq_nil_iff 0 outcomes

end Report

end Rulebook
