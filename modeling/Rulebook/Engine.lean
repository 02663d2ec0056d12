/-
  Rulebook.Engine — what answers to a rule.

  An engine opens a session for each batch: it binds the extensions, the context and the
  clock, and the session then answers to the text of one rule after the other. The
  answer to a rule is a value or a failure, and depends on nothing else.

  The engine of a dialect rewrites rules of the friendly dialect, reads them as expressions
  and evaluates them. A name stands for the datum of the context, but `now` always for
  the clock. An extension is called by its identifier and hides a function of the
  language of that name; it is given all arguments but not the receiver.

  The order of a map can be seen in answers, by rules that go through its keys. Engines
  differ in it: all that is common to them is stated for `Engine.arranging` with any
  arrangement, and the standard engine is the one that goes through maps as they were set.
-/

import Rulebook.Context
import Rulebook.Dialect
import Rulebook.Expr.Eval
import Rulebook.Expr.Parse
import Rulebook.Feel.Rewrite

namespace Rulebook

open Rulebook.Time (Timestamp)

inductive Failure where
  | notRewritten (fault : Feel.Fault)
  | notRead (rule : String)
  | notEvaluated (rule : String) (fault : Expr.Fault)
  | noData (datum : Datum)
  | other (message : String)

def noDataMessage (datum : Datum) : String := s!"value cannot be used as data: {datum.shown}"

def Failure.message : Failure → String
  | .notRewritten fault => fault.message
  | .notRead rule => Expr.Fault.crash.message rule
  | .notEvaluated rule fault => fault.message rule
  | .noData datum => noDataMessage datum
  | .other message => message

/-- The answers to the rules of a batch. -/
abbrev Session := String → Except Failure Value

structure Engine where
  session : Registry → Context → Timestamp → Session

/-! ## Scopes -/

/-- The values of arguments, or the part of one that is no data. -/
def valuesOf (args : List Datum) : Except Datum (List Value) := args.mapM Datum.toValue

def Extension.function (extension : Extension) (call : Expr.Call) : Except Expr.Fault Datum := do
  let args ← call.args.mapM id
  match valuesOf args with
  | .error datum => throw (.execution extension.name (noDataMessage datum))
  | .ok args =>
    match extension.call args with
    | .ok value => return Datum.ofValue value
    | .error fault => throw (.execution extension.name fault.message)

/-- The function of a name: the last extension with that identifier, else one of the language. -/
def Registry.function? (registry : Registry) (name : String) : Option (Expr.Call → Except Expr.Fault Datum) :=
  match registry.toList.reverse.find? fun extension => extension.identifier == name with
  | some extension => some extension.function
  | none => (Expr.functions.find? fun function => function.1 == name).map Prod.snd

def clockName : String := "now"

def Expr.Scope.ofBatch (arrangement : Arrangement) (registry : Registry) (context : Context) (clock : Timestamp) :
    Expr.Scope where
  data name :=
    if name = clockName then some (.timestamp clock)
    else (context.get? name).map fun value => (Datum.ofValue value).arranged arrangement
  functions := registry.function?
  arrangement := arrangement

/-! ## The engine of a dialect -/

/-- The text that the engine reads for a rule. -/
def Dialect.source (dialect : Dialect) (registry : Registry) (rule : String) : Except Failure String :=
  match dialect with
  | .feel =>
    match Feel.translate registry rule with
    | .ok text => .ok text
    | .error fault => .error (.notRewritten fault)
  | .cel => .ok rule

/-- The value of a rule whose text for the engine is `source`. -/
def answer (scope : Expr.Scope) (rule source : String) : Except Failure Value :=
  match Expr.parse? source.toList with
  | none => .error (.notRead rule)
  | some e =>
    match e.eval scope with
    | .error fault => .error (.notEvaluated rule fault)
    | .ok datum =>
      match datum.toValue with
      | .error part => .error (.noData part)
      | .ok value => .ok value

/-- The engine of a dialect that has maps in the order of an arrangement. -/
def Engine.arranging (arrangement : Arrangement) (dialect : Dialect) : Engine where
  session registry context clock :=
    let scope := Expr.Scope.ofBatch arrangement registry context clock
    fun rule => do
      let source ← dialect.source registry rule
      answer scope rule source

/-- The engine of a dialect that has maps in the order in which their entries were set. -/
def Engine.standard (dialect : Dialect) : Engine := .arranging .asSet dialect

/-- Contexts that agree on every name but the clock's give the same scope. -/
theorem Expr.Scope.ofBatch_congr (arrangement : Arrangement) (registry : Registry) {a b : Context} (clock : Timestamp)
    (h : ∀ name, name ≠ clockName → a.get? name = b.get? name) :
    Expr.Scope.ofBatch arrangement registry a clock = Expr.Scope.ofBatch arrangement registry b clock := by
  unfold Expr.Scope.ofBatch
  congr 1
  funext name
  split
  · rfl
  · rename_i hn
    rw [h name hn]

end Rulebook
