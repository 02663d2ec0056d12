/-
  Rulebook.Extension.Basic — functions that rules may call besides those of the language.

  An extension has a name, which may be several words, and named parameters. A call with
  another number of arguments fails before the body sees them; a body looks at its
  arguments and answers with a boolean or with what is wrong with them.
-/

import Rulebook.Value
import Rulebook.Json.Form

namespace Rulebook

inductive CallFault where
  | arity (expected actual : Nat)
  | wrongType (name : String) (expected actual : Kind)
  | missing (name : String)
  deriving DecidableEq, Repr

def CallFault.message : CallFault → String
  | .arity expected actual => s!"expected {expected} argument(s), got {actual}"
  | .wrongType name expected actual => s!"'{name}' must be a {expected.name}, got {actual.name}"
  | .missing name => s!"'{name}' is missing"

/-- A function that rules may call by its name. -/
structure Extension where
  name : String
  description : String
  parameters : List String
  body : List Value → Except CallFault Bool

namespace Extension

def arity (extension : Extension) : Nat := extension.parameters.length

/-- The name as one word: an underscore for each space. -/
def identifier (extension : Extension) : String :=
  String.ofList (extension.name.toList.map fun c => if c = ' ' then '_' else c)

def call (extension : Extension) (args : List Value) : Except CallFault Value :=
  if args.length = extension.arity then (extension.body args).map .boolean
  else .error (.arity extension.arity args.length)

def toJson (extension : Extension) : Json :=
  .object [
    ("name", .string extension.name),
    ("description", .string extension.description),
    ("parameters", .list (extension.parameters.map .string))]

end Extension

end Rulebook
