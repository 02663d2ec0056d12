/-
  Rulebook.Dialect — the languages that rules are written in.
-/

namespace Rulebook

/-- A rule language: the friendly one that is rewritten for the engine, or the engine's own. -/
inductive Dialect where
  | feel
  | cel
  deriving DecidableEq, Repr, Inhabited

namespace Dialect

def name : Dialect → String
  | .feel => "feel"
  | .cel => "cel"

def ofName? (name : String) : Option Dialect :=
  if name = "feel" then some .feel else if name = "cel" then some .cel else none

theorem ofName?_name (dialect : Dialect) : ofName? dialect.name = some dialect := by
  cases dialect <;> rfl

end Dialect

end Rulebook
