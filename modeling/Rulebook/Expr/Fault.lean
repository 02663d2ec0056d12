/-
  Rulebook.Expr.Fault — why an expression has no datum.

  Most faults name the data that caused them, as diagnostics show data. A crash is what
  the engine cannot even report: it gives up on the rule as a whole.
-/

import Rulebook.Expr.Basic

namespace Rulebook

def Operator.name : Operator → String
  | .add => "add"
  | .sub => "sub"
  | .mul => "mul"
  | .div => "div"
  | .rem => "rem"
  | .equal => "eq"
  | .notEqual => "ne"
  | .less => "lt"
  | .lessEqual => "le"
  | .greater => "gt"
  | .greaterEqual => "ge"
  | .isIn => "in"

namespace Expr

inductive Fault where
  | crash
  | undeclared (name : String)
  | noSuchKey (name : String)
  | noTarget
  | argumentCount (expected actual : Nat)
  | wrongType (got : Datum) (want : String)
  | badKey (datum : Datum)
  | incomparable (a b : Datum)
  | cannotNegate (datum : Datum)
  | unsupported (op : Operator) (a b : Datum)
  | overflow (op : Operator) (a b : Datum)
  | divisionByZero (datum : Datum)
  | remainderByZero (datum : Datum)
  | badMapIndex (index : Datum)
  | badListIndex (index : Datum)
  | badIndex (base index : Datum)
  | execution (function text : String)
  deriving Inhabited

/-- The wording of a fault, for the rule that crashed. -/
def Fault.message (rule : String) : Fault → String
  | .crash => s!"syntax error in '{rule}'"
  | .undeclared name => s!"Undeclared reference to '{name}'"
  | .noSuchKey name => s!"No such key: {name}"
  | .noTarget => "Missing argument or target"
  | .argumentCount expected actual => s!"Invalid argument count: expected {expected}, got {actual}"
  | .wrongType got want => s!"Unexpected type: got '{got.shown}', want '{want}'"
  | .badKey datum => s!"Unable to use value '{datum.shown}' as a key"
  | .incomparable a b => s!"{a.shown} can not be compared to {b.shown}"
  | .cannotNegate datum => s!"Unsupported unary operator 'minus': {datum.shown}"
  | .unsupported op a b => s!"Unsupported binary operator '{op.name}': {a.shown}, {b.shown}"
  | .overflow op a b => s!"Overflow from binary operator '{op.name}': {a.shown}, {b.shown}"
  | .divisionByZero datum => s!"Division by zero of {datum.shown}"
  | .remainderByZero datum => s!"Remainder by zero of {datum.shown}"
  | .badMapIndex index => s!"Cannot use value as map index: {index.shown}"
  | .badListIndex index => s!"Cannot use value as list index: {index.shown}"
  | .badIndex base index => s!"Cannot use value {base.shown} to index {index.shown}"
  | .execution function text => s!"Error executing function '{function}': {text}"

end Expr

end Rulebook
