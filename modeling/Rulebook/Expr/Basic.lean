/-
  Rulebook.Expr.Basic — expressions.

  Rules are expressions. Besides literals, names, containers, operators and calls there
  are the forms that go through a container: each gives its items a name, one by one,
  and looks at another expression for each.
-/

import Rulebook.Expr.Datum

namespace Rulebook

/-- An operator between two expressions that looks at both. -/
inductive Operator where
  | add
  | sub
  | mul
  | div
  | rem
  | equal
  | notEqual
  | less
  | lessEqual
  | greater
  | greaterEqual
  | isIn
  deriving DecidableEq, Repr

/-- What becomes of the answers for the items of a container: whether all hold, the first that
    holds, whether exactly one does, the items that hold. -/
inductive Quantifier where
  | all
  | any
  | one
  | those
  deriving DecidableEq, Repr

inductive Expr where
  | literal (datum : Datum)
  | ident (name : String)
  | list (items : List Expr)
  | map (entries : List (Expr × Expr))
  | message
  | member (base : Expr) (field : String)
  | has (base : Expr) (field : String)
  | item (base index : Expr)
  | not (e : Expr)
  | negate (e : Expr)
  | both (a b : Expr)
  | either (a b : Expr)
  | choice (condition a b : Expr)
  | binary (op : Operator) (a b : Expr)
  | call (function : String) (args : List Expr)
  | method (receiver : Expr) (function : String) (args : List Expr)
  | quantify (quantifier : Quantifier) (x : String) (range body : Expr)
  | collect (x : String) (range body : Expr)
  | collectWhere (x : String) (range guard body : Expr)
  deriving Inhabited

end Rulebook
