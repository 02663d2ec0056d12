/-
  Rulebook.Expr.Eval — evaluating expressions.

  A scope gives names their data and functions their meaning; the two do not mix.
  Operands are evaluated from the left, and `&&`, `||` and the choice only evaluate what
  they need. `a || b` is `a` if that counts as true, else `b`; `a && b` is a boolean.
  What goes through a container goes through the items of a list or the keys of a map,
  these in the order that the scope has for the map, and `all` and `exists` stop when the
  answer is known.

  A call with one or two arguments evaluates the first of them before it looks at
  anything else; then come the function, the receiver and the other arguments.
-/

import Rulebook.Expr.Function

namespace Rulebook.Expr

/-- What the names of an expression stand for, and how the maps that it makes are arranged. -/
structure Scope where
  data : String → Option Datum
  functions : String → Option (Call → Except Fault Datum)
  arrangement : Arrangement

def Scope.bind (scope : Scope) (name : String) (datum : Datum) : Scope :=
  { scope with data := fun other => if other = name then some datum else scope.data other }

/-- The items that a form goes through: those of a list, or the keys of a map. -/
def through : Datum → Except Fault (List Datum)
  | .list items => .ok items
  | .map entries =>
    .ok (entries.map fun entry =>
      match entry.1 with
      | .int n => .int n
      | .uint n => .uint n
      | .boolean b => .boolean b
      | .string text => .string text)
  | _ => .error .crash

/-- Whether an answer counts as true for all items, up to the first for which it does not. -/
def allHold (answer : Datum → Except Fault Datum) : List Datum → Except Fault Bool
  | [] => .ok true
  | datum :: rest => do
    if (← answer datum).truth then allHold answer rest else return false

/-- The first answer that counts as true, or the last one; `none` is the answer before all items. -/
def firstHolding (answer : Datum → Except Fault Datum) (none : Datum) : List Datum → Except Fault Datum
  | [] => .ok none
  | datum :: rest => do
    let result ← answer datum
    if result.truth then return result else firstHolding answer result rest

def holding (answer : Datum → Except Fault Datum) : List Datum → Except Fault (List Datum)
  | [] => .ok []
  | datum :: rest => do
    let holds := (← answer datum).truth
    let kept ← holding answer rest
    return if holds then datum :: kept else kept

/-- The answers for the items for which a guard counts as true. -/
def answersWhere (guard answer : Datum → Except Fault Datum) : List Datum → Except Fault (List Datum)
  | [] => .ok []
  | datum :: rest => do
    if (← guard datum).truth then
      let result ← answer datum
      let more ← answersWhere guard answer rest
      return result :: more
    else answersWhere guard answer rest

def quantified (quantifier : Quantifier) (answer : Datum → Except Fault Datum) (items : List Datum) :
    Except Fault Datum :=
  match quantifier with
  | .all => (allHold answer items).map .boolean
  | .any => firstHolding answer (.boolean false) items
  | .one => (holding answer items).map fun kept => .boolean (kept.length == 1)
  | .those => (holding answer items).map .list

/-- A member of a datum: an entry of a map, else a function of that name. -/
def memberOf (scope : Scope) (base : Datum) (field : String) : Except Fault Datum :=
  let entry := match base with
    | .map entries => Datum.get? entries (.string field)
    | _ => none
  match entry, scope.functions field with
  | some datum, _ => .ok datum
  | none, some _ => .ok (.function field base)
  | none, none => .error (.noSuchKey field)

/-- The fault that a call has before its function is looked up. -/
def earlyFault (args : List Arg) : Except Fault Unit :=
  match args with
  | [.error fault] => .error fault
  | [.error fault, _] => .error fault
  | _ => .ok ()

def functionOf (scope : Scope) (name : String) : Except Fault (Call → Except Fault Datum) :=
  match scope.functions name with
  | some function => .ok function
  | none => .error (.undeclared name)

mutual
def eval : Expr → Scope → Except Fault Datum
  | .literal datum, _ => .ok datum
  | .ident name, scope =>
    match scope.data name with
    | some datum => .ok datum
    | none => .error (.undeclared name)
  | .list items, scope => (evalItems items scope).map .list
  | .map entries, scope => (evalEntries entries [] scope).map fun entries => .map (scope.arrangement.of entries)
  | .message, _ => .error .crash
  | .member base field, scope => do memberOf scope (← eval base scope) field
  | .has base field, scope => do return .boolean (Datum.hasMember (← eval base scope) field)
  | .item base index, scope => do
    let base ← eval base scope
    let index ← eval index scope
    Datum.item base index
  | .not e, scope => do return .boolean !(← eval e scope).truth
  | .negate e, scope => do Datum.negate (← eval e scope)
  | .both a b, scope => do
    if (← eval a scope).truth then return .boolean (← eval b scope).truth else return .boolean false
  | .either a b, scope => do
    let left ← eval a scope
    if left.truth then return left else eval b scope
  | .choice condition a b, scope => do
    if (← eval condition scope).truth then eval a scope else eval b scope
  | .binary op a b, scope => do
    let left ← eval a scope
    let right ← eval b scope
    Datum.operate op left right
  | .call name args, scope => do
    let args := evalArgs args scope
    earlyFault args
    let function ← functionOf scope name
    function ⟨name, none, args⟩
  | .method receiver name args, scope => do
    let args := evalArgs args scope
    earlyFault args
    let function ← functionOf scope name
    let receiver ← eval receiver scope
    function ⟨name, some receiver, args⟩
  | .quantify quantifier x range body, scope => do
    let items ← through (← eval range scope)
    quantified quantifier (fun datum => eval body (scope.bind x datum)) items
  | .collect x range body, scope => do
    let items ← through (← eval range scope)
    return .list (← items.mapM fun datum => eval body (scope.bind x datum))
  | .collectWhere x range guard body, scope => do
    let items ← through (← eval range scope)
    return .list (← answersWhere (fun datum => eval guard (scope.bind x datum))
      (fun datum => eval body (scope.bind x datum)) items)
def evalItems : List Expr → Scope → Except Fault (List Datum)
  | [], _ => .ok []
  | e :: rest, scope => do
    let datum ← eval e scope
    let rest ← evalItems rest scope
    return datum :: rest
def evalArgs : List Expr → Scope → List Arg
  | [], _ => []
  | e :: rest, scope => eval e scope :: evalArgs rest scope
/-- The entries `done` and those of a map, each key before its datum. -/
def evalEntries : List (Expr × Expr) → List (Key × Datum) → Scope → Except Fault (List (Key × Datum))
  | [], done, _ => .ok done
  | entry :: rest, done, scope => do
    let key ← eval entry.1 scope
    match key.key? with
    | none => throw (.badKey key)
    | some key =>
      let datum ← eval entry.2 scope
      evalEntries rest (Datum.put done key datum) scope
end

end Rulebook.Expr
