/-
  Rulebook.Expr.Parse — expressions from tokens.

  From the loosest to the tightest: the choice `c ? a : b`, `||`, `&&`, the comparisons
  with `in`, `+` and `-`, `*`, `/` and `%`, the signs `!` and `-`, members, and what is
  in brackets. Operators of one level group from the left. A run of equal signs counts
  as one; a minus before a number belongs to the number.

  Calls of a few names with a fitting number of arguments are forms of their own:
  `has(e.f)`, and `all`, `exists`, `exists_one`, `filter` and `map` of a container. The
  name that they give to items must be a plain name.

  Every step spends one unit of fuel, and no rule needs more steps than some multiple of
  its tokens, so the fuel that `parse?` starts with never runs out.
-/

import Rulebook.Expr.Basic
import Rulebook.Expr.Literal

namespace Rulebook.Expr

abbrev Parsed := Option (Expr × List Token)

/-! ## Forms of their own -/

/-- The form that goes through a container, for the name of its call. -/
def quantifier? (name : String) : Option Quantifier :=
  if name = "all" then some .all
  else if name = "exists" then some .any
  else if name = "exists_one" ∨ name = "existsOne" then some .one
  else if name = "filter" then some .those
  else none

def ofCall (name : String) (args : List Expr) : Option Expr :=
  match args with
  | [arg] =>
    if name = "has" then
      match arg with
      | .member base field => some (.has base field)
      | .has base field => some (.has base field)
      | _ => none
    else some (.call name args)
  | _ => some (.call name args)

def ofMethod (receiver : Expr) (name : String) (args : List Expr) : Option Expr :=
  match quantifier? name, args with
  | some quantifier, [x, body] =>
    match x with
    | .ident x => some (.quantify quantifier x receiver body)
    | _ => none
  | _, [x, body] =>
    if name = "map" then
      match x with
      | .ident x => some (.collect x receiver body)
      | _ => none
    else some (.method receiver name args)
  | _, [x, guard, body] =>
    if name = "map" then
      match x with
      | .ident x => some (.collectWhere x receiver guard body)
      | _ => none
    else some (.method receiver name args)
  | _, _ => some (.method receiver name args)

/-! ## Tokens -/

/-- Whether a name may stand for a variable, a function or a member. -/
def isPlainName (name : String) : Bool := name != "in" && name != "true" && name != "false" && name != "null"

def comparison? : Token → Option Operator
  | .mark "<" => some .less
  | .mark "<=" => some .lessEqual
  | .mark ">" => some .greater
  | .mark ">=" => some .greaterEqual
  | .mark "==" => some .equal
  | .mark "!=" => some .notEqual
  | .name "in" => some .isIn
  | _ => none

def sum? : Token → Option Operator
  | .mark "+" => some .add
  | .mark "-" => some .sub
  | _ => none

def product? : Token → Option Operator
  | .mark "*" => some .mul
  | .mark "/" => some .div
  | .mark "%" => some .rem
  | _ => none

def literal? : Token → Option Expr
  | .int text => (intOf? text).map fun n => .literal (.int n)
  | .uint text => (uintOf? text).map fun n => .literal (.uint n)
  | .float text => (floatOf? text).map fun x => .literal (.float x)
  | .string text => (textOf? text).map fun s => .literal (.string (String.ofList s))
  | .bytes text => (bytesOf? text).map fun b => .literal (.bytes b)
  | .name "true" => some (.literal (.boolean true))
  | .name "false" => some (.literal (.boolean false))
  | .name "null" => some (.literal .null)
  | _ => none

/-- The literal of a number after a minus. -/
def negative? : Token → Option Expr
  | .int text => (intOf? ('-' :: text)).map fun n => .literal (.int n)
  | .float text => (floatOf? ('-' :: text)).map fun x => .literal (.float x)
  | _ => none

/-- Whether a token is a number that takes a minus before it. -/
def takesMinus : Token → Bool
  | .int _ => true
  | .float _ => true
  | _ => false

/-- What follows names with dots between them and an opening brace, if they stand at the front. -/
def afterMessageName? : List Token → Option (List Token)
  | .name name :: rest =>
    if isPlainName name then
      match rest with
      | .mark "." :: more => afterMessageName? more
      | .mark "\x7b" :: more => some more
      | _ => none
    else none
  | _ => none

/-! ## Levels -/

mutual
def parseExpr : Nat → List Token → Parsed
  | 0, _ => none
  | n + 1, tokens => do
    let (condition, rest) ← parseEither n tokens
    match rest with
    | .mark "?" :: rest =>
      let (a, rest) ← parseEither n rest
      match rest with
      | .mark ":" :: rest =>
        let (b, rest) ← parseExpr n rest
        return (.choice condition a b, rest)
      | _ => none
    | _ => return (condition, rest)

def parseEither : Nat → List Token → Parsed
  | 0, _ => none
  | n + 1, tokens => do
    let (a, rest) ← parseBoth n tokens
    moreEither n a rest

def moreEither : Nat → Expr → List Token → Parsed
  | 0, _, _ => none
  | n + 1, a, tokens =>
    match tokens with
    | .mark "||" :: rest => do
      let (b, rest) ← parseBoth n rest
      moreEither n (.either a b) rest
    | _ => some (a, tokens)

def parseBoth : Nat → List Token → Parsed
  | 0, _ => none
  | n + 1, tokens => do
    let (a, rest) ← parseComparison n tokens
    moreBoth n a rest

def moreBoth : Nat → Expr → List Token → Parsed
  | 0, _, _ => none
  | n + 1, a, tokens =>
    match tokens with
    | .mark "&&" :: rest => do
      let (b, rest) ← parseComparison n rest
      moreBoth n (.both a b) rest
    | _ => some (a, tokens)

def parseComparison : Nat → List Token → Parsed
  | 0, _ => none
  | n + 1, tokens => do
    let (a, rest) ← parseSum n tokens
    moreComparison n a rest

def moreComparison : Nat → Expr → List Token → Parsed
  | 0, _, _ => none
  | _ + 1, a, [] => some (a, [])
  | n + 1, a, token :: rest =>
    match comparison? token with
    | some op => do
      let (b, rest) ← parseSum n rest
      moreComparison n (.binary op a b) rest
    | none => some (a, token :: rest)

def parseSum : Nat → List Token → Parsed
  | 0, _ => none
  | n + 1, tokens => do
    let (a, rest) ← parseProduct n tokens
    moreSum n a rest

def moreSum : Nat → Expr → List Token → Parsed
  | 0, _, _ => none
  | _ + 1, a, [] => some (a, [])
  | n + 1, a, token :: rest =>
    match sum? token with
    | some op => do
      let (b, rest) ← parseProduct n rest
      moreSum n (.binary op a b) rest
    | none => some (a, token :: rest)

def parseProduct : Nat → List Token → Parsed
  | 0, _ => none
  | n + 1, tokens => do
    let (a, rest) ← parseSigned n tokens
    moreProduct n a rest

def moreProduct : Nat → Expr → List Token → Parsed
  | 0, _, _ => none
  | _ + 1, a, [] => some (a, [])
  | n + 1, a, token :: rest =>
    match product? token with
    | some op => do
      let (b, rest) ← parseSigned n rest
      moreProduct n (.binary op a b) rest
    | none => some (a, token :: rest)

def parseSigned : Nat → List Token → Parsed
  | 0, _ => none
  | n + 1, tokens =>
    match tokens with
    | .mark "!" :: rest => do
      let (e, rest) ← parseMember n (rest.dropWhile (· == .mark "!"))
      return (.not e, rest)
    | .mark "-" :: rest =>
      if rest.head?.any takesMinus then parseMember n tokens
      else do
        let (e, rest) ← parseMember n (rest.dropWhile (· == .mark "-"))
        return (.negate e, rest)
    | _ => parseMember n tokens

def parseMember : Nat → List Token → Parsed
  | 0, _ => none
  | n + 1, tokens => do
    let (e, rest) ← parseSimple n tokens
    moreMember n e rest

def moreMember : Nat → Expr → List Token → Parsed
  | 0, _, _ => none
  | n + 1, e, tokens =>
    match tokens with
    | .mark "." :: .name name :: .mark "(" :: rest =>
      if isPlainName name then do
        let (args, rest) ← parseArgs n rest
        moreMember n (← ofMethod e name args) rest
      else none
    | .mark "." :: .name name :: rest =>
      if isPlainName name then moreMember n (.member e name) rest else none
    | .mark "." :: .quotedName name :: rest => moreMember n (.member e name) rest
    | .mark "." :: _ => none
    | .mark "[" :: rest => do
      let (index, rest) ← parseExpr n rest
      match rest with
      | .mark "]" :: rest => moreMember n (.item e index) rest
      | _ => none
    | _ => some (e, tokens)

def parseSimple : Nat → List Token → Parsed
  | 0, _ => none
  | n + 1, tokens =>
    match tokens with
    | [] => none
    | .mark "(" :: rest => do
      let (e, rest) ← parseExpr n rest
      match rest with
      | .mark ")" :: rest => return (e, rest)
      | _ => none
    | .mark "[" :: rest => do
      let (items, rest) ← parseItems n [] rest
      return (.list items, rest)
    | .mark "\x7b" :: rest => do
      let (entries, rest) ← parseEntries n [] rest
      return (.map entries, rest)
    | .mark "-" :: number :: rest => (negative? number).map fun e => (e, rest)
    | .mark "." :: rest => parseNamed n "." rest
    | token :: rest =>
      match literal? token with
      | some e => some (e, rest)
      | none => parseNamed n "" tokens

/-- A name, a call or a message; a function keeps the dot before its name, a name does not. -/
def parseNamed : Nat → String → List Token → Parsed
  | 0, _, _ => none
  | n + 1, dot, tokens =>
    match afterMessageName? tokens with
    | some rest => do
      let rest ← parseFields n true rest
      return (.message, rest)
    | none =>
      match tokens with
      | .name name :: .mark "(" :: rest =>
        if isPlainName name then do
          let (args, rest) ← parseArgs n rest
          return (← ofCall (dot ++ name) args, rest)
        else none
      | .name name :: rest => if isPlainName name then some (.ident name, rest) else none
      | _ => none

def parseArgs : Nat → List Token → Option (List Expr × List Token)
  | 0, _ => none
  | n + 1, tokens =>
    match tokens with
    | .mark ")" :: rest => some ([], rest)
    | _ => do
      let (e, rest) ← parseExpr n tokens
      moreArgs n [e] rest

/-- The arguments of a call after those of `done`, which are in reverse. -/
def moreArgs : Nat → List Expr → List Token → Option (List Expr × List Token)
  | 0, _, _ => none
  | n + 1, done, tokens =>
    match tokens with
    | .mark ")" :: rest => some (done.reverse, rest)
    | .mark "," :: rest => do
      let (e, rest) ← parseExpr n rest
      moreArgs n (e :: done) rest
    | _ => none

/-- The items of a list after those of `done`, which are in reverse, up to its end. -/
def parseItems : Nat → List Expr → List Token → Option (List Expr × List Token)
  | 0, _, _ => none
  | n + 1, done, tokens =>
    match tokens with
    | .mark "]" :: rest => some (done.reverse, rest)
    | .mark "," :: .mark "]" :: rest => if done.isEmpty then some ([], rest) else none
    | _ => do
      let (e, rest) ← parseExpr n tokens
      match rest with
      | .mark "," :: rest => parseItems n (e :: done) rest
      | .mark "]" :: rest => return ((e :: done).reverse, rest)
      | _ => none

/-- The entries of a map after those of `done`, which are in reverse, up to its end. -/
def parseEntries : Nat → List (Expr × Expr) → List Token → Option (List (Expr × Expr) × List Token)
  | 0, _, _ => none
  | n + 1, done, tokens =>
    match tokens with
    | .mark "\x7d" :: rest => some (done.reverse, rest)
    | .mark "," :: .mark "\x7d" :: rest => if done.isEmpty then some ([], rest) else none
    | _ => do
      let (key, rest) ← parseExpr n tokens
      match rest with
      | .mark ":" :: rest =>
        let (value, rest) ← parseExpr n rest
        match rest with
        | .mark "," :: rest => parseEntries n ((key, value) :: done) rest
        | .mark "\x7d" :: rest => return (((key, value) :: done).reverse, rest)
        | _ => none
      | _ => none

/-- What follows the fields of a message; `first` if none has been read. -/
def parseFields : Nat → Bool → List Token → Option (List Token)
  | 0, _, _ => none
  | n + 1, first, tokens =>
    match tokens with
    | .mark "\x7d" :: rest => some rest
    | .mark "," :: .mark "\x7d" :: rest => if first then some rest else none
    | field :: .mark ":" :: rest => do
      let isField := match field with
        | .name name => isPlainName name
        | .quotedName _ => true
        | _ => false
      if !isField then none
      let (_, rest) ← parseExpr n rest
      match rest with
      | .mark "," :: rest => parseFields n false rest
      | .mark "\x7d" :: rest => return rest
      | _ => none
    | _ => none
end

def parse? (rule : List Char) : Option Expr := do
  let tokens ← tokens? rule
  match ← parseExpr (20 * (tokens.length + 1)) tokens with
  | (e, []) => some e
  | _ => none

end Rulebook.Expr
