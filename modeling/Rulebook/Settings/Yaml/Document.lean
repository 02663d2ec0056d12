/-
  Rulebook.Settings.Yaml.Document — YAML text as data.

  A mapping is written in braces or as lines of names with values, all in one column. The
  value of a name stands behind its colon or, further to the right than the name, on the
  lines below; if there is neither, it is nothing. A scalar without characters is nothing
  too. A plain scalar is a number if it is written as one: in decimal without zeros in
  front, or in base 16, 8 or 2 behind `0x`, `0o` or `0b`, after at most one plus.

  A text holds one document, which may start with `---` and end with `...`.

  Every step spends one unit of fuel. None needs more than a few steps for a token, so
  the fuel that `read?` starts with never runs out.
-/

import Rulebook.Settings.Node
import Rulebook.Settings.Yaml.Token

namespace Rulebook.Settings.Yaml

/-! ## Scalars -/

def numberIn? (base : Nat) (digits : List Char) : Option Nat :=
  if digits = [] ∨ ¬ digits.all (Text.isDigitIn base) ∨ Text.wordMax < Text.valueIn base digits then none
  else some (Text.valueIn base digits)

def number? (text : List Char) : Option Nat :=
  let digits := match text with
    | '+' :: rest => rest
    | _ => text
  match digits with
  | '0' :: 'x' :: rest => numberIn? 16 rest
  | '0' :: 'o' :: rest => numberIn? 8 rest
  | '0' :: 'b' :: rest => numberIn? 2 rest
  | '0' :: _ :: _ => none
  | _ => numberIn? 10 digits

def Token.scalar? (token : Token) : Option String :=
  match token.kind with
  | .plain text => some (String.ofList text)
  | .quoted text => some (String.ofList text)
  | _ => none

def Token.node? (token : Token) : Option Node :=
  match token.kind with
  | .plain text =>
    match number? text with
    | some n => some (.size n)
    | none => some (.text (String.ofList text))
  | .quoted [] => some .nothing
  | .quoted text => some (.text (String.ofList text))
  | _ => none

def Token.isMarker (token : Token) : Bool := token.kind == .start || token.kind == .stop

/-- What follows the colon behind a name, if there is one on its line. -/
def afterColon? (name : Token) : List Token → Option (List Token)
  | token :: rest => if token.kind = .colon ∧ token.line = name.line then some rest else none
  | [] => none

/-! ## Mappings -/

mutual
/-- The value at the front of tokens, and what follows it; one in line with what is before it is
    no mapping of lines. -/
def value? : Nat → Bool → List Token → Option (Node × List Token)
  | 0, _, _ => none
  | _, _, [] => none
  | n + 1, inline, token :: rest =>
    if token.kind = .opening then (braced? n rest).map fun found => (.table found.1, found.2)
    else if (afterColon? token rest).isSome then
      if inline then none
      else (members? n token.column (token :: rest)).map fun found => (.table found.1, found.2)
    else token.node?.map fun node => (node, rest)

/-- The entries of a mapping in braces up to its end, and what follows it. -/
def braced? : Nat → List Token → Option (List (String × Node) × List Token)
  | 0, _ => none
  | _, [] => none
  | n + 1, token :: rest =>
    if token.kind = .closing then some ([], rest)
    else do
      let name ← token.scalar?
      let (node, rest) ← bracedValue? n token rest
      match rest with
      | [] => none
      | next :: rest =>
        if next.kind = .comma then
          let (entries, rest) ← braced? n rest
          return ((name, node) :: entries, rest)
        else if next.kind = .closing then return ([(name, node)], rest)
        else none

/-- The value of a name in braces, nothing if there is none, and what follows it. -/
def bracedValue? : Nat → Token → List Token → Option (Node × List Token)
  | 0, _, _ => none
  | n + 1, name, tokens =>
    match afterColon? name tokens with
    | none => some (.nothing, tokens)
    | some [] => none
    | some (next :: rest) =>
      if next.kind = .comma ∨ next.kind = .closing then some (.nothing, next :: rest)
      else value? n true (next :: rest)

/-- The entries of a mapping of lines in a column, and what follows it. -/
def members? : Nat → Nat → List Token → Option (List (String × Node) × List Token)
  | 0, _, _ => none
  | _, _, [] => some ([], [])
  | n + 1, column, token :: rest =>
    if token.isMarker ∨ token.column < column then some ([], token :: rest)
    else if token.column ≠ column then none
    else do
      let name ← token.scalar?
      let (node, rest) ← lineValue? n token (← afterColon? token rest)
      let (entries, rest) ← members? n column rest
      return ((name, node) :: entries, rest)

/-- The value of the name of a line, nothing if there is none, and what follows it. -/
def lineValue? : Nat → Token → List Token → Option (Node × List Token)
  | 0, _, _ => none
  | _, _, [] => some (.nothing, [])
  | n + 1, name, token :: rest =>
    if token.isMarker ∨ (token.line ≠ name.line ∧ token.column ≤ name.column) then some (.nothing, token :: rest)
    else value? n (token.line = name.line) (token :: rest)
end

/-! ## Documents -/

/-- The tokens of a document behind the mark at its start, and whether they go on in its line. -/
def afterStart : List Token → Bool × List Token
  | [] => (false, [])
  | token :: rest =>
    if token.kind = .start then (rest.head?.any fun next => next.line == token.line, rest) else (false, token :: rest)

def read? (text : List Char) : Option Node := do
  let tokens ← tokens? text
  let (inline, body) := afterStart tokens
  let (node, rest) ←
    if body.all (·.kind = .stop) then some (.nothing, body) else value? (2 * tokens.length + 2) inline body
  if rest.all (·.kind = .stop) then some node else none

end Rulebook.Settings.Yaml
