/-
  Rulebook.Settings.Toml.Document — TOML text as data.

  A text is a sequence of lines: `[name]` names the table to which the definitions that
  follow belong, `name = value` is a definition, and a name may be several with points
  between them. Lists and tables in braces may go over several lines and end with a
  comma.

  Numbers may have bars between their digits. Lists of tables, `[[name]]`, and dates
  hold no settings and are refused.

  Every step spends one unit of fuel. None needs more than a few steps for a token, so
  the fuel that `read?` starts with never runs out.
-/

import Rulebook.Settings.Toml.Table
import Rulebook.Settings.Toml.Token

namespace Rulebook.Settings.Toml

/-! ## Numbers -/

/-- Digits without the bars between them, if each bar stands between two digits. -/
def withoutBars? : List Char → Option (List Char)
  | [] => none
  | [c] => if c = '_' then none else some [c]
  | c :: d :: rest =>
    if c = '_' then none
    else if d = '_' then
      match rest with
      | [] => none
      | e :: more => if e = '_' then none else (withoutBars? (e :: more)).map (c :: ·)
    else (withoutBars? (d :: rest)).map (c :: ·)

def digits? (base : Nat) (text : List Char) : Option (List Char) :=
  (withoutBars? text).bind fun digits => if digits.all (Text.isDigitIn base) then some digits else none

/-- A number in decimal, without zeros in front. -/
def decimal? (text : List Char) : Option Nat :=
  (digits? 10 text).bind fun digits =>
    if digits.head? = some '0' ∧ digits.length ≠ 1 then none else some (Text.valueIn 10 digits)

/-- A text after its sign, and whether that is a minus. -/
def unsigned : List Char → Bool × List Char
  | '-' :: rest => (true, rest)
  | '+' :: rest => (false, rest)
  | text => (false, text)

def integer? (word : List Char) : Option Int :=
  match word with
  | '0' :: 'x' :: rest => (digits? 16 rest).map fun digits => Text.valueIn 16 digits
  | '0' :: 'o' :: rest => (digits? 8 rest).map fun digits => Text.valueIn 8 digits
  | '0' :: 'b' :: rest => (digits? 2 rest).map fun digits => Text.valueIn 2 digits
  | _ =>
    let (minus, rest) := unsigned word
    (decimal? rest).map fun n => if minus then -(n : Int) else n

def isExponentMark (c : Char) : Bool := c == 'e' || c == 'E'

def isExponent (text : List Char) : Bool :=
  match text with
  | [] => true
  | c :: rest => isExponentMark c && (digits? 10 (unsigned rest).2).isSome

def isFloat (word : List Char) : Bool :=
  let rest := (unsigned word).2
  let whole := rest.takeWhile fun c => c != '.' && !isExponentMark c
  let tail := rest.dropWhile fun c => c != '.' && !isExponentMark c
  rest == "inf".toList || rest == "nan".toList ||
    (decimal? whole).isSome &&
      match tail with
      | [] => false
      | '.' :: more =>
        (digits? 10 (more.takeWhile fun c => !isExponentMark c)).isSome &&
          isExponent (more.dropWhile fun c => !isExponentMark c)
      | _ => isExponent tail

def word? (word : List Char) : Option Node :=
  match integer? word with
  | some n => some (if n < 0 then .other else .size n.toNat)
  | none => if word = "true".toList ∨ word = "false".toList ∨ isFloat word then some .other else none

/-! ## Names -/

/-- A part of a name: a name without points, or a point. -/
inductive Part where
  | name (text : List Char)
  | point
  deriving DecidableEq, Repr

/-- The parts of a word, after the characters `done` in reverse. -/
def partsFrom (done : List Char) : List Char → List Part
  | [] => if done.isEmpty then [] else [.name done.reverse]
  | c :: rest =>
    if c = '.' then (if done.isEmpty then [] else [.name done.reverse]) ++ .point :: partsFrom [] rest
    else partsFrom (c :: done) rest

def isBare (name : List Char) : Bool := name.all fun c => c.isAlphanum || c == '_' || c == '-'

/-- The parts of the words and texts at the front of tokens, and what follows them. -/
def takeParts : List Token → List Part × List Token
  | .word word :: rest =>
    let (parts, rest) := takeParts rest
    (partsFrom [] word ++ parts, rest)
  | .text text :: rest =>
    let (parts, rest) := takeParts rest
    (.name text :: parts, rest)
  | tokens => ([], tokens)

def areBare : List Token → Bool
  | .word word :: rest => (partsFrom [] word).all (fun | .name name => isBare name | .point => true) && areBare rest
  | .text _ :: rest => areBare rest
  | _ => true

def path? : List Part → Option (List String)
  | [.name name] => some [String.ofList name]
  | .name name :: .point :: rest => (path? rest).map (String.ofList name :: ·)
  | _ => none

def name? (tokens : List Token) : Option (List String × List Token) :=
  let (parts, rest) := takeParts tokens
  if areBare tokens then (path? parts).map fun path => (path, rest) else none

/-! ## Values -/

def afterMark? (c : Char) : List Token → Option (List Token)
  | .mark d :: rest => if d = c then some rest else none
  | _ => none

def afterLines : List Token → List Token
  | .lineEnd :: rest => afterLines rest
  | tokens => tokens

mutual
def value? : Nat → List Token → Option (Node × List Token)
  | 0, _ => none
  | n + 1, tokens =>
    match tokens with
    | .text text :: rest => some (.text (String.ofList text), rest)
    | .lines text :: rest => some (.text (String.ofList text), rest)
    | .word word :: rest => (word? word).map fun node => (node, rest)
    | .mark '[' :: rest => (items? n (afterLines rest)).map fun found => (.list found.1, found.2)
    | .mark '\x7b' :: rest => (members? n [] (afterLines rest)).map fun found => (.table (nodes found.1), found.2)
    | _ => none

/-- The items of a list up to its end, and what follows it. -/
def items? : Nat → List Token → Option (List Node × List Token)
  | 0, _ => none
  | _ + 1, .mark ']' :: rest => some ([], rest)
  | n + 1, tokens => do
    let (item, rest) ← value? n tokens
    match afterLines rest with
    | .mark ',' :: rest =>
      let (items, rest) ← items? n (afterLines rest)
      return (item :: items, rest)
    | .mark ']' :: rest => return ([item], rest)
    | _ => none

/-- The entries of a table in braces, beyond those that are there, up to its end, and what follows it. -/
def members? : Nat → Entries → List Token → Option (Entries × List Token)
  | 0, _, _ => none
  | _ + 1, entries, .mark '\x7d' :: rest => some (entries, rest)
  | n + 1, entries, tokens => do
    let (path, rest) ← name? tokens
    let (node, rest) ← value? n (← afterMark? '=' rest)
    let entries ← entries.define node path
    match afterLines rest with
    | .mark ',' :: rest => members? n entries (afterLines rest)
    | .mark '\x7d' :: rest => return (entries, rest)
    | _ => none
end

/-! ## Lines -/

/-- What follows the end of a line, which may be that of the text. -/
def afterLine? : List Token → Option (List Token)
  | [] => some []
  | .lineEnd :: rest => some rest
  | _ => none

/-- The entries of a text, beyond those that are there, under the header that was read last. -/
def entries? : Nat → List String → Entries → List Token → Option Entries
  | 0, _, _, _ => none
  | n + 1, header, entries, tokens =>
    match tokens with
    | [] => some entries
    | .lineEnd :: rest => entries? n header entries rest
    | .mark '[' :: rest => do
      let (path, rest) ← name? rest
      let rest ← afterLine? (← afterMark? ']' rest)
      entries? n path (← entries.header path) rest
    | _ => do
      let (path, rest) ← name? tokens
      let (node, rest) ← value? n (← afterMark? '=' rest)
      let rest ← afterLine? rest
      entries? n header (← entries.defineUnder node path header) rest

/-- A text without the mark that says how it is encoded. -/
def withoutMark : List Char → List Char
  | '\ufeff' :: rest => rest
  | text => text

def read? (text : List Char) : Option Node := do
  let tokens ← tokens? (withoutMark text)
  let entries ← entries? (2 * tokens.length + 2) [] [] tokens
  return .table (nodes entries)

end Rulebook.Settings.Toml
