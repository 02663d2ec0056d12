/-
  Rulebook.Expr.Literal — what the literals of a rule stand for.

  The text between the quotes of a literal is found by counting quotes: each quote of
  one kind opens or closes, unless it stands inside quotes of the other kind. So three
  quotes are one that opens, one that closes and one that opens again, two quotes inside
  such a text are dropped, and whatever stands outside is a fault. An escape for a quote
  of the other kind keeps its backslash.
-/

import Rulebook.Decimal.Read
import Rulebook.Expr.Token
import Rulebook.Text.Escape
import Rulebook.Text.Utf8

namespace Rulebook.Expr

inductive Open where
  | neither
  | single
  | double
  deriving DecidableEq, Repr

/-- What is open after a quote, and whether the quote itself is text. -/
def Open.next (state : Open) (quote : Char) : Open × Bool :=
  match state, quote == '"' with
  | .double, true => (.neither, false)
  | .double, false => (.double, true)
  | .single, true => (.single, true)
  | .single, false => (.neither, false)
  | .neither, true => (.double, false)
  | .neither, false => (.single, false)

def isQuote (c : Char) : Bool := c == '"' || c == '\''

/-- The character of an escape of one letter. -/
def letterEscape? (c : Char) : Option Char :=
  if c = 'a' then some '\x07'
  else if c = 'b' then some '\x08'
  else if c = 'f' then some '\x0c'
  else if c = 'n' then some '\n'
  else if c = 'r' then some '\r'
  else if c = 't' then some '\t'
  else if c = 'v' then some '\x0b'
  else if c = '\\' ∨ c = '?' ∨ c = '`' then some c
  else none

def octal? (text : List Char) : Option Nat :=
  text.foldlM (fun n c => if '0' ≤ c ∧ c ≤ '7' then some (8 * n + (c.toNat - '0'.toNat)) else none) 0

/-- The character of an escape that gives its number, and the length of the escape without the backslash. -/
def numberEscape? : List Char → Option (Char × Nat)
  | [] => none
  | c :: rest =>
    let hexDigits (n : Nat) : Option (Char × Nat) :=
      if (rest.take n).length = n then
        ((Text.hexNumber? 0 (rest.take n)).bind Text.charOf?).map fun d => (d, n + 1)
      else none
    if c = 'x' then hexDigits 2
    else if c = 'u' then hexDigits 4
    else if c = 'U' then hexDigits 8
    else if '0' ≤ c ∧ c ≤ '3' ∧ (rest.take 2).length = 2 then
      ((octal? (c :: rest.take 2)).bind Text.charOf?).map fun d => (d, 3)
    else none

/-- The text of a literal with escapes, of which the next `skip` characters belong to an escape;
    `done` is in reverse. -/
def unescape (done : List Char) (state : Open) (skip : Nat) : List Char → Option (List Char)
  | [] => if state = .neither then some done.reverse else none
  | c :: rest =>
    match skip with
    | skip + 1 => unescape done state skip rest
    | 0 =>
      if c = '\\' ∧ state ≠ .neither then
        match rest with
        | [] => none
        | d :: _ =>
          if isQuote d then unescape (if (state.next d).2 then d :: c :: done else d :: done) state 1 rest
          else
            match letterEscape? d with
            | some e => unescape (e :: done) state 1 rest
            | none =>
              match numberEscape? rest with
              | some (e, length) => unescape (e :: done) state length rest
              | none => none
      else if isQuote c then unescape (if (state.next c).2 then c :: done else done) (state.next c).1 0 rest
      else if state = .neither then none
      else unescape (c :: done) state 0 rest

/-- The text of a literal without escapes after its `r`; a backslash is dropped before a quote
    of the kind that is open. -/
def raw (done : List Char) (state : Open) (skip : Bool) : List Char → Option (List Char)
  | [] => some done.reverse
  | c :: rest =>
    if skip then raw done state false rest
    else if c = '\\' ∧ state ≠ .neither then
      match rest with
      | [] => raw (c :: done) state false rest
      | d :: _ =>
        let dropped := isQuote d && !(state.next d).2
        raw (if dropped then d :: done else d :: c :: done) state true rest
    else if isQuote c then raw (if (state.next c).2 then c :: done else done) (state.next c).1 false rest
    else if state = .neither then none
    else raw (c :: done) state false rest

def textOf? : List Char → Option (List Char)
  | [] => none
  | c :: rest => if c = 'r' ∨ c = 'R' then raw [] .neither false rest else unescape [] .neither 0 (c :: rest)

/-- The bytes of the body of a bytes literal, of which the next `skip` characters belong to an escape. -/
def bytesOfBody? (skip : Nat) : List Char → Option (List UInt8)
  | [] => some []
  | c :: rest =>
    match skip with
    | skip + 1 => bytesOfBody? skip rest
    | 0 =>
      if c = '\\' then
        match rest with
        | 'x' :: a :: b :: _ => do
          let n ← Text.hexNumber? 0 [a, b]
          let more ← bytesOfBody? 3 rest
          return UInt8.ofNat n :: more
        | a :: b :: d :: _ => do
          let n ← octal? [a, b, d]
          if 255 < n then failure
          let more ← bytesOfBody? 3 rest
          return UInt8.ofNat n :: more
        | _ => none
      else (bytesOfBody? 0 rest).map (String.utf8EncodeChar c ++ ·)

/-- The bytes of a bytes literal: its body lies behind the prefix and the first quote and before the last. -/
def bytesOf? (text : List Char) : Option (List UInt8) := bytesOfBody? 0 (text.drop 2).dropLast

/-- The signed integer of a literal; hexadecimal digits have no sign in front. -/
def intOf? (text : List Char) : Option Int64 :=
  match text with
  | '0' :: 'x' :: rest =>
    match Text.hexNumber? 0 rest with
    | some n => if n ≤ 9223372036854775807 then some (Int64.ofNat n) else none
    | none => none
  | text => (Text.readInt64 text).toOption.map Int64.ofInt

/-- The unsigned integer of a literal without its `u`. -/
def uintOf? (text : List Char) : Option UInt64 :=
  match text with
  | '0' :: 'x' :: rest =>
    match Text.hexNumber? 0 rest with
    | some n => if n ≤ Text.wordMax then some (UInt64.ofNat n) else none
    | none => none
  | text => (Text.readWord text).toOption.map UInt64.ofNat

/-- The float of a literal, which must be finite. -/
def floatOf? (text : List Char) : Option Float :=
  match Decimal.readFloat text with
  | .ok x => if x.isFinite then some x else none
  | .error _ => none

end Rulebook.Expr
