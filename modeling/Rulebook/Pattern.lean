/-
  Rulebook.Pattern — regular expressions, searched for in a text.

  A pattern is matched by the set of places where it can end: from a set of starting
  places, each construct gives the places that it reaches. Whether a pattern occurs at
  all does not depend on greed, so lazy repetitions are read as plain ones. Repetition
  without a limit reaches all it can within as many rounds as the text has places.

  Written patterns have alternatives, groups, repetitions with `*`, `+`, `?` and counts,
  sets in square brackets, which may hold other sets and named classes, the classes
  `\d`, `\s` and `\w` with their complements, the anchors `^`, `$`, `\A`, `\z`, `\b` and
  `\B`, escapes, and the flags `i`, `m` and `s`.
-/

import Rulebook.Text.Blank
import Rulebook.Text.Digits
import Rulebook.Text.Letters

namespace Rulebook

/-- A set of characters: what its parts hold, what they do not, or what they hold in either case. -/
inductive CharSet where
  | range (low high : Char)
  | digit
  | blank
  | word
  | any
  | union (parts : List CharSet)
  | complement (set : CharSet)
  | eitherCase (set : CharSet)

/-- A place that a pattern may ask for without reading on. -/
inductive Anchor where
  | textStart
  | textEnd
  | lineStart
  | lineEnd
  | wordEdge
  | noWordEdge
  deriving DecidableEq, Repr

inductive Pattern where
  | empty
  | one (set : CharSet)
  | place (anchor : Anchor)
  | follow (a b : Pattern)
  | either (a b : Pattern)
  | star (p : Pattern)
  | times (p : Pattern) (least most : Nat)

mutual
def CharSet.holds (c : Char) : CharSet → Bool
  | .range low high => decide (low ≤ c) && decide (c ≤ high)
  | .digit => Text.isDecimalDigit c
  | .blank => Text.isBlank c
  | .word => Text.isWordLetter c
  | .any => true
  | .union parts => CharSet.anyHolds c parts
  | .complement set => !CharSet.holds c set
  | .eitherCase set => CharSet.holds c set || CharSet.holds c.toLower set || CharSet.holds c.toUpper set
def CharSet.anyHolds (c : Char) : List CharSet → Bool
  | [] => false
  | set :: rest => CharSet.holds c set || CharSet.anyHolds c rest
end

namespace Pattern

/-! ## Matching -/

def holdsAt (text : Array Char) (i : Nat) : Anchor → Bool
  | .textStart => i == 0
  | .textEnd => i == text.size
  | .lineStart => i == 0 || text[i - 1]? == some '\n'
  | .lineEnd => i == text.size || text[i]? == some '\n'
  | .wordEdge => ((decide (0 < i) && text[i - 1]?.any Text.isWordLetter) != text[i]?.any Text.isWordLetter)
  | .noWordEdge => ((decide (0 < i) && text[i - 1]?.any Text.isWordLetter) == text[i]?.any Text.isWordLetter)

def merge (xs ys : List Nat) : List Nat := xs ++ ys.filter fun y => !xs.contains y

/-- The places where a pattern can end that starts at one of some places. -/
def ends (text : Array Char) : Pattern → List Nat → List Nat
  | .empty, starts => starts
  | .one set, starts => starts.filterMap fun i => (text[i]?).bind fun c => if set.holds c then some (i + 1) else none
  | .place anchor, starts => starts.filter fun i => holdsAt text i anchor
  | .follow a b, starts => ends text b (ends text a starts)
  | .either a b, starts => merge (ends text a starts) (ends text b starts)
  | .star p, starts => (text.size + 1).fold (fun _ _ places => merge places (ends text p places)) starts
  | .times p least most, starts =>
    let first := least.fold (fun _ _ places => ends text p places) starts
    (most - least).fold (fun _ _ places => merge places (ends text p places)) first

def occursIn (p : Pattern) (text : List Char) : Bool :=
  !(p.ends text.toArray (List.range (text.length + 1))).isEmpty

/-! ## Reading -/

/-- What the flags of a pattern change: letters of either case, anchors at lines, a dot that is also a line feed. -/
structure Flags where
  ignoreCase : Bool := false
  lines : Bool := false
  dotAll : Bool := false

def span (flags : Flags) (low high : Char) : CharSet :=
  if flags.ignoreCase then .eitherCase (.range low high) else .range low high

def single (flags : Flags) (c : Char) : CharSet := span flags c c

def plainEscape? (c : Char) : Option Char :=
  if c = 'n' then some '\n'
  else if c = 't' then some '\t'
  else if c = 'r' then some '\r'
  else if c = 'f' then some '\x0c'
  else if c = 'v' then some '\x0b'
  else if c = 'a' then some '\x07'
  else if c.isAlphanum then none
  else some c

def classEscape? (c : Char) : Option CharSet :=
  if c = 'd' then some .digit
  else if c = 'D' then some (.complement .digit)
  else if c = 's' then some .blank
  else if c = 'S' then some (.complement .blank)
  else if c = 'w' then some .word
  else if c = 'W' then some (.complement .word)
  else none

def anchorEscape? (c : Char) : Option Anchor :=
  if c = 'b' then some .wordEdge
  else if c = 'B' then some .noWordEdge
  else if c = 'A' then some .textStart
  else if c = 'z' then some .textEnd
  else none

def hexEscape? (text : List Char) : Option (Char × List Char) :=
  let braced (rest : List Char) : Option (Char × List Char) :=
    match rest with
    | '\x7b' :: rest =>
      let digits := rest.takeWhile (· != '\x7d')
      if digits.isEmpty then none
      else (Text.hexNumber? 0 digits).map fun n => (Char.ofNat n, (rest.dropWhile (· != '\x7d')).drop 1)
    | _ => none
  let fixed (n : Nat) (rest : List Char) : Option (Char × List Char) :=
    if (rest.take n).length = n then
      (Text.hexNumber? 0 (rest.take n)).map fun m => (Char.ofNat m, rest.drop n)
    else none
  match text with
  | 'x' :: rest => (braced rest).or (fixed 2 rest)
  | 'u' :: rest => (braced rest).or (fixed 4 rest)
  | 'U' :: rest => (braced rest).or (fixed 8 rest)
  | _ => none

/-- A member of a set in brackets, one character or a class, and what follows it. -/
def member? : List Char → Option ((Char ⊕ CharSet) × List Char)
  | '\\' :: rest =>
    match hexEscape? rest with
    | some (c, rest) => some (.inl c, rest)
    | none =>
      match rest with
      | [] => none
      | c :: rest =>
        match classEscape? c with
        | some set => some (.inr set, rest)
        | none => (plainEscape? c).map fun c => (.inl c, rest)
  | c :: rest => some (.inl c, rest)
  | [] => none

def namedSet? (name : List Char) : Option CharSet :=
  let of (parts : List (Char × Char)) : CharSet := .union (parts.map fun part => .range part.1 part.2)
  match String.ofList name with
  | "alnum" => some (of [('0', '9'), ('A', 'Z'), ('a', 'z')])
  | "alpha" => some (of [('A', 'Z'), ('a', 'z')])
  | "ascii" => some (of [('\x00', '\x7f')])
  | "blank" => some (of [('\t', '\t'), (' ', ' ')])
  | "cntrl" => some (of [('\x00', '\x1f'), ('\x7f', '\x7f')])
  | "digit" => some (of [('0', '9')])
  | "graph" => some (of [('!', '~')])
  | "lower" => some (of [('a', 'z')])
  | "print" => some (of [(' ', '~')])
  | "punct" => some (of [('!', '/'), (':', '@'), ('[', '\x60'), ('\x7b', '~')])
  | "space" => some (of [('\t', '\r'), (' ', ' ')])
  | "upper" => some (of [('A', 'Z')])
  | "word" => some (of [('0', '9'), ('A', 'Z'), ('a', 'z'), ('_', '_')])
  | "xdigit" => some (of [('0', '9'), ('A', 'F'), ('a', 'f')])
  | _ => none

/-- A named class after the bracket that opens it, such as `:alpha:]`, and what follows it. -/
def named? (flags : Flags) (text : List Char) : Option (CharSet × List Char) :=
  let cased (set : CharSet) : CharSet := if flags.ignoreCase then .eitherCase set else set
  let body (text : List Char) : Option (CharSet × List Char) :=
    match text.dropWhile Char.isAlpha with
    | ':' :: ']' :: rest => (namedSet? (text.takeWhile Char.isAlpha)).map fun set => (cased set, rest)
    | _ => none
  match text with
  | ':' :: '^' :: rest => (body rest).map fun (set, rest) => (.complement set, rest)
  | ':' :: rest => body rest
  | _ => none

def common (a b : CharSet) : CharSet := .complement (.union [.complement a, .complement b])

/-- The rest of a set in brackets; `done` are its members so far, and a closing bracket that
    comes first is a member. A set may hold other sets, and two signs `&` stand between sets of
    which it is the common part. -/
def setBody? (flags : Flags) : Nat → List CharSet → List Char → Option (CharSet × List Char)
  | 0, _, _ => none
  | _ + 1, _, [] => none
  | n + 1, done, c :: rest =>
    if c = ']' ∧ !done.isEmpty then some (.union done, rest)
    else if c = '[' then
      match named? flags rest with
      | some (set, rest) => setBody? flags n (set :: done) rest
      | none =>
        match rest with
        | '^' :: rest =>
          (setBody? flags n [] rest).bind fun (set, rest) => setBody? flags n (.complement set :: done) rest
        | rest => (setBody? flags n [] rest).bind fun (set, rest) => setBody? flags n (set :: done) rest
    else if c = '&' ∧ rest.head? = some '&' then
      match rest.drop 1 with
      | ']' :: rest => some (common (.union done) (.union []), rest)
      | rest => (setBody? flags n [] rest).map fun (set, rest) => (common (.union done) set, rest)
    else
      match member? (c :: rest) with
      | none => none
      | some (.inr set, rest) => setBody? flags n (set :: done) rest
      | some (.inl low, rest) =>
        match rest with
        | '-' :: next :: more =>
          if next = ']' then setBody? flags n (single flags low :: done) rest
          else
            match member? (next :: more) with
            | some (.inl high, rest) =>
              if low ≤ high then setBody? flags n (span flags low high :: done) rest else none
            | _ => none
        | _ => setBody? flags n (single flags low :: done) rest

def set? (flags : Flags) (text : List Char) : Option (CharSet × List Char) :=
  match text with
  | '^' :: rest => (setBody? flags (rest.length + 1) [] rest).map fun (set, rest) => (.complement set, rest)
  | text => setBody? flags (text.length + 1) [] text

def count? (text : List Char) : Option (Nat × List Char) :=
  match text.takeWhile Char.isDigit with
  | [] => none
  | digits => some (Nat.ofDigitChars 10 digits 0, text.dropWhile Char.isDigit)

def repeated : Nat → Pattern → List Char → Option (Pattern × List Char)
  | 0, p, rest => some (p, rest)
  | n + 1, p, text =>
    let lazy (rest : List Char) := if rest.head? = some '?' then rest.drop 1 else rest
    match text with
    | '*' :: rest => repeated n (.star p) (lazy rest)
    | '+' :: rest => repeated n (.follow p (.star p)) (lazy rest)
    | '?' :: rest => repeated n (.times p 0 1) (lazy rest)
    | '\x7b' :: rest =>
      match count? rest with
      | none => none
      | some (least, '\x7d' :: rest) => repeated n (.times p least least) (lazy rest)
      | some (least, ',' :: '\x7d' :: rest) => repeated n (.follow (.times p least least) (.star p)) (lazy rest)
      | some (least, ',' :: rest) =>
        match count? rest with
        | some (most, '\x7d' :: rest) => if least ≤ most then repeated n (.times p least most) (lazy rest) else none
        | _ => none
      | _ => none
    | _ => some (p, text)

def flags? (flags : Flags) (on : Bool) : List Char → Option (Flags × List Char)
  | [] => none
  | c :: rest =>
    if c = ':' ∨ c = ')' then some (flags, c :: rest)
    else if c = '-' then flags? flags false rest
    else if c = 'i' then flags? { flags with ignoreCase := on } on rest
    else if c = 'm' then flags? { flags with lines := on } on rest
    else if c = 's' then flags? { flags with dotAll := on } on rest
    else if c = 'u' ∨ c = 'U' ∨ c = 'x' ∨ c = 'R' then flags? flags on rest
    else none

mutual
def alternatives? : Nat → Flags → List Char → Option (Pattern × List Char)
  | 0, _, _ => none
  | n + 1, flags, text => do
    let (p, rest) ← sequence? n flags .empty text
    match rest with
    | '|' :: rest =>
      let (q, rest) ← alternatives? n flags rest
      return (.either p q, rest)
    | _ => return (p, rest)

/-- Patterns one after the other, after `done`. -/
def sequence? : Nat → Flags → Pattern → List Char → Option (Pattern × List Char)
  | 0, _, _, _ => none
  | n + 1, flags, done, text =>
    let go (p : Pattern) (rest : List Char) : Option (Pattern × List Char) := do
      let (p, rest) ← repeated rest.length p rest
      sequence? n flags (.follow done p) rest
    let group (flags : Flags) (rest : List Char) : Option (Pattern × List Char) := do
      match ← alternatives? n flags rest with
      | (p, ')' :: rest) => go p rest
      | _ => none
    match text with
    | [] => some (done, [])
    | '|' :: _ => some (done, text)
    | ')' :: _ => some (done, text)
    | '(' :: '?' :: 'P' :: '<' :: rest => group flags ((rest.dropWhile (· != '>')).drop 1)
    | '(' :: '?' :: '<' :: rest => group flags ((rest.dropWhile (· != '>')).drop 1)
    | '(' :: '?' :: rest =>
      match flags? flags true rest with
      | some (inner, ':' :: rest) => group inner rest
      | some (inner, ')' :: rest) => sequence? n inner done rest
      | _ => none
    | '(' :: rest => group flags rest
    | '[' :: rest =>
      match set? flags rest with
      | some (set, rest) => go (.one set) rest
      | none => none
    | '.' :: rest => go (.one (if flags.dotAll then .any else .complement (.range '\n' '\n'))) rest
    | '^' :: rest => go (.place (if flags.lines then .lineStart else .textStart)) rest
    | '$' :: rest => go (.place (if flags.lines then .lineEnd else .textEnd)) rest
    | '\\' :: rest =>
      match hexEscape? rest with
      | some (c, rest) => go (.one (single flags c)) rest
      | none =>
        match rest with
        | [] => none
        | c :: rest =>
          match classEscape? c, anchorEscape? c, plainEscape? c with
          | some set, _, _ => go (.one set) rest
          | _, some anchor, _ => go (.place anchor) rest
          | _, _, some c => go (.one (single flags c)) rest
          | _, _, _ => none
    | c :: rest => if "*+?\x7b".toList.contains c then none else go (.one (single flags c)) rest
end

def read? (text : List Char) : Option Pattern :=
  match alternatives? (2 * text.length + 2) {} text with
  | some (p, []) => some p
  | _ => none

end Pattern

end Rulebook
