/-
  Rulebook.Settings.Yaml.Token — YAML text cut into tokens.

  Each token has its line and its column, since columns say what belongs together. Blanks
  and comments only separate tokens; before the first token of a line outside braces a
  tab is no blank. A plain scalar goes on over blanks up to a comment, to the end of its
  line or to a colon with a blank behind it, inside braces also to a brace or a comma.
  A quoted scalar ends on its line.

  Where no token starts, the text is refused. YAML has more than is read here: lists,
  anchors and aliases, tags, block scalars, `? ` in front of a key, directives, and quoted
  scalars that go on over a line break, as they may where the break is escaped. A text
  with any of these is refused too, although it may hold settings.
-/

import Rulebook.Text.Digits
import Rulebook.Text.Escape

namespace Rulebook.Settings.Yaml

inductive Kind where
  | plain (text : List Char)
  | quoted (text : List Char)
  | colon
  | comma
  | opening
  | closing
  | start
  | stop
  deriving DecidableEq, Repr

structure Token where
  kind : Kind
  line : Nat
  column : Nat
  deriving DecidableEq, Repr

def isBreak (c : Char) : Bool := c == '\n' || c == '\r' || c == '\x85' || c == '\u2028' || c == '\u2029'

def isBlank (c : Char) : Bool := c == ' ' || c == '\t'

/-- Whether a text is at its end, or goes on with a blank or the end of a line. -/
def atBlank : List Char → Bool
  | [] => true
  | c :: _ => isBlank c || isBreak c

def isReadable (c : Char) : Bool :=
  c == '\t' || c == '\n' || c == '\r' || (' ' ≤ c && c ≤ '~') || c == '\x85' ||
    ('\xa0' ≤ c && c ≤ '\ufffd' && c != '\ufeff') || 0x10000 ≤ c.toNat

/-! ## Scalars -/

def isBracket (c : Char) : Bool := c == ',' || c == '[' || c == ']' || c == '\x7b' || c == '\x7d'

/-- Whether a character starts a plain scalar by itself. -/
def startsPlain (c : Char) : Bool :=
  !isBracket c && !("-?:#&*!|>'\"%@\x60".toList.contains c)

/-- The rest of a plain scalar, of which the blanks `held` are kept if more of it follows, and what follows it. -/
def plain? (braced : Bool) (held : List Char) : List Char → Option (List Char × List Char)
  | [] => some ([], [])
  | c :: rest =>
    if isBreak c then some ([], c :: rest)
    else if isBlank c then plain? braced (held ++ [c]) rest
    else if c = '#' ∧ held ≠ [] then some ([], c :: rest)
    else if c = ':' ∧ atBlank rest then some ([], c :: rest)
    else if braced ∧ isBracket c then some ([], c :: rest)
    else if braced ∧ c = ':' ∧ rest.head?.any (fun d => isBracket d || d == '?') then none
    else (plain? braced [] rest).map fun found => (held ++ c :: found.1, found.2)

/-- The rest of a text between single quotes, where two stand for one, and what follows it. -/
def single? : List Char → Option (List Char × List Char)
  | [] => none
  | [c] => if c = '\'' then some ([], []) else none
  | c :: d :: rest =>
    if c = '\'' then
      if d = '\'' then (single? rest).map fun found => ('\'' :: found.1, found.2) else some ([], d :: rest)
    else if isBreak c then none
    else (single? (d :: rest)).map fun found => (c :: found.1, found.2)

def shortEscape? (c : Char) : Option Char :=
  match c with
  | '0' => some '\x00'
  | 'a' => some '\x07'
  | 'b' => some '\x08'
  | 't' => some '\t'
  | '\t' => some '\t'
  | 'n' => some '\n'
  | 'v' => some '\x0b'
  | 'f' => some '\x0c'
  | 'r' => some '\r'
  | 'e' => some '\x1b'
  | ' ' => some ' '
  | '"' => some '"'
  | '/' => some '/'
  | '\\' => some '\\'
  | 'N' => some '\x85'
  | '_' => some '\xa0'
  | 'L' => some '\u2028'
  | 'P' => some '\u2029'
  | _ => none

/-- Where a text between double quotes is read: in it, after a backslash, or in a numbered
    escape of which some digits are left. -/
inductive Mode where
  | plain
  | escape
  | code (left value : Nat)

def double? (mode : Mode) : List Char → Option (List Char × List Char)
  | [] => none
  | c :: rest =>
    let after (d : Char) := (double? .plain rest).map fun found => (d :: found.1, found.2)
    match mode with
    | .plain =>
      if c = '"' then some ([], rest)
      else if c = '\\' then double? .escape rest
      else if isBreak c then none
      else after c
    | .escape =>
      match shortEscape? c, Text.codeLength? c with
      | some d, _ => after d
      | none, some n => double? (.code n 0) rest
      | none, none => none
    | .code left value =>
      match Text.hexValue? c with
      | none => none
      | some d =>
        let value := 16 * value + d
        if 1 < left then double? (.code (left - 1) value) rest else (Text.charOf? value).bind after

/-! ## Tokens -/

/-- The kind of the mark of three characters that stands at the start of a line by itself. -/
def marker? : List Char → Option (Kind × List Char)
  | '-' :: '-' :: '-' :: rest => if atBlank rest then some (.start, rest) else none
  | '.' :: '.' :: '.' :: rest => if atBlank rest then some (.stop, rest) else none
  | _ => none

def Kind.next? (braced : Bool) (c : Char) (rest : List Char) : Option (Kind × List Char) :=
  if c = '\x7b' then some (.opening, rest)
  else if braced ∧ c = '\x7d' then some (.closing, rest)
  else if braced ∧ c = ',' then some (.comma, rest)
  else if c = ':' ∧ (braced ∨ atBlank rest) then some (.colon, rest)
  else if c = '\'' then (single? rest).map fun found => (.quoted found.1, found.2)
  else if c = '"' then (double? .plain rest).map fun found => (.quoted found.1, found.2)
  else if startsPlain c ∨ (c = '-' ∧ ¬ atBlank rest) ∨ (¬ braced ∧ (c = '?' ∨ c = ':') ∧ ¬ atBlank rest) then
    (plain? braced [] rest).map fun found => (.plain (c :: found.1), found.2)
  else none

/-- Where a text is read: the line, the column, how many braces are open, and whether no token
    of the line came yet. -/
structure Place where
  line : Nat
  column : Nat
  depth : Nat
  fresh : Bool

/-- The place behind a token that leaves `left` of `all` characters. -/
def Place.after (place : Place) (kind : Kind) (all left : Nat) : Place :=
  let depth := match kind with
    | .opening => place.depth + 1
    | .closing => place.depth - 1
    | _ => place.depth
  ⟨place.line, place.column + (all - left), depth, false⟩

def Place.next? (place : Place) (c : Char) (rest : List Char) : Option (Kind × List Char) :=
  match if place.column = 0 then marker? (c :: rest) else none with
  | some found => some found
  | none => Kind.next? (place.depth != 0) c rest

theorem plain?_length_le (braced : Bool) (held text : List Char) :
    ∀ found, plain? braced held text = some found → found.2.length ≤ text.length := by
  fun_induction plain? braced held text <;> intro found h
  all_goals simp_all
  all_goals grind

theorem single?_length_le (text : List Char) :
    ∀ found, single? text = some found → found.2.length ≤ text.length := by
  fun_induction single? text <;> intro found h
  all_goals simp_all
  all_goals grind

theorem double?_length_le (mode : Mode) (text : List Char) :
    ∀ found, double? mode text = some found → found.2.length ≤ text.length := by
  induction text generalizing mode with
  | nil => intro found h; simp [double?] at h
  | cons c rest ih =>
    intro found h
    unfold double? at h
    grind [Option.map_eq_some_iff, Option.bind_eq_some_iff]

theorem Kind.next?_length_le (braced : Bool) (c : Char) (rest : List Char) :
    ∀ found, Kind.next? braced c rest = some found → found.2.length ≤ rest.length := by
  intro found h
  have hplain := plain?_length_le braced [] rest
  have hsingle := single?_length_le rest
  have hdouble := double?_length_le .plain rest
  unfold Kind.next? at h
  grind [Option.map_eq_some_iff]

theorem Place.next?_length_le (place : Place) (c : Char) (rest : List Char) :
    ∀ found, place.next? c rest = some found → found.2.length ≤ rest.length := by
  intro found h
  have hkind := Kind.next?_length_le (place.depth != 0) c rest
  unfold Place.next? marker? at h
  grind

def tokensFrom? (place : Place) : List Char → Option (List Token)
  | [] => some []
  | c :: rest =>
    if isBreak c ∧ ¬ (c = '\r' ∧ rest.head? = some '\n') then
      tokensFrom? ⟨place.line + 1, 0, place.depth, true⟩ rest
    else if c = ' ' ∨ c = '\r' ∨ (c = '\t' ∧ ¬ (place.fresh ∧ place.depth = 0)) then
      tokensFrom? { place with column := place.column + 1 } rest
    else if c = '#' then tokensFrom? place (rest.dropWhile fun d => !isBreak d)
    else
      match _h : place.next? c rest with
      | none => none
      | some (kind, more) =>
        (tokensFrom? (place.after kind (rest.length + 1) more.length) more).map fun tokens =>
          ⟨kind, place.line, place.column⟩ :: tokens
termination_by text => text.length
decreasing_by
  · exact Nat.lt_succ_self _
  · exact Nat.lt_succ_self _
  · exact Nat.lt_succ_of_le (List.dropWhile_sublist _).length_le
  · exact Nat.lt_succ_of_le (place.next?_length_le c rest _ _h)

def tokens? (text : List Char) : Option (List Token) :=
  let text := match text with
    | '\ufeff' :: rest => rest
    | _ => text
  if text.all isReadable then tokensFrom? ⟨0, 0, 0, true⟩ text else none

end Rulebook.Settings.Yaml
