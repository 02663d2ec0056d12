/-
  Rulebook.Settings.Toml.Token — TOML text cut into tokens.

  Blanks and comments only separate tokens, and the end of a line is a token of its own.
  Names and values without quotes are words: their characters are told apart later,
  since a point separates names but belongs to a number. Text stands between single or
  double quotes on one line, or between three of them over several; the line end right
  after three quotes does not count. A backslash is an escape between double quotes.

  Where no token starts, the text is not TOML.
-/

import Rulebook.Text.Digits
import Rulebook.Text.Escape

namespace Rulebook.Settings.Toml

inductive Token where
  | word (text : List Char)
  | text (text : List Char)
  | lines (text : List Char)
  | mark (c : Char)
  | lineEnd
  deriving DecidableEq, Repr

/-- Whether a character may stand in a comment or between quotes. -/
def isInk (c : Char) : Bool := c == '\t' || (' ' ≤ c && c != '\x7f')

def isWordChar (c : Char) : Bool := c.isAlphanum || c == '_' || c == '-' || c == '+' || c == '.' || c == ':'

def isMark (c : Char) : Bool := c == '=' || c == ',' || c == '[' || c == ']' || c == '\x7b' || c == '\x7d'

/-! ## Text between quotes -/

structure Quote where
  mark : Char
  triple : Bool

/-- Where a text is read: in it, after a backslash, in a numbered escape of which some digits
    are left, or in the blanks behind a backslash at the end of a line. -/
inductive Mode where
  | plain
  | escape
  | code (left value : Nat)
  | fold (passed : Bool)

/-- The mode in which a character is read: the blanks behind the end of a line go up to the first ink. -/
def Mode.at (c : Char) : Mode → Mode
  | .fold true => if c = ' ' ∨ c = '\t' ∨ c = '\n' ∨ c = '\r' then .fold true else .plain
  | mode => mode

def shortEscape? (c : Char) : Option Char :=
  match c with
  | 'b' => some '\x08'
  | 't' => some '\t'
  | 'n' => some '\n'
  | 'f' => some '\x0c'
  | 'r' => some '\r'
  | 'e' => some '\x1b'
  | '"' => some '"'
  | '\\' => some '\\'
  | _ => none

/-- Whether a quote and what follows it close a text. Of several quotes at the end the last three do. -/
def Quote.closes (quote : Quote) (rest : List Char) : Bool :=
  match quote.triple, rest with
  | false, _ => true
  | true, a :: b :: more => a == quote.mark && b == quote.mark && more.head? != some quote.mark
  | true, _ => false

/-- The text up to its closing quotes, after the characters `done` in reverse, and what follows them. -/
def scan (quote : Quote) (done : List Char) (mode : Mode) : List Char → Option (List Char × List Char)
  | [] => none
  | c :: rest =>
    match mode.at c with
    | .plain =>
      if c = quote.mark then
        if quote.closes rest then some (done.reverse, if quote.triple then rest.drop 2 else rest)
        else scan quote (c :: done) .plain rest
      else if c = '\\' ∧ quote.mark = '"' then scan quote done .escape rest
      else if c = '\n' then if quote.triple then scan quote (c :: done) .plain rest else none
      else if c = '\r' then
        if quote.triple ∧ rest.head? = some '\n' then scan quote done .plain rest else none
      else if isInk c then scan quote (c :: done) .plain rest
      else none
    | .escape =>
      match shortEscape? c, Text.codeLength? c with
      | some d, _ => scan quote (d :: done) .plain rest
      | none, some n => scan quote done (.code n 0) rest
      | none, none =>
        if ¬ quote.triple then none
        else if c = '\n' then scan quote done (.fold true) rest
        else if c = ' ' ∨ c = '\t' ∨ (c = '\r' ∧ rest.head? = some '\n') then scan quote done (.fold false) rest
        else none
    | .code left value =>
      match Text.hexValue? c with
      | none => none
      | some d =>
        let value := 16 * value + d
        if 1 < left then scan quote done (.code (left - 1) value) rest
        else
          match Text.charOf? value with
          | some e => scan quote (e :: done) .plain rest
          | none => none
    | .fold passed =>
      if c = '\n' then scan quote done (.fold true) rest
      else if c = ' ' ∨ c = '\t' ∨ (c = '\r' ∧ rest.head? = some '\n') then scan quote done (.fold passed) rest
      else none

def afterLineEnd (text : List Char) : List Char :=
  match text with
  | '\n' :: rest => rest
  | '\r' :: '\n' :: rest => rest
  | _ => text

def quoted? (c : Char) (rest : List Char) : Option (Token × List Char) :=
  match rest with
  | a :: b :: more =>
    if a = c ∧ b = c then
      (scan ⟨c, true⟩ [] .plain (afterLineEnd more)).map fun found => (.lines found.1, found.2)
    else (scan ⟨c, false⟩ [] .plain rest).map fun found => (.text found.1, found.2)
  | _ => (scan ⟨c, false⟩ [] .plain rest).map fun found => (.text found.1, found.2)

/-! ## Tokens -/

/-- The token that a character starts, none for what only separates, and what follows it. -/
def Token.next? (c : Char) (rest : List Char) : Option (Option Token × List Char) :=
  if c = ' ' ∨ c = '\t' then some (none, rest)
  else if c = '\n' then some (some .lineEnd, rest)
  else if c = '\r' then if rest.head? = some '\n' then some (none, rest) else none
  else if c = '#' then some (none, rest.dropWhile isInk)
  else if isMark c then some (some (.mark c), rest)
  else if c = '"' ∨ c = '\'' then (quoted? c rest).map fun found => (some found.1, found.2)
  else if isWordChar c then some (some (.word (c :: rest.takeWhile isWordChar)), rest.dropWhile isWordChar)
  else none

theorem scan_length_le (quote : Quote) (done : List Char) (mode : Mode) (text : List Char) :
    ∀ found, scan quote done mode text = some found → found.2.length ≤ text.length := by
  fun_induction scan quote done mode text <;> intro found h
  all_goals simp_all
  all_goals grind

theorem afterLineEnd_length_le (text : List Char) : (afterLineEnd text).length ≤ text.length := by
  unfold afterLineEnd
  split <;> simp
  omega

theorem quoted?_length_le (c : Char) (rest : List Char) :
    ∀ found, quoted? c rest = some found → found.2.length ≤ rest.length := by
  intro found h
  unfold quoted? at h
  split at h
  · rename_i a b more
    have hline := afterLineEnd_length_le more
    split at h
    · obtain ⟨text, hs, rfl⟩ := Option.map_eq_some_iff.mp h
      have hle := scan_length_le _ _ _ _ _ hs
      simp only [List.length_cons]
      omega
    · obtain ⟨text, hs, rfl⟩ := Option.map_eq_some_iff.mp h
      exact scan_length_le _ _ _ _ _ hs
  · obtain ⟨text, hs, rfl⟩ := Option.map_eq_some_iff.mp h
    exact scan_length_le _ _ _ _ _ hs

theorem Token.next?_length_le (c : Char) (rest : List Char) :
    ∀ found, Token.next? c rest = some found → found.2.length ≤ rest.length := by
  intro found h
  have hquoted := quoted?_length_le c rest
  have hink := (List.dropWhile_sublist isInk (l := rest)).length_le
  have hword := (List.dropWhile_sublist isWordChar (l := rest)).length_le
  unfold Token.next? at h
  grind [Option.map_eq_some_iff]

def tokens? : List Char → Option (List Token)
  | [] => some []
  | c :: rest =>
    match _h : Token.next? c rest with
    | none => none
    | some (token, more) => (tokens? more).map fun tokens => token.toList ++ tokens
termination_by text => text.length
decreasing_by exact Nat.lt_succ_of_le (Token.next?_length_le c rest _ _h)

end Rulebook.Settings.Toml
