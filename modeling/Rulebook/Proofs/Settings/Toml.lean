/-
  Rulebook.Proofs.Settings.Toml — TOML text that is written line by line is read line by line.

  A line is blank, a comment, the header of a table, or a definition, whose value is text
  between quotes, a number, or a table in braces (`Line`). Each has its characters and its
  tokens, and what it does to the header and the entries before it (`Line.run`). A text is
  cut into the tokens of its lines, since a line ends where its characters say so, and its
  entries are what the lines do one after the other.
  - `tokens?_lines`: lines are cut into their tokens.
  - `entries?_lines`: reading the tokens of lines is running the lines.
  - `read?_lines`: the data of lines.
-/

import Mathlib.Data.List.Nodup
import Rulebook.Proofs.Settings.Address
import Rulebook.Proofs.Settings.Overlay
import Rulebook.Settings.Toml.Document

namespace Rulebook.Settings.Toml

open Rulebook.Text (numeral)

/-! ## Cutting -/

variable {text more rest : List Char} {marks others : List Token}

/-- Whether a text in front of what follows it is cut into tokens, whatever that is cut into. -/
def Cuts (text : List Char) (marks : List Token) (rest : List Char) : Prop :=
  tokens? (text ++ rest) = (tokens? rest).map (marks ++ ·)

theorem Cuts.append (hfirst : Cuts text marks (more ++ rest)) (hmore : Cuts more others rest) :
    Cuts (text ++ more) (marks ++ others) rest := by
  unfold Cuts at *
  rw [List.append_assoc, hfirst, hmore, Option.map_map]
  simp [Function.comp_def]

theorem Cuts.nil : Cuts [] [] rest := by
  simp [Cuts]

theorem tokens?_of_next {c : Char} {token : Option Token} (h : Token.next? c text = some (token, rest)) :
    tokens? (c :: text) = (tokens? rest).map (token.toList ++ ·) := by
  rw [tokens?, h]

theorem cuts_blank : Cuts [' '] [] rest := by
  have hnext : Token.next? ' ' rest = some (none, rest) := rfl
  exact tokens?_of_next hnext

theorem cuts_lineEnd : Cuts ['\n'] [.lineEnd] rest := by
  have hnext : Token.next? '\n' rest = some (some .lineEnd, rest) := rfl
  exact tokens?_of_next hnext

theorem eq_of_isMark {c : Char} (h : isMark c = true) :
    c = '=' ∨ c = ',' ∨ c = '[' ∨ c = ']' ∨ c = '\x7b' ∨ c = '\x7d' := by
  simpa [isMark, or_assoc] using h

theorem cuts_mark {c : Char} (h : isMark c = true) : Cuts [c] [.mark c] rest := by
  have hnext : Token.next? c rest = some (some (.mark c), rest) := by
    rcases eq_of_isMark h with rfl | rfl | rfl | rfl | rfl | rfl <;> rfl
  exact tokens?_of_next hnext

theorem next?_wordChar {c : Char} (h : isWordChar c = true) :
    Token.next? c rest = some (some (.word (c :: rest.takeWhile isWordChar)), rest.dropWhile isWordChar) := by
  have hmark : isMark c = false := by
    rw [Bool.eq_false_iff]
    intro hmark
    rcases eq_of_isMark hmark with rfl | rfl | rfl | rfl | rfl | rfl <;> exact absurd h (by decide)
  have hne : ∀ d, isWordChar d = false → c ≠ d := by
    rintro d hd rfl
    exact Bool.false_ne_true (hd.symm.trans h)
  simp [Token.next?, h, hmark, hne ' ' rfl, hne '\t' rfl, hne '\n' rfl, hne '\r' rfl, hne '#' rfl, hne '"' rfl,
    hne '\'' rfl]

theorem cuts_word {word : List Char} (hne : word ≠ []) (hword : ∀ c ∈ word, isWordChar c = true)
    (hr : rest.head?.any isWordChar = false) : Cuts word [.word word] rest := by
  cases word with
  | nil => exact absurd rfl hne
  | cons c word =>
    have hall : ∀ d ∈ word, isWordChar d = true := fun d hd => hword d (List.mem_cons_of_mem _ hd)
    obtain ⟨htake, hdrop⟩ := Text.takeWhile_append_stop hall hr
    have hnext : Token.next? c (word ++ rest) = some (some (.word (c :: word)), rest) := by
      rw [next?_wordChar (hword c List.mem_cons_self), htake, hdrop]
    exact tokens?_of_next hnext

/-! ## Text between quotes -/

/-- Whether a character stands for itself between double quotes. -/
def IsPlain (c : Char) : Prop := isInk c = true ∧ c ≠ '"' ∧ c ≠ '\\'

theorem scan_plain (done text : List Char) (htext : ∀ c ∈ text, IsPlain c) :
    scan ⟨'"', false⟩ done .plain (text ++ '"' :: rest) = some (done.reverse ++ text, rest) := by
  induction text generalizing done with
  | nil => simp [scan, Mode.at, Quote.closes]
  | cons c text ih =>
    obtain ⟨hink, hquote, hslash⟩ := htext c List.mem_cons_self
    have hline : c ≠ '\n' ∧ c ≠ '\r' := by
      constructor <;> rintro rfl <;> exact absurd hink (by decide)
    have hmore := ih (c :: done) fun d hd => htext d (List.mem_cons_of_mem _ hd)
    simp [scan, Mode.at, hquote, hslash, hline, hink, hmore]

theorem cuts_text (hne : text ≠ []) (htext : ∀ c ∈ text, IsPlain c) :
    Cuts ('"' :: text ++ ['"']) [.text text] rest := by
  cases text with
  | nil => exact absurd rfl hne
  | cons c text =>
    have hquote : c ≠ '"' := (htext c List.mem_cons_self).2.1
    have hscan : scan ⟨'"', false⟩ [] .plain (c :: text ++ '"' :: rest) = some (c :: text, rest) :=
      scan_plain [] (c :: text) htext
    have hquoted : quoted? '"' (c :: text ++ '"' :: rest) = some (.text (c :: text), rest) := by
      cases text with
      | nil => simpa [quoted?, hquote] using hscan
      | cons d text => simpa [quoted?, hquote] using hscan
    have hnext : Token.next? '"' (c :: text ++ '"' :: rest) = some (some (.text (c :: text)), rest) := by
      rw [Token.next?, hquoted]
      rfl
    have hcut := tokens?_of_next hnext
    simpa [Cuts] using hcut

theorem cuts_comment (htext : ∀ c ∈ text, isInk c = true) : Cuts ('#' :: text ++ ['\n']) [.lineEnd] rest := by
  have hnext : Token.next? '#' (text ++ ('\n' :: rest)) = some (none, '\n' :: rest) := by
    have hdrop := (Text.takeWhile_append_stop htext (show ('\n' :: rest).head?.any isInk = false from rfl)).2
    simp [Token.next?, hdrop]
  have hcut : Cuts ('#' :: text) [] (['\n'] ++ rest) := tokens?_of_next hnext
  exact hcut.append cuts_lineEnd

/-! ## Values -/

inductive Scalar where
  | text (text : List Char)
  | size (n : Nat)

inductive Value where
  | scalar (scalar : Scalar)
  | braces (members : List (String × Scalar))

def Scalar.characters : Scalar → List Char
  | .text text => '"' :: text ++ ['"']
  | .size n => numeral n

def Scalar.token : Scalar → Token
  | .text text => .text text
  | .size n => .word (numeral n)

def Scalar.node : Scalar → Node
  | .text text => .text (String.ofList text)
  | .size n => .size n

/-- Whether a value can be written without escapes. -/
def Scalar.IsPlain : Scalar → Prop
  | .text text => text ≠ [] ∧ ∀ c ∈ text, Toml.IsPlain c
  | .size _ => True

def definitionCharacters (name : String) (value : List Char) : List Char := name.toList ++ " = ".toList ++ value

def definitionTokens (name : String) (value : List Token) : List Token := .word name.toList :: .mark '=' :: value

/-- The members of a table behind the first as they are written, and the brace. -/
def tailCharacters : List (String × Scalar) → List Char
  | [] => " \x7d".toList
  | (name, value) :: rest => ", ".toList ++ definitionCharacters name value.characters ++ tailCharacters rest

def tailTokens : List (String × Scalar) → List Token
  | [] => [.mark '\x7d']
  | (name, value) :: rest => .mark ',' :: definitionTokens name [value.token] ++ tailTokens rest

def Value.characters : Value → List Char
  | .scalar value => value.characters
  | .braces [] => "\x7b\x7d".toList
  | .braces ((name, value) :: rest) =>
    "\x7b ".toList ++ definitionCharacters name value.characters ++ tailCharacters rest

def Value.tokens : Value → List Token
  | .scalar value => [value.token]
  | .braces [] => [.mark '\x7b', .mark '\x7d']
  | .braces ((name, value) :: rest) => .mark '\x7b' :: definitionTokens name [value.token] ++ tailTokens rest

def Value.node : Value → Node
  | .scalar value => value.node
  | .braces members => .table (members.map fun member => (member.1, member.2.node))

def IsName (name : String) : Prop := name.toList ≠ [] ∧ isBare name.toList = true

/-- Whether a value can be written: its text without escapes, its names without quotes and each once. -/
def Value.IsPlain : Value → Prop
  | .scalar value => value.IsPlain
  | .braces members =>
    (∀ member ∈ members, IsName member.1 ∧ member.2.IsPlain) ∧ (members.map Prod.fst).Nodup

theorem cuts_numeral (n : Nat) (hr : rest.head?.any isWordChar = false) : Cuts (numeral n) [.word (numeral n)] rest := by
  have hall : ∀ d : Fin 10, isWordChar (Nat.digitChar d.val) = true := by decide
  refine cuts_word Nat.toDigits_ne_nil (fun c hc => ?_) hr
  exact Text.forall_mem_toDigits (by decide) (isWordChar · = true) (fun d hd => hall ⟨d, hd⟩) hc

theorem cuts_scalar {value : Scalar} (h : value.IsPlain) (hr : rest.head?.any isWordChar = false) :
    Cuts value.characters [value.token] rest := by
  cases value with
  | text text => exact cuts_text h.1 h.2
  | size n => exact cuts_numeral n hr

theorem cuts_name {name : String} (h : IsName name) (hr : rest.head?.any isWordChar = false) :
    Cuts name.toList [.word name.toList] rest := by
  refine cuts_word h.1 (fun c hc => ?_) hr
  have hbare : (c.isAlphanum || c == '_' || c == '-') = true := List.all_eq_true.mp h.2 c hc
  simp only [Bool.or_eq_true] at hbare
  simp only [isWordChar, Bool.or_eq_true]
  tauto

theorem cuts_definition {name : String} (h : IsName name) {value : List Char} (hvalue : Cuts value marks rest) :
    Cuts (definitionCharacters name value) (definitionTokens name marks) rest := by
  have hequals : Cuts " = ".toList [.mark '='] (value ++ rest) :=
    (cuts_blank.append (cuts_mark rfl)).append cuts_blank
  exact ((cuts_name h rfl).append hequals).append hvalue

theorem ends_tail (members : List (String × Scalar)) :
    (tailCharacters members ++ rest).head?.any isWordChar = false := by
  cases members <;> rfl

theorem cuts_tail {members : List (String × Scalar)}
    (h : ∀ member ∈ members, IsName member.1 ∧ member.2.IsPlain) :
    Cuts (tailCharacters members) (tailTokens members) rest := by
  induction members with
  | nil => exact cuts_blank.append (cuts_mark rfl)
  | cons member members ih =>
    obtain ⟨hname, hvalue⟩ := h member List.mem_cons_self
    have hmore := ih fun other ho => h other (List.mem_cons_of_mem _ ho)
    have hcomma : ∀ {rest}, Cuts ", ".toList [.mark ','] rest := (cuts_mark rfl).append cuts_blank
    exact (hcomma.append (cuts_definition hname (cuts_scalar hvalue (ends_tail members)))).append hmore

theorem cuts_value {value : Value} (h : value.IsPlain) (hr : rest.head?.any isWordChar = false) :
    Cuts value.characters value.tokens rest := by
  cases value with
  | scalar value => exact cuts_scalar h hr
  | braces members =>
    cases members with
    | nil => exact (cuts_mark rfl).append (cuts_mark rfl)
    | cons member members =>
      obtain ⟨hname, hvalue⟩ := h.1 member List.mem_cons_self
      have htail : Cuts (tailCharacters members) (tailTokens members) rest :=
        cuts_tail fun other ho => h.1 other (List.mem_cons_of_mem _ ho)
      have hopen : ∀ {rest}, Cuts "\x7b ".toList [.mark '\x7b'] rest := (cuts_mark rfl).append cuts_blank
      exact (hopen.append (cuts_definition hname (cuts_scalar hvalue (ends_tail members)))).append htail

/-! ## Lines -/

inductive Line where
  | blank
  | comment (text : List Char)
  | header (name : String)
  | definition (name : String) (value : Value)

def Line.characters : Line → List Char
  | .blank => ['\n']
  | .comment text => '#' :: text ++ ['\n']
  | .header name => '[' :: name.toList ++ "]\n".toList
  | .definition name value => definitionCharacters name value.characters ++ ['\n']

def Line.tokens : Line → List Token
  | .blank => [.lineEnd]
  | .comment _ => [.lineEnd]
  | .header name => [.mark '[', .word name.toList, .mark ']', .lineEnd]
  | .definition name value => definitionTokens name value.tokens ++ [.lineEnd]

def Line.IsPlain : Line → Prop
  | .blank => True
  | .comment text => ∀ c ∈ text, isInk c = true
  | .header name => IsName name
  | .definition name value => IsName name ∧ value.IsPlain

def Line.run (line : Line) (header : List String) (entries : Entries) : Option (List String × Entries) :=
  match line with
  | .blank => some (header, entries)
  | .comment _ => some (header, entries)
  | .header name => (entries.header [name]).map ([name], ·)
  | .definition name value => (entries.defineUnder value.node [name] header).map (header, ·)

def run : List Line → List String → Entries → Option (List String × Entries)
  | [], header, entries => some (header, entries)
  | line :: lines, header, entries => (line.run header entries).bind fun after => run lines after.1 after.2

theorem cuts_line {line : Line} (h : line.IsPlain) : Cuts line.characters line.tokens rest := by
  cases line with
  | blank => exact cuts_lineEnd
  | comment text => exact cuts_comment h
  | header name =>
    have hend : Cuts "]\n".toList [.mark ']', .lineEnd] rest := (cuts_mark rfl).append cuts_lineEnd
    exact ((cuts_mark rfl).append (cuts_name h rfl)).append hend
  | definition name value => exact (cuts_definition h.1 (cuts_value h.2 rfl)).append cuts_lineEnd

theorem tokens?_lines {lines : List Line} (h : ∀ line ∈ lines, line.IsPlain) :
    tokens? (lines.flatMap Line.characters) = some (lines.flatMap Line.tokens) := by
  induction lines with
  | nil => simp [tokens?]
  | cons line lines ih =>
    have hline : Cuts line.characters line.tokens (lines.flatMap Line.characters) :=
      cuts_line (h line List.mem_cons_self)
    rw [List.flatMap_cons, hline, ih fun other ho => h other (List.mem_cons_of_mem _ ho)]
    rfl

/-! ## Reading tokens -/

theorem partsFrom_name (done : List Char) {name : List Char} (h : ∀ c ∈ name, c ≠ '.')
    (hne : done.reverse ++ name ≠ []) : partsFrom done name = [.name (done.reverse ++ name)] := by
  induction name generalizing done with
  | nil =>
    have hdone : done ≠ [] := by simpa using hne
    simp [partsFrom, hdone]
  | cons c name ih =>
    have hc : c ≠ '.' := h c List.mem_cons_self
    have hmore := ih (c :: done) (fun d hd => h d (List.mem_cons_of_mem _ hd)) (by simp)
    simp [partsFrom, hc, hmore]

theorem name?_word {name : String} (h : IsName name) (c : Char) (rest : List Token) :
    name? (.word name.toList :: .mark c :: rest) = some ([name], .mark c :: rest) := by
  have hpoint : ∀ d ∈ name.toList, d ≠ '.' := by
    rintro d hd rfl
    exact absurd (List.all_eq_true.mp h.2 _ hd) (by decide)
  have hparts : partsFrom [] name.toList = [.name name.toList] := partsFrom_name [] hpoint h.1
  simp [name?, takeParts, areBare, hparts, h.2, path?]

theorem withoutBars?_eq_some (hne : text ≠ []) (h : ∀ c ∈ text, c ≠ '_') : withoutBars? text = some text := by
  induction text with
  | nil => exact absurd rfl hne
  | cons c text ih =>
    have hc : c ≠ '_' := h c List.mem_cons_self
    cases text with
    | nil => simp [withoutBars?, hc]
    | cons d text =>
      have hd : d ≠ '_' := h d (by simp)
      have hmore := ih (by simp) fun e he => h e (List.mem_cons_of_mem _ he)
      rw [withoutBars?.eq_def]
      simp only [if_neg hc, if_neg hd, hmore, Option.map_some]

theorem decimal?_numeral (n : Nat) : decimal? (numeral n) = some n := by
  have hdigit : ∀ c ∈ numeral n, Text.isDigitIn 10 c = true := fun _ => Text.isDigitIn_of_mem_numeral
  have hbars : withoutBars? (numeral n) = some (numeral n) := by
    refine withoutBars?_eq_some Nat.toDigits_ne_nil ?_
    rintro c hc rfl
    exact absurd (hdigit _ hc) (by decide)
  have hzero : ¬ ((numeral n).head? = some '0' ∧ (numeral n).length ≠ 1) := by
    rintro ⟨hhead, hlength⟩
    rcases Nat.eq_zero_or_pos n with rfl | hpos
    · exact hlength rfl
    · exact Text.head?_toDigits (by decide) (by decide) hpos hhead
  have hall : (numeral n).all (Text.isDigitIn 10) = true := List.all_eq_true.mpr hdigit
  have hvalue : Text.valueIn 10 (numeral n) = n := Text.valueIn_toDigits (by decide) (by decide) n
  simp only [decimal?, digits?, hbars, hall, hvalue, Option.bind_some, if_true, if_neg hzero]

theorem word?_numeral (n : Nat) : word? (numeral n) = some (.size n) := by
  have hunsigned : unsigned (numeral n) = (false, numeral n) := by
    have hhead : ∀ c ∈ (numeral n).head?, Text.isDigitIn 10 c = true := fun c hc =>
      Text.isDigitIn_of_mem_numeral (List.mem_of_mem_head? hc)
    unfold unsigned
    split
    · rename_i rest heq
      exact absurd (hhead '-' (by simp [heq])) (by decide)
    · rename_i rest heq
      exact absurd (hhead '+' (by simp [heq])) (by decide)
    · rfl
  have hinteger : integer? (numeral n) = some (n : Int) := by
    unfold integer?
    split
    · exact absurd ‹_› (Text.numeral_ne_zero_cons n _ _)
    · exact absurd ‹_› (Text.numeral_ne_zero_cons n _ _)
    · exact absurd ‹_› (Text.numeral_ne_zero_cons n _ _)
    · simp [hunsigned, decimal?_numeral]
  have hsign : ¬ ((n : Int) < 0) := by omega
  simp [word?, hinteger, hsign]

theorem value?_scalar {n : Nat} (hn : 0 < n) (value : Scalar) (rest : List Token) :
    value? n (value.token :: rest) = some (value.node, rest) := by
  obtain ⟨n, rfl⟩ := Nat.exists_eq_succ_of_ne_zero (Nat.ne_of_gt hn)
  cases value with
  | text text => rfl
  | size m => simp [value?, Scalar.token, Scalar.node, word?_numeral]

theorem define_append {entries : Entries} {name : String} (h : name ∉ entries.map Prod.fst) (node : Node) :
    entries.define node [name] = some (entries ++ [(name, .value node)]) := by
  simp [Entries.define, Entries.item?, find?_eq_none Prod.fst h]

theorem header_append {entries : Entries} {name : String} (h : name ∉ entries.map Prod.fst) :
    entries.header [name] = some (entries ++ [(name, .table .named [])]) := by
  simp [Entries.header, Entries.item?, find?_eq_none Prod.fst h]

theorem item?_append_self {entries : Entries} {name : String} (h : name ∉ entries.map Prod.fst) (item : Item) :
    (entries ++ [(name, item)]).item? name = some item := by
  simp [Entries.item?, List.find?_append, find?_eq_none Prod.fst h]

theorem change_append_self {entries : Entries} {name : String} (h : name ∉ entries.map Prod.fst) (item other : Item) :
    (entries ++ [(name, item)]).change name other = entries ++ [(name, other)] := by
  have hsame : entries.map (fun entry => if entry.1 = name then (name, other) else entry) = entries := by
    refine (List.map_congr_left fun entry hmem => if_neg ?_).trans (List.map_id entries)
    exact fun heq => h (heq ▸ List.mem_map_of_mem hmem)
  simp [Entries.change, hsame]

theorem defineUnder_append {entries inner : Entries} {name inside : String} (h : name ∉ entries.map Prod.fst)
    (hinside : inside ∉ inner.map Prod.fst) (made : Made) (node : Node) :
    Entries.defineUnder node [inside] [name] (entries ++ [(name, .table made inner)]) =
      some (entries ++ [(name, .table made (inner ++ [(inside, .value node)]))]) := by
  simp only [Entries.defineUnder, item?_append_self h, define_append hinside, Option.map_some, change_append_self h]

def itemsOf (members : List (String × Scalar)) : Entries := members.map fun member => (member.1, .value member.2.node)

theorem not_mem_of_nodup {names others : List String} {name : String} (h : (names ++ name :: others).Nodup) :
    name ∉ names :=
  fun hmem => (List.nodup_cons.mp (List.nodup_middle.mp h)).1 (List.mem_append_left _ hmem)

/-- A member of a table is defined before what follows it is read. -/
theorem members?_step {n : Nat} (hn : 0 < n) {entries : Entries} {name : String} (hname : IsName name)
    (hfresh : name ∉ entries.map Prod.fst) (value : Scalar) (rest : List Token) :
    members? (n + 1) entries (definitionTokens name [value.token] ++ rest) =
      match afterLines rest with
      | .mark ',' :: rest => members? n (entries ++ [(name, .value value.node)]) (afterLines rest)
      | .mark '\x7d' :: rest => some (entries ++ [(name, .value value.node)], rest)
      | _ => none := by
  simp only [definitionTokens, List.cons_append, List.nil_append, members?, name?_word hname, afterMark?, if_true,
    value?_scalar hn, define_append hfresh, Option.bind_eq_bind, Option.bind_some]
  rfl

theorem members?_tail {n : Nat} {entries : Entries} {name : String} {value : Scalar} {members : List (String × Scalar)}
    (hn : members.length + 1 < n) (hnames : ∀ member ∈ (name, value) :: members, IsName member.1)
    (hdistinct : (entries.map Prod.fst ++ name :: members.map Prod.fst).Nodup) (rest : List Token) :
    members? n entries (definitionTokens name [value.token] ++ (tailTokens members ++ rest)) =
      some (entries ++ itemsOf ((name, value) :: members), rest) := by
  have hname := hnames (name, value) List.mem_cons_self
  have hfresh := not_mem_of_nodup hdistinct
  induction members generalizing n entries name value with
  | nil =>
    obtain ⟨n, rfl⟩ := Nat.exists_eq_succ_of_ne_zero (show n ≠ 0 by omega)
    rw [members?_step (by simp at hn; omega) hname hfresh]
    rfl
  | cons member members ih =>
    rw [List.length_cons] at hn
    obtain ⟨n, rfl⟩ := Nat.exists_eq_succ_of_ne_zero (show n ≠ 0 by omega)
    have hentries : entries ++ itemsOf ((name, value) :: member :: members) =
        entries ++ [(name, .value value.node)] ++ itemsOf (member :: members) := by
      simp [itemsOf]
    have hmembers : ((entries ++ [(name, Item.value value.node)]).map Prod.fst ++
        member.1 :: members.map Prod.fst).Nodup := by
      simpa using hdistinct
    have hmore := ih (n := n) (by omega) (fun other ho => hnames other (List.mem_cons_of_mem _ ho)) hmembers
      (hnames member (by simp)) (not_mem_of_nodup hmembers)
    rw [members?_step (by omega) hname hfresh, hentries, ← hmore]
    simp [tailTokens, definitionTokens, afterLines]

theorem nodes_itemsOf (members : List (String × Scalar)) :
    nodes (itemsOf members) = members.map fun member => (member.1, member.2.node) := by
  induction members with
  | nil => rfl
  | cons member members ih =>
    rw [List.map_cons, ← ih]
    rfl

theorem length_tailTokens (members : List (String × Scalar)) :
    (tailTokens members).length = 4 * members.length + 1 := by
  induction members with
  | nil => rfl
  | cons member members ih =>
    simp only [tailTokens, definitionTokens, List.cons_append, List.nil_append, List.length_cons, ih]
    omega

/-- A value is read with a unit of fuel for each of its tokens. -/
theorem value?_tokens {n : Nat} {value : Value} (h : value.IsPlain) (hn : value.tokens.length ≤ n)
    (rest : List Token) : value? n (value.tokens ++ rest) = some (value.node, rest) := by
  cases value with
  | scalar value => exact value?_scalar hn value rest
  | braces members =>
    cases members with
    | nil =>
      obtain ⟨n, rfl⟩ := Nat.exists_eq_add_of_le' (show 2 ≤ n from hn)
      rfl
    | cons member members =>
      have hlength := length_tailTokens members
      simp only [Value.tokens, definitionTokens, List.cons_append, List.nil_append, List.length_cons] at hn
      obtain ⟨n, rfl⟩ := Nat.exists_eq_succ_of_ne_zero (show n ≠ 0 by omega)
      have hdistinct : (([] : Entries).map Prod.fst ++ member.1 :: members.map Prod.fst).Nodup := h.2
      have hmembers := members?_tail (n := n) (by omega) (fun other ho => (h.1 other ho).1) hdistinct rest
      have hnodes := nodes_itemsOf (member :: members)
      simp only [definitionTokens, List.cons_append, List.nil_append] at hmembers
      simp [Value.tokens, definitionTokens, value?, afterLines, hmembers, hnodes, Value.node]

/-! ## Reading lines -/

/-- A line is read by doing what it does. -/
theorem entries?_line {n : Nat} {line : Line} (h : line.IsPlain) (hn : line.tokens.length ≤ n) (header : List String)
    (entries : Entries) (rest : List Token) :
    entries? (n + 1) header entries (line.tokens ++ rest) =
      (line.run header entries).bind fun after => entries? n after.1 after.2 rest := by
  cases line with
  | blank => rfl
  | comment text => rfl
  | header name =>
    simp only [Line.tokens, List.cons_append, List.nil_append, entries?, name?_word h, afterMark?, if_true, afterLine?,
      Line.run, Option.bind_eq_bind, Option.bind_some]
    cases entries.header [name] <;> rfl
  | definition name value =>
    have hvalue := value?_tokens (n := n) h.2 (by simp [Line.tokens, definitionTokens] at hn; omega) (.lineEnd :: rest)
    simp only [Line.tokens, definitionTokens, List.cons_append, List.append_assoc, List.nil_append, entries?,
      name?_word h.1, afterMark?, if_true, hvalue, afterLine?, Line.run, Option.bind_eq_bind, Option.bind_some]
    cases entries.defineUnder value.node [name] header <;> rfl

theorem entries?_lines {n : Nat} {lines : List Line} (h : ∀ line ∈ lines, line.IsPlain)
    (hn : (lines.flatMap Line.tokens).length < n) (header : List String) (entries : Entries) :
    entries? n header entries (lines.flatMap Line.tokens) = (run lines header entries).map Prod.snd := by
  induction lines generalizing n header entries with
  | nil =>
    obtain ⟨n, rfl⟩ := Nat.exists_eq_succ_of_ne_zero (show n ≠ 0 by omega)
    rfl
  | cons line lines ih =>
    have hpositive : 0 < line.tokens.length := by
      cases line <;> simp [Line.tokens, definitionTokens]
    rw [List.flatMap_cons, List.length_append] at hn
    obtain ⟨n, rfl⟩ := Nat.exists_eq_succ_of_ne_zero (show n ≠ 0 by omega)
    rw [List.flatMap_cons, entries?_line (h line List.mem_cons_self) (by omega)]
    cases hrun : line.run header entries with
    | none => simp [run, hrun]
    | some after =>
      have hrest := ih (n := n) (fun other ho => h other (List.mem_cons_of_mem _ ho)) (by omega) after.1 after.2
      simpa [run, hrun] using hrest

theorem withoutMark_lines {lines : List Line} (h : ∀ line ∈ lines, line.IsPlain) :
    withoutMark (lines.flatMap Line.characters) = lines.flatMap Line.characters := by
  have hmark : ∀ c rest, c ≠ '\ufeff' → withoutMark (c :: rest) = c :: rest := by
    intro c rest hc
    simp [withoutMark, hc]
  cases lines with
  | nil => rfl
  | cons line lines =>
    have hline := h line List.mem_cons_self
    cases line with
    | blank => exact hmark _ _ (by decide)
    | comment text => exact hmark _ _ (by decide)
    | header name => exact hmark _ _ (by decide)
    | definition name value =>
      obtain ⟨⟨hne, hbare⟩, -⟩ := hline
      obtain ⟨c, rest, hname⟩ := List.exists_cons_of_ne_nil hne
      rw [hname] at hbare
      have hc : c ≠ '\ufeff' := by
        rintro rfl
        exact absurd (List.all_eq_true.mp hbare _ List.mem_cons_self) (by decide)
      simp only [List.flatMap_cons, Line.characters, definitionCharacters, hname, List.cons_append]
      exact hmark c _ hc

/-- The data of lines is the entries that they make one after the other. -/
theorem read?_lines {lines : List Line} (h : ∀ line ∈ lines, line.IsPlain) :
    read? (lines.flatMap Line.characters) = (run lines [] []).map fun after => .table (nodes after.2) := by
  have hentries := entries?_lines (n := 2 * (lines.flatMap Line.tokens).length + 2) h (by omega) [] []
  simp only [read?, withoutMark_lines h, tokens?_lines h, Option.bind_eq_bind, Option.bind_some, hentries]
  cases run lines [] [] <;> rfl

end Rulebook.Settings.Toml
