/-
  Rulebook.Proofs.Settings.Yaml — YAML text that is written line by line is read line by line.

  A block is a name with a scalar behind it, or a name with scalars below it, further to
  the right (`Block`). A scalar is plain text, text between single quotes, or a number.
  Cutting goes from place to place: a line begins in the first column, and what stands on
  it moves the column on, so that the tokens know which of them are in line. Names below
  others end where the column goes back.
  - `tokens?_blocks`: blocks are cut into their tokens.
  - `members?_rows`: names in one column are read up to what stands to the left of them.
  - `read?_blocks`: the data of blocks.
-/

import Rulebook.Proofs.Settings.Address
import Rulebook.Settings.Yaml.Document

namespace Rulebook.Settings.Yaml

open Rulebook.Text (numeral)

/-! ## Cutting -/

variable {place middle after : Place} {line column depth : Nat} {fresh : Bool} {text more rest : List Char}
  {marks others : List Token}

/-- Whether a text in front of what follows it is cut into tokens, from one place to another. -/
def Cuts (place : Place) (text : List Char) (marks : List Token) (after : Place) (rest : List Char) : Prop :=
  tokensFrom? place (text ++ rest) = (tokensFrom? after rest).map (marks ++ ·)

theorem Cuts.append (hfirst : Cuts place text marks middle (more ++ rest)) (hmore : Cuts middle more others after rest) :
    Cuts place (text ++ more) (marks ++ others) after rest := by
  unfold Cuts at *
  rw [List.append_assoc, hfirst, hmore, Option.map_map]
  simp [Function.comp_def]

/-- Whether a character takes up a column and separates nothing. -/
def IsSolid (c : Char) : Prop := isReadable c = true ∧ isBreak c = false ∧ isBlank c = false

theorem IsSolid.ne {c : Char} (h : IsSolid c) : c ≠ ' ' ∧ c ≠ '\t' ∧ c ≠ '\r' ∧ c ≠ '\n' := by
  obtain ⟨-, hbreak, hblank⟩ := h
  refine ⟨?_, ?_, ?_, ?_⟩ <;> rintro rfl
  · exact absurd hblank (by decide)
  · exact absurd hblank (by decide)
  · exact absurd hbreak (by decide)
  · exact absurd hbreak (by decide)

theorem tokensFrom?_of_next {c : Char} {kind : Kind} (hc : IsSolid c) (hcomment : c ≠ '#')
    (h : place.next? c text = some (kind, rest)) :
    tokensFrom? place (c :: text) =
      (tokensFrom? (place.after kind (text.length + 1) rest.length) rest).map
        (⟨kind, place.line, place.column⟩ :: ·) := by
  obtain ⟨hspace, htab, hreturn, -⟩ := hc.ne
  have hbreak := hc.2.1
  rw [tokensFrom?]
  simp only [hbreak, hspace, htab, hreturn, hcomment, Bool.false_eq_true, false_and, or_self, if_false]
  rw [h]

theorem cuts_blank : Cuts ⟨line, column, depth, fresh⟩ [' '] [] ⟨line, column + 1, depth, fresh⟩ rest := by
  unfold Cuts
  rw [List.singleton_append, tokensFrom?]
  simp [isBreak]

theorem cuts_break : Cuts ⟨line, column, depth, fresh⟩ ['\n'] [] ⟨line + 1, 0, depth, true⟩ rest := by
  unfold Cuts
  rw [List.singleton_append, tokensFrom?]
  simp [isBreak]

theorem cuts_indent (width : Nat) :
    Cuts ⟨line, 0, depth, fresh⟩ (List.replicate width ' ') [] ⟨line, width, depth, fresh⟩ rest := by
  have hfrom : ∀ column, Cuts ⟨line, column, depth, fresh⟩ (List.replicate width ' ') []
      ⟨line, column + width, depth, fresh⟩ rest := by
    induction width with
    | zero => simp [Cuts]
    | succ width ih =>
      intro column
      rw [List.replicate_succ, Nat.add_comm width 1, ← Nat.add_assoc]
      exact cuts_blank.append (ih (column + 1))
  simpa using hfrom 0

theorem cuts_colon (h : atBlank rest = true) :
    Cuts ⟨line, column, 0, fresh⟩ [':'] [⟨.colon, line, column⟩] ⟨line, column + 1, 0, false⟩ rest := by
  have hsolid : IsSolid ':' := by unfold IsSolid; decide
  have hnext : Place.next? ⟨line, column, 0, fresh⟩ ':' rest = some (.colon, rest) := by
    simp [Place.next?, marker?, Kind.next?, h]
  have hcut := tokensFrom?_of_next hsolid (by decide) hnext
  simpa [Cuts, Place.after] using hcut

/-! ## Scalars -/

/-- Whether a text is a plain scalar wherever a plain scalar may stand. -/
structure IsPlain (text : List Char) : Prop where
  starts : ∃ c more, text = c :: more ∧ startsPlain c = true ∧ c ≠ '.'
  solid : ∀ c ∈ text, IsSolid c
  last : text.getLast? ≠ some ':'

theorem plain?_append (hsolid : ∀ c ∈ text, IsSolid c) (hlast : text.getLast? ≠ some ':')
    (hrest : plain? false [] rest = some ([], rest)) : plain? false [] (text ++ rest) = some (text, rest) := by
  induction text with
  | nil => exact hrest
  | cons c text ih =>
    obtain ⟨-, hbreak, hblank⟩ := hsolid c List.mem_cons_self
    have hmore := ih (fun d hd => hsolid d (List.mem_cons_of_mem _ hd)) (by
      cases text with
      | nil => simp
      | cons d text => simpa using hlast)
    have hcolon : ¬ (c = ':' ∧ atBlank (text ++ rest) = true) := by
      rintro ⟨rfl, hat⟩
      cases text with
      | nil => exact hlast rfl
      | cons d text =>
        obtain ⟨-, hdbreak, hdblank⟩ := hsolid d (by simp)
        simp [atBlank, hdbreak, hdblank] at hat
    simp [plain?, hbreak, hblank, hcolon, hmore]

theorem plain?_break : plain? false [] ('\n' :: rest) = some ([], '\n' :: rest) := rfl

theorem plain?_colon (h : atBlank rest = true) : plain? false [] (':' :: rest) = some ([], ':' :: rest) := by
  simp [plain?, isBreak, isBlank, h]

theorem cuts_plain (h : IsPlain text) (hrest : plain? false [] rest = some ([], rest)) :
    Cuts ⟨line, column, 0, fresh⟩ text [⟨.plain text, line, column⟩] ⟨line, column + text.length, 0, false⟩ rest := by
  obtain ⟨⟨c, more, rfl, hstarts, hpoint⟩, hsolid, hlast⟩ := h
  have hne : ∀ d, startsPlain d = false → c ≠ d := by
    rintro d hd rfl
    exact Bool.false_ne_true (hd.symm.trans hstarts)
  have hplain : plain? false [] (more ++ rest) = some (more, rest) := by
    refine plain?_append (fun d hd => hsolid d (List.mem_cons_of_mem _ hd)) ?_ hrest
    cases more with
    | nil => simp
    | cons d more => simpa using hlast
  have hmarker : marker? (c :: (more ++ rest)) = none := by
    unfold marker?
    split
    · rename_i heq
      exact absurd (List.cons.inj heq).1 (hne '-' (by decide))
    · rename_i heq
      exact absurd (List.cons.inj heq).1 hpoint
    · rfl
  have hnext : Place.next? ⟨line, column, 0, fresh⟩ c (more ++ rest) = some (.plain (c :: more), rest) := by
    simp [Place.next?, hmarker, Kind.next?, hne '\x7b' (by decide), hne ':' (by decide), hne '\'' (by decide),
      hne '"' (by decide), hstarts, hplain]
  have hcut := tokensFrom?_of_next (hsolid c List.mem_cons_self) (hne '#' (by decide)) hnext
  have hcolumn : column + (more.length + rest.length + 1 - rest.length) = column + (more.length + 1) := by omega
  simpa [Cuts, Place.after, hcolumn] using hcut

theorem single?_append (h : ∀ c ∈ text, IsSolid c ∧ c ≠ '\'') (hrest : rest.head? ≠ some '\'') :
    single? (text ++ '\'' :: rest) = some (text, rest) := by
  induction text with
  | nil =>
    cases rest with
    | nil => rfl
    | cons d rest =>
      have hd : d ≠ '\'' := by simpa using hrest
      simp [single?, hd]
  | cons c text ih =>
    obtain ⟨⟨-, hbreak, -⟩, hquote⟩ := h c List.mem_cons_self
    have hmore := ih fun d hd => h d (List.mem_cons_of_mem _ hd)
    obtain ⟨d, others, heq⟩ := List.exists_cons_of_ne_nil (show text ++ '\'' :: rest ≠ [] by simp)
    rw [heq] at hmore
    simp [heq, single?, hquote, hbreak, hmore]

theorem cuts_quoted (h : ∀ c ∈ text, IsSolid c ∧ c ≠ '\'') (hrest : rest.head? ≠ some '\'') :
    Cuts ⟨line, column, 0, fresh⟩ ('\'' :: text ++ ['\'']) [⟨.quoted text, line, column⟩]
      ⟨line, column + (text.length + 2), 0, false⟩ rest := by
  have hsolid : IsSolid '\'' := by unfold IsSolid; decide
  have hnext : Place.next? ⟨line, column, 0, fresh⟩ '\'' (text ++ '\'' :: rest) = some (.quoted text, rest) := by
    simp [Place.next?, marker?, Kind.next?, single?_append h hrest]
  have hcut := tokensFrom?_of_next hsolid (by decide) hnext
  have hcolumn : column + (text.length + (rest.length + 1) + 1 - rest.length) = column + (text.length + 2) := by omega
  simpa [Cuts, Place.after, hcolumn] using hcut

inductive Scalar where
  | plain (text : List Char)
  | quoted (text : List Char)
  | size (n : Nat)

def Scalar.characters : Scalar → List Char
  | .plain text => text
  | .quoted text => '\'' :: text ++ ['\'']
  | .size n => numeral n

def Scalar.kind : Scalar → Kind
  | .plain text => .plain text
  | .quoted text => .quoted text
  | .size n => .plain (numeral n)

def Scalar.node : Scalar → Node
  | .plain text => .text (String.ofList text)
  | .quoted text => .text (String.ofList text)
  | .size n => .size n

def Scalar.IsPlain : Scalar → Prop
  | .plain text => Yaml.IsPlain text ∧ number? text = none
  | .quoted text => text ≠ [] ∧ ∀ c ∈ text, IsSolid c ∧ c ≠ '\''
  | .size n => n ≤ Text.wordMax

theorem isPlain_numeral (n : Nat) : IsPlain (numeral n) := by
  have hall : ∀ d : Fin 10, isReadable (Nat.digitChar d.val) = true ∧ isBreak (Nat.digitChar d.val) = false ∧
      isBlank (Nat.digitChar d.val) = false ∧ startsPlain (Nat.digitChar d.val) = true ∧
      Nat.digitChar d.val ≠ '.' ∧ Nat.digitChar d.val ≠ ':' := by decide
  have hdigit : ∀ c ∈ numeral n, IsSolid c ∧ startsPlain c = true ∧ c ≠ '.' ∧ c ≠ ':' := fun c hc =>
    Text.forall_mem_toDigits (by decide) (fun c => IsSolid c ∧ startsPlain c = true ∧ c ≠ '.' ∧ c ≠ ':')
      (fun d hd => by
        obtain ⟨hreadable, hbreak, hblank, hothers⟩ := hall ⟨d, hd⟩
        exact ⟨⟨hreadable, hbreak, hblank⟩, hothers⟩) hc
  refine ⟨?_, fun c hc => (hdigit c hc).1, ?_⟩
  · obtain ⟨c, more, heq⟩ := List.exists_cons_of_ne_nil (show numeral n ≠ [] from Nat.toDigits_ne_nil)
    have hc := hdigit c (by simp [heq])
    exact ⟨c, more, heq, hc.2.1, hc.2.2.1⟩
  · intro hlast
    exact (hdigit ':' (List.mem_of_getLast? hlast)).2.2.2 rfl

theorem cuts_scalar {value : Scalar} (h : value.IsPlain) :
    Cuts ⟨line, column, 0, fresh⟩ value.characters [⟨value.kind, line, column⟩]
      ⟨line, column + value.characters.length, 0, false⟩ ('\n' :: rest) := by
  cases value with
  | plain text => exact cuts_plain h.1 plain?_break
  | quoted text =>
    have hlength : (Scalar.quoted text).characters.length = text.length + 2 := by simp [Scalar.characters]
    rw [hlength]
    exact cuts_quoted h.2 (by simp)
  | size n => exact cuts_plain (isPlain_numeral n) plain?_break

theorem number?_numeral {n : Nat} (h : n ≤ Text.wordMax) : number? (numeral n) = some n := by
  have hdigit : ∀ c ∈ numeral n, Text.isDigitIn 10 c = true := fun _ => Text.isDigitIn_of_mem_numeral
  have hvalue : Text.valueIn 10 (numeral n) = n := Text.valueIn_toDigits (by decide) (by decide) n
  have hdecimal : numberIn? 10 (numeral n) = some n := by
    have hall : (numeral n).all (Text.isDigitIn 10) = true := List.all_eq_true.mpr hdigit
    have hne : numeral n ≠ [] := Nat.toDigits_ne_nil
    simp [numberIn?, hne, hall, hvalue, h]
  have hplus : ∀ rest, numeral n ≠ '+' :: rest := by
    intro rest heq
    exact absurd (hdigit '+' (by simp [heq])) (by decide)
  unfold number?
  split
  · exact absurd ‹_› (hplus _)
  · dsimp only
    split
    · exact absurd ‹_› (Text.numeral_ne_zero_cons n _ _)
    · exact absurd ‹_› (Text.numeral_ne_zero_cons n _ _)
    · exact absurd ‹_› (Text.numeral_ne_zero_cons n _ _)
    · exact absurd ‹_› (Text.numeral_ne_zero_cons n _ _)
    · exact hdecimal

theorem node?_scalar {value : Scalar} (h : value.IsPlain) (line column : Nat) :
    Token.node? ⟨value.kind, line, column⟩ = some value.node := by
  cases value with
  | plain text => simp [Token.node?, Scalar.kind, Scalar.node, h.2]
  | quoted text =>
    obtain ⟨c, more, rfl⟩ := List.exists_cons_of_ne_nil h.1
    rfl
  | size n => simp [Token.node?, Scalar.kind, Scalar.node, number?_numeral h]

/-! ## Lines -/

/-- A name with what it holds: a scalar on its line, or names with scalars on the lines below. -/
inductive Block where
  | inline (row : String × Scalar)
  | nested (name : String) (members : List (String × Scalar))

def nameTokens (line column : Nat) (name : String) : List Token :=
  [⟨.plain name.toList, line, column⟩, ⟨.colon, line, column + name.toList.length⟩]

def rowCharacters (column : Nat) (row : String × Scalar) : List Char :=
  List.replicate column ' ' ++ (row.1.toList ++ [':']) ++ ([' '] ++ row.2.characters ++ ['\n'])

def rowTokens (line column : Nat) (row : String × Scalar) : List Token :=
  nameTokens line column row.1 ++ [⟨row.2.kind, line, column + row.1.toList.length + 2⟩]

def rowsTokens (line column : Nat) : List (String × Scalar) → List Token
  | [] => []
  | row :: rows => rowTokens line column row ++ rowsTokens (line + 1) column rows

def Block.characters : Block → List Char
  | .inline row => rowCharacters 0 row
  | .nested name members => name.toList ++ [':'] ++ ['\n'] ++ members.flatMap (rowCharacters 2)

def Block.height : Block → Nat
  | .inline _ => 1
  | .nested _ members => members.length + 1

def Block.tokens (line : Nat) : Block → List Token
  | .inline row => rowTokens line 0 row
  | .nested name members => nameTokens line 0 name ++ rowsTokens (line + 1) 2 members

def blocksTokens (line : Nat) : List Block → List Token
  | [] => []
  | block :: blocks => block.tokens line ++ blocksTokens (line + block.height) blocks

def rowEntry (row : String × Scalar) : String × Node := (row.1, row.2.node)

/-- What a block holds: nothing, if there is nothing below its name. -/
def Block.entry : Block → String × Node
  | .inline row => rowEntry row
  | .nested name [] => (name, .nothing)
  | .nested name members => (name, .table (members.map rowEntry))

def IsRow (row : String × Scalar) : Prop := IsPlain row.1.toList ∧ row.2.IsPlain

def Block.IsPlain : Block → Prop
  | .inline row => IsRow row
  | .nested name members => Yaml.IsPlain name.toList ∧ ∀ row ∈ members, IsRow row

theorem cuts_name {name : String} (h : IsPlain name.toList) (hrest : atBlank rest = true) :
    Cuts ⟨line, column, 0, fresh⟩ (name.toList ++ [':']) (nameTokens line column name)
      ⟨line, column + name.toList.length + 1, 0, false⟩ rest :=
  (cuts_plain h (plain?_colon hrest)).append (cuts_colon hrest)

theorem cuts_row {row : String × Scalar} (h : IsRow row) :
    Cuts ⟨line, 0, 0, true⟩ (rowCharacters column row) (rowTokens line column row) ⟨line + 1, 0, 0, true⟩ rest := by
  have hscalar : ∀ {column}, Cuts ⟨line, column, 0, false⟩ ([' '] ++ row.2.characters ++ ['\n'])
      [⟨row.2.kind, line, column + 1⟩] ⟨line + 1, 0, 0, true⟩ rest :=
    (cuts_blank.append (cuts_scalar h.2)).append cuts_break
  exact ((cuts_indent column).append (cuts_name h.1 rfl)).append hscalar

theorem cuts_rows {rows : List (String × Scalar)} (h : ∀ row ∈ rows, IsRow row) :
    Cuts ⟨line, 0, 0, true⟩ (rows.flatMap (rowCharacters column)) (rowsTokens line column rows)
      ⟨line + rows.length, 0, 0, true⟩ rest := by
  induction rows generalizing line with
  | nil => simp [Cuts, rowsTokens]
  | cons row rows ih =>
    have hrows : Cuts ⟨line + 1, 0, 0, true⟩ (rows.flatMap (rowCharacters column)) (rowsTokens (line + 1) column rows)
        ⟨line + 1 + rows.length, 0, 0, true⟩ rest := ih fun other ho => h other (List.mem_cons_of_mem _ ho)
    rw [List.flatMap_cons, List.length_cons, Nat.add_comm rows.length, ← Nat.add_assoc]
    exact (cuts_row (h row List.mem_cons_self)).append hrows

theorem cuts_block {block : Block} (h : block.IsPlain) :
    Cuts ⟨line, 0, 0, true⟩ block.characters (block.tokens line) ⟨line + block.height, 0, 0, true⟩ rest := by
  cases block with
  | inline row => exact cuts_row h
  | nested name members =>
    have hname : Cuts ⟨line, 0, 0, true⟩ (name.toList ++ [':'] ++ ['\n']) (nameTokens line 0 name)
        ⟨line + 1, 0, 0, true⟩ (members.flatMap (rowCharacters 2) ++ rest) :=
      (cuts_name h.1 rfl).append cuts_break
    have hblock := hname.append (cuts_rows h.2)
    rwa [Nat.add_assoc, Nat.add_comm 1] at hblock

theorem tokensFrom?_blocks {blocks : List Block} (h : ∀ block ∈ blocks, block.IsPlain) :
    tokensFrom? ⟨line, 0, 0, true⟩ (blocks.flatMap Block.characters) = some (blocksTokens line blocks) := by
  induction blocks generalizing line with
  | nil => simp [tokensFrom?, blocksTokens]
  | cons block blocks ih =>
    have hblock : Cuts ⟨line, 0, 0, true⟩ block.characters (block.tokens line) ⟨line + block.height, 0, 0, true⟩
      (blocks.flatMap Block.characters) := cuts_block (h block List.mem_cons_self)
    rw [List.flatMap_cons, hblock, ih fun other ho => h other (List.mem_cons_of_mem _ ho)]
    rfl

/-! ## Reading tokens -/

theorem afterColon?_nameTokens (line column : Nat) (name : String) (rest : List Token) :
    afterColon? ⟨.plain name.toList, line, column⟩ (⟨.colon, line, column + name.toList.length⟩ :: rest) = some rest := by
  simp [afterColon?]

/-- Whether tokens go on to the left of a column, if they go on, and with no colon. -/
def Ends (column : Nat) (others : List Token) : Prop :=
  ∀ token ∈ others.head?, token.column < column ∧ token.kind ≠ .colon

def NoColon (others : List Token) : Prop := ∀ token ∈ others.head?, token.kind ≠ .colon

theorem NoColon.afterColon?_eq_none (h : NoColon others) (token : Token) : afterColon? token others = none := by
  cases others with
  | nil => rfl
  | cons other others => simp [afterColon?, h other rfl]

theorem noColon_rows (line : Nat) (rows : List (String × Scalar)) (h : Ends column others) :
    NoColon (rowsTokens line column rows ++ others) := by
  intro token htoken
  cases rows with
  | nil => exact (h token htoken).2
  | cons row rows =>
    cases htoken
    exact nofun

theorem kind_ne_marker (value : Scalar) (line column : Nat) :
    Token.isMarker ⟨value.kind, line, column⟩ = false ∧ value.kind ≠ .opening := by
  cases value <;> exact ⟨rfl, nofun⟩

theorem lineValue?_scalar {n : Nat} (hn : 1 < n) {value : Scalar} (h : value.IsPlain) (ho : NoColon others)
    (name : Token) (column : Nat) :
    lineValue? n name (⟨value.kind, name.line, column⟩ :: others) = some (value.node, others) := by
  obtain ⟨n, rfl⟩ := Nat.exists_eq_add_of_le' (show 2 ≤ n from hn)
  obtain ⟨hmarker, hopening⟩ := kind_ne_marker value name.line column
  simp [lineValue?, value?, hmarker, hopening, ho.afterColon?_eq_none, node?_scalar h]

/-- The first entry of a mapping in a column is the one of the name that stands there. -/
theorem members?_name {n : Nat} (line column : Nat) (name : String) (others : List Token) :
    members? (n + 1) column (nameTokens line column name ++ others) =
      (lineValue? n ⟨.plain name.toList, line, column⟩ others).bind fun found =>
        (members? n column found.2).map fun rest => ((name, found.1) :: rest.1, rest.2) := by
  have hmarker : Token.isMarker ⟨.plain name.toList, line, column⟩ = false := rfl
  have hscalar : Token.scalar? ⟨.plain name.toList, line, column⟩ = some name := by simp [Token.scalar?]
  simp only [nameTokens, List.cons_append, List.nil_append, members?, afterColon?_nameTokens, hmarker, hscalar,
    Bool.false_eq_true, Nat.lt_irrefl, or_self, if_false, ne_eq, not_true_eq_false, Option.bind_eq_bind,
    Option.bind_some]
  simp only [Option.map_eq_bind]
  rfl

/-- Names in one column are read up to what stands to the left of them. -/
theorem members?_rows {n : Nat} {rows : List (String × Scalar)} (hn : rows.length + 1 < n)
    (h : ∀ row ∈ rows, IsRow row) (ho : Ends column others) :
    members? n column (rowsTokens line column rows ++ others) = some (rows.map rowEntry, others) := by
  induction rows generalizing n line with
  | nil =>
    obtain ⟨n, rfl⟩ := Nat.exists_eq_succ_of_ne_zero (show n ≠ 0 by omega)
    cases others with
    | nil => rfl
    | cons other others => simp [rowsTokens, members?, (ho other rfl).1]
  | cons row rows ih =>
    rw [List.length_cons] at hn
    obtain ⟨n, rfl⟩ := Nat.exists_eq_succ_of_ne_zero (show n ≠ 0 by omega)
    have hrows : members? n column (rowsTokens (line + 1) column rows ++ others) = some (rows.map rowEntry, others) :=
      ih (by omega) fun other hother => h other (List.mem_cons_of_mem _ hother)
    have hvalue := lineValue?_scalar (n := n) (by omega) (h row List.mem_cons_self).2 (noColon_rows (line + 1) rows ho)
      ⟨.plain row.1.toList, line, column⟩ (column + row.1.toList.length + 2)
    rw [rowsTokens, rowTokens, List.append_assoc, List.append_assoc, members?_name, List.singleton_append, hvalue]
    simp [hrows, rowEntry]

/-- A name with its colon starts a mapping in its column. -/
theorem value?_name (n line column : Nat) (name : String) (others : List Token) :
    value? (n + 1) false (nameTokens line column name ++ others) =
      (members? n column (nameTokens line column name ++ others)).map fun found => (.table found.1, found.2) := by
  simp [value?, nameTokens, afterColon?]

/-- The value of a name with names below it is their mapping, or nothing if there are none. -/
theorem lineValue?_rows {n : Nat} {rows : List (String × Scalar)} (hn : rows.length + 3 < n)
    (h : ∀ row ∈ rows, IsRow row) (ho : Ends 1 others) (hline : ∀ token ∈ others.head?, token.line ≠ line)
    (name : String) :
    lineValue? n ⟨.plain name.toList, line, 0⟩ (rowsTokens (line + 1) 2 rows ++ others) =
      some ((Block.nested name rows).entry.2, others) := by
  obtain ⟨n, rfl⟩ := Nat.exists_eq_add_of_le' (show 2 ≤ n by omega)
  cases rows with
  | nil =>
    cases others with
    | nil => rfl
    | cons other others =>
      have hcolumn : other.column ≤ 0 := Nat.le_of_lt_succ (ho other rfl).1
      simp [rowsTokens, lineValue?, hline other rfl, hcolumn, Block.entry]
  | cons row rows =>
    have hends : Ends 2 others := fun token htoken => ⟨Nat.lt_succ_of_lt (ho token htoken).1, (ho token htoken).2⟩
    have hrows : members? n 2 (rowsTokens (line + 1) 2 (row :: rows) ++ others) =
        some ((row :: rows).map rowEntry, others) := members?_rows (by omega) h hends
    have hvalue := value?_name n (line + 1) 2 row.1
      ([⟨row.2.kind, line + 1, 2 + row.1.toList.length + 2⟩] ++ rowsTokens (line + 1 + 1) 2 rows ++ others)
    have hmarker : Token.isMarker ⟨.plain row.1.toList, line + 1, 2⟩ = false := rfl
    rw [rowsTokens, rowTokens, List.append_assoc, List.append_assoc] at hrows ⊢
    rw [List.append_assoc, hrows] at hvalue
    simp only [nameTokens, List.cons_append, List.nil_append] at hvalue ⊢
    simp [lineValue?, hmarker, hvalue, Block.entry]

theorem length_rowsTokens (line column : Nat) (rows : List (String × Scalar)) :
    (rowsTokens line column rows).length = 3 * rows.length := by
  induction rows generalizing line with
  | nil => rfl
  | cons row rows ih =>
    rw [rowsTokens, List.length_append, ih, List.length_cons, rowTokens, nameTokens, List.length_append]
    simp only [List.length_cons, List.length_nil]
    omega

/-- A block is read in front of what is below it. -/
theorem members?_block {n : Nat} {block : Block} (hn : 2 * (block.tokens line).length ≤ n) (h : block.IsPlain)
    (ho : Ends 1 others) (hline : ∀ token ∈ others.head?, token.line ≠ line) :
    members? (n + 1) 0 (block.tokens line ++ others) =
      (members? n 0 others).map fun rest => (block.entry :: rest.1, rest.2) := by
  cases block with
  | inline row =>
    have hlength : (Block.tokens line (.inline row)).length = 3 := rfl
    have hvalue := lineValue?_scalar (n := n) (by omega) h.2 (fun token ht => (ho token ht).2)
      ⟨.plain row.1.toList, line, 0⟩ (0 + row.1.toList.length + 2)
    rw [Block.tokens, rowTokens, List.append_assoc, members?_name, List.singleton_append, hvalue]
    rfl
  | nested name members =>
    have hlength := length_rowsTokens (line + 1) 2 members
    rw [Block.tokens, List.length_append, hlength] at hn
    have hvalue := lineValue?_rows (n := n) (by simp [nameTokens] at hn; omega) h.2 ho hline name
    have hentry : (Block.nested name members).entry = (name, (Block.nested name members).entry.2) := by
      cases members <;> rfl
    rw [Block.tokens, List.append_assoc, members?_name, hvalue, hentry]
    rfl

theorem head_blocks (line : Nat) (blocks : List Block) :
    ∀ token ∈ (blocksTokens line blocks).head?, token.line = line ∧ token.column = 0 ∧ token.kind ≠ .colon := by
  intro token htoken
  cases blocks with
  | nil => cases htoken
  | cons block blocks =>
    cases block with
    | inline row =>
      cases htoken
      exact ⟨rfl, rfl, nofun⟩
    | nested name members =>
      cases htoken
      exact ⟨rfl, rfl, nofun⟩

theorem members?_blocks {n : Nat} {blocks : List Block} (hn : 2 * (blocksTokens line blocks).length < n)
    (h : ∀ block ∈ blocks, block.IsPlain) :
    members? n 0 (blocksTokens line blocks) = some (blocks.map Block.entry, []) := by
  induction blocks generalizing n line with
  | nil =>
    obtain ⟨n, rfl⟩ := Nat.exists_eq_succ_of_ne_zero (show n ≠ 0 by omega)
    rfl
  | cons block blocks ih =>
    obtain ⟨n, rfl⟩ := Nat.exists_eq_succ_of_ne_zero (show n ≠ 0 by omega)
    have hheight : 0 < block.height := by cases block <;> simp [Block.height]
    have htokens : 0 < (block.tokens line).length := by
      cases block <;> simp [Block.tokens, rowTokens, nameTokens]
    have hends : Ends 1 (blocksTokens (line + block.height) blocks) := by
      intro token htoken
      obtain ⟨-, hcolumn, hkind⟩ := head_blocks _ _ token htoken
      exact ⟨by omega, hkind⟩
    have hlines : ∀ token ∈ (blocksTokens (line + block.height) blocks).head?, token.line ≠ line := by
      intro token htoken
      have hline := (head_blocks _ _ token htoken).1
      omega
    rw [blocksTokens, List.length_append] at hn
    rw [blocksTokens, members?_block (by omega) (h block List.mem_cons_self) hends hlines,
      ih (by omega) fun other hother => h other (List.mem_cons_of_mem _ hother)]
    rfl

/-! ## Documents -/

theorem all_isReadable_of_isPlain (h : IsPlain text) : text.all isReadable = true :=
  List.all_eq_true.mpr fun c hc => (h.solid c hc).1

theorem all_isReadable_scalar {value : Scalar} (h : value.IsPlain) : value.characters.all isReadable = true := by
  have hquote : isReadable '\'' = true := by decide
  cases value with
  | plain text => exact all_isReadable_of_isPlain h.1
  | quoted text =>
    have htext : text.all isReadable = true := List.all_eq_true.mpr fun c hc => (h.2 c hc).1.1
    simp [Scalar.characters, hquote, htext]
  | size n => exact all_isReadable_of_isPlain (isPlain_numeral n)

theorem all_isReadable_row {row : String × Scalar} (h : IsRow row) (column : Nat) :
    (rowCharacters column row).all isReadable = true := by
  have hothers : isReadable ' ' = true ∧ isReadable ':' = true ∧ isReadable '\n' = true := by decide
  simp [rowCharacters, hothers, all_isReadable_of_isPlain h.1, all_isReadable_scalar h.2, List.all_replicate]

theorem all_isReadable_block {block : Block} (h : block.IsPlain) : block.characters.all isReadable = true := by
  have hothers : isReadable ':' = true ∧ isReadable '\n' = true := by decide
  cases block with
  | inline row => exact all_isReadable_row h 0
  | nested name members =>
    have hmembers : (members.flatMap (rowCharacters 2)).all isReadable = true := by
      rw [List.all_flatMap]
      exact List.all_eq_true.mpr fun row hrow => all_isReadable_row (h.2 row hrow) 2
    simp only [Block.characters, List.all_append, all_isReadable_of_isPlain h.1, hmembers, List.all_cons, List.all_nil,
      hothers, Bool.and_self]

theorem tokens?_blocks {blocks : List Block} (h : ∀ block ∈ blocks, block.IsPlain) :
    tokens? (blocks.flatMap Block.characters) = some (blocksTokens 0 blocks) := by
  have hreadable : (blocks.flatMap Block.characters).all isReadable = true := by
    rw [List.all_flatMap]
    exact List.all_eq_true.mpr fun block hblock => all_isReadable_block (h block hblock)
  have hmark : ∀ more, blocks.flatMap Block.characters ≠ '\ufeff' :: more := by
    intro more heq
    rw [heq] at hreadable
    exact absurd (List.all_eq_true.mp hreadable _ List.mem_cons_self) (by decide)
  unfold tokens?
  split
  · exact absurd ‹_› (hmark _)
  · dsimp only
    rw [if_pos hreadable, tokensFrom?_blocks h]

theorem blocksTokens_cons (line : Nat) (block : Block) (blocks : List Block) :
    ∃ name others, blocksTokens line (block :: blocks) = nameTokens line 0 name ++ others := by
  cases block with
  | inline row => exact ⟨row.1, _, List.append_assoc ..⟩
  | nested name members => exact ⟨name, _, List.append_assoc ..⟩

/-- The data of blocks: their mapping, or nothing if there are none. -/
theorem read?_blocks {blocks : List Block} (h : ∀ block ∈ blocks, block.IsPlain) :
    read? (blocks.flatMap Block.characters) =
      some (if blocks.isEmpty then .nothing else .table (blocks.map Block.entry)) := by
  have htokens := tokens?_blocks h
  have hmembers : members? (2 * (blocksTokens 0 blocks).length + 1) 0 (blocksTokens 0 blocks) =
      some (blocks.map Block.entry, []) := members?_blocks (by omega) h
  unfold read?
  rw [htokens]
  cases blocks with
  | nil => rfl
  | cons block blocks =>
    obtain ⟨name, others, heq⟩ := blocksTokens_cons 0 block blocks
    have hvalue := value?_name (2 * (blocksTokens 0 (block :: blocks)).length + 1) 0 0 name others
    rw [← heq, hmembers] at hvalue
    have hstart : afterStart (blocksTokens 0 (block :: blocks)) = (false, blocksTokens 0 (block :: blocks)) := by
      rw [heq]
      rfl
    have hbody : ∃ token ∈ blocksTokens 0 (block :: blocks), token.kind ≠ .stop := by
      rw [heq]
      exact ⟨_, List.mem_cons_self, nofun⟩
    simp [hstart, hbody, hvalue]

end Rulebook.Settings.Yaml
