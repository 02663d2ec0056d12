/-
  Rulebook.Proofs.Feel.Term — rules as terms, and how rules and the engine write them.

  Rules and the engine write the same terms and differ in spelling: the signs of some
  operators, negation, the clock, names of several words, and what stands as an index
  (`Spelling`, `Term.text`). Operands stand in brackets. So does what an index follows,
  unless it is a name, a member, a call or an index itself, and a string literal of which
  a member is taken.
  - `startsBare_text`: for the engine a term other than a string literal starts with ink
    that is no quote.
  - `last_text`: every term ends with ink.
-/

import Rulebook.Extension.Verification
import Rulebook.Feel.Index
import Rulebook.Proofs.Feel.Calls

namespace Rulebook.Feel

open Rulebook.Text (isBlank isWordStart isWordChar numeral not_isBlank_of_isWordChar)

/-! ## Terms -/

def keywords : List (List Char) := [
  "and".toList, "or".toList, "not".toList, "now".toList, "in".toList, "then".toList, "else".toList, "return".toList]

structure Name where
  first : Char
  rest : List Char
  starts : isWordStart first = true
  goesOn : ∀ c ∈ rest, isWordChar c = true
  free : first :: rest ∉ keywords

def Name.text (name : Name) : List Char := name.first :: name.rest

theorem Name.text_ne_nil (name : Name) : name.text ≠ [] := List.cons_ne_nil _ _

theorem Name.isWordChar_of_mem {name : Name} {c : Char} (h : c ∈ name.text) : isWordChar c = true := by
  rcases List.mem_cons.mp h with rfl | h
  · exact Text.isWordChar_of_isWordStart name.starts
  · exact name.goesOn c h

inductive Piece where
  | plain (c : Char) (unquoted : c ≠ '"') (unescaped : c ≠ '\\')
  | escaped (c : Char)

def Piece.text : Piece → List Char
  | .plain c _ _ => [c]
  | .escaped c => ['\\', c]

inductive Operator where
  | and
  | or
  | equal
  | unequal
  | less
  | lessEqual
  | greater
  | greaterEqual
  | plus
  | minus
  | times
  | elem
  deriving DecidableEq, Repr

/-- A function of several words that every registry starts from. -/
abbrev Builtin := { extension : Extension // extension ∈ Registry.builtin.toList }

inductive Term where
  | number (n : Nat)
  | boolean (b : Bool)
  | null
  | string (pieces : List Piece)
  | name (name : Name)
  | member (of : Term) (name : Name)
  | method (of : Term) (name : Name) (args : List Term)
  | call (name : Name) (args : List Term)
  | extension (function : Builtin) (args : List Term)
  | clock
  | timestamp (of : Term)
  | not (of : Term)
  | minus (of : Term)
  | binary (op : Operator) (left right : Term)
  | list (items : List Term)
  | index (base place : Term)

/-- Induction on a term, with the statement for each of several arguments. -/
@[elab_as_elim, induction_eliminator]
theorem Term.induct {motive : Term → Prop} (number : ∀ n, motive (.number n)) (boolean : ∀ b, motive (.boolean b))
    (null : motive .null) (string : ∀ pieces, motive (.string pieces)) (name : ∀ x, motive (.name x))
    (member : ∀ t m, motive t → motive (.member t m))
    (method : ∀ t m args, motive t → (∀ a ∈ args, motive a) → motive (.method t m args))
    (call : ∀ f args, (∀ a ∈ args, motive a) → motive (.call f args))
    (extension : ∀ f args, (∀ a ∈ args, motive a) → motive (.extension f args)) (clock : motive .clock)
    (timestamp : ∀ t, motive t → motive (.timestamp t)) (not : ∀ t, motive t → motive (.not t))
    (minus : ∀ t, motive t → motive (.minus t))
    (binary : ∀ op a b, motive a → motive b → motive (.binary op a b))
    (list : ∀ items, (∀ a ∈ items, motive a) → motive (.list items))
    (index : ∀ b i, motive b → motive i → motive (.index b i)) (t : Term) : motive t :=
  @Term.rec motive (fun ts => ∀ a ∈ ts, motive a) number boolean null string name member method call extension clock
    timestamp not minus binary list index (by simp)
    (fun _ _ ha hts => List.forall_mem_cons.mpr ⟨ha, hts⟩) t

/-! ## Writing -/

def bracketed (text : List Char) : List Char := '(' :: (text ++ [')'])

theorem Passes.bracketed {phrases : List Phrase} {before out text written rest : List Char}
    (h : Passes phrases ('(' :: before) ('(' :: out) text written (')' :: rest)) :
    Passes phrases before out (bracketed text) (bracketed written) rest := by
  have hclose : Passes phrases (text.reverse ++ '(' :: before) (written.reverse ++ '(' :: out) [')'] [')'] rest :=
    .char (isCopied_sign (by decide) _)
  exact .cons (isCopied_sign (by decide) _) (h.append hclose)

def bracketedIf (needed : Bool) (text : List Char) : List Char := if needed then bracketed text else text

/-- What is spelled in one way by rules and in another by the engine. -/
structure Spelling where
  sign : Operator → List Char
  negation : List Char
  clock : List Char
  timestamp : List Char
  builtin : Builtin → List Char
  /-- The text of a term where it is an index. -/
  placed : Term → List Char → List Char

def Spelling.feel : Spelling where
  sign
    | .and => "and".toList
    | .or => "or".toList
    | .equal => ['=']
    | .unequal => ['!', '=']
    | .less => ['<']
    | .lessEqual => ['<', '=']
    | .greater => ['>']
    | .greaterEqual => ['>', '=']
    | .plus => ['+']
    | .minus => ['-']
    | .times => ['*']
    | .elem => "in".toList
  negation := "not".toList
  clock := "now()".toList
  timestamp := "date and time".toList
  builtin f := f.val.name.toList
  placed _ text := text

/-- The spelling of the engine. A number counts from 0 where it is an index, a string is a key, and
    anything else is lowered by one where it is evaluated. -/
def Spelling.cel : Spelling where
  sign
    | .and => ['&', '&']
    | .or => ['|', '|']
    | .equal => ['=', '=']
    | op => Spelling.feel.sign op
  negation := ['!']
  clock := "now".toList
  timestamp := "timestamp".toList
  builtin f := f.val.identifier.toList
  placed
    | .number n, _ => numeral (n - 1)
    | .string _, text => text
    | _, text => bracketed text ++ " - 1".toList

namespace Term

/-- Whether a term is a string literal: a member of it is written behind brackets. -/
def isString : Term → Bool
  | .string _ => true
  | _ => false

def takesIndex : Term → Bool
  | .name _ | .member _ _ | .method _ _ _ | .call _ _ | .extension _ _ | .clock | .timestamp _ | .index _ _ => true
  | _ => false

def constant : Bool → List Char
  | true => "true".toList
  | false => "false".toList

def nothing : List Char := "null".toList

mutual
def text (s : Spelling) : Term → List Char
  | .number n => numeral n
  | .boolean b => constant b
  | .null => nothing
  | .string pieces => '"' :: (pieces.flatMap Piece.text ++ ['"'])
  | .name x => x.text
  | .member t m => bracketedIf t.isString (text s t) ++ '.' :: m.text
  | .method t m args => bracketedIf t.isString (text s t) ++ '.' :: (m.text ++ bracketed (texts s args))
  | .call f args => f.text ++ bracketed (texts s args)
  | .extension f args => s.builtin f ++ bracketed (texts s args)
  | .clock => s.clock
  | .timestamp t => s.timestamp ++ bracketed (text s t)
  | .not t => s.negation ++ bracketed (text s t)
  | .minus t => '-' :: bracketed (text s t)
  | .binary op a b => bracketed (text s a) ++ ' ' :: (s.sign op ++ ' ' :: bracketed (text s b))
  | .list items => '[' :: (texts s items ++ [']'])
  | .index b i => bracketedIf (!b.takesIndex) (text s b) ++ '[' :: (s.placed i (text s i) ++ [']'])
def texts (s : Spelling) : List Term → List Char
  | [] => []
  | [t] => text s t
  | t :: rest => text s t ++ ',' :: ' ' :: texts s rest
end

theorem texts_cons_cons (s : Spelling) (t u : Term) (rest : List Term) :
    texts s (t :: u :: rest) = text s t ++ ',' :: ' ' :: texts s (u :: rest) := by
  rw [texts]
  simp

/-! ## Indices -/

mutual
/-- Whether every number that stands as an index is one from 1 to the greatest that is read as a number. -/
def IsCounted : Term → Prop
  | .number _ | .boolean _ | .null | .string _ | .name _ | .clock => True
  | .member t _ | .timestamp t | .not t | .minus t => IsCounted t
  | .method t _ args => IsCounted t ∧ AreCounted args
  | .call _ args | .extension _ args | .list args => AreCounted args
  | .binary _ a b => IsCounted a ∧ IsCounted b
  | .index b i => IsCounted b ∧ IsCounted i ∧ ∀ n, i = .number n → 1 ≤ n ∧ n ≤ 9223372036854775807
def AreCounted : List Term → Prop
  | [] => True
  | t :: rest => IsCounted t ∧ AreCounted rest
end

theorem areCounted_iff {ts : List Term} : AreCounted ts ↔ ∀ t ∈ ts, t.IsCounted := by
  induction ts with
  | nil => simp [AreCounted]
  | cons t rest ih => simp [AreCounted, ih]

/-! ## The ends of a text for the engine -/

/-- Whether a text starts with ink that is no quote. -/
def startsBare (text : List Char) : Bool := text.head?.any fun c => !isBlank c && c != '"'

theorem startsBare_append {text : List Char} (h : startsBare text = true) (more : List Char) :
    startsBare (text ++ more) = true := by
  cases text with
  | nil => cases h
  | cons c rest => exact h

theorem startsBare_word {c : Char} (h : isWordChar c = true) (more : List Char) : startsBare (c :: more) = true := by
  have hq : c ≠ '"' := Text.ne_of_class h (by decide)
  simp [startsBare, not_isBlank_of_isWordChar h, hq]

theorem startsBare_bracketedIf {needed : Bool} {text : List Char} (h : needed = false → startsBare text = true) :
    startsBare (bracketedIf needed text) = true := by
  cases needed with
  | true => rfl
  | false => exact h rfl

theorem startsBare_identifier (f : Builtin) : startsBare f.val.identifier.toList = true := by
  have hall : ∀ e ∈ Verification.extensions, startsBare e.identifier.toList = true := by decide
  exact hall f.val (by simpa [builtin_toList] using f.property)

/-- The text of a term that is no string literal starts with ink that is no quote. -/
theorem startsBare_text (t : Term) (h : t.isString = false) : startsBare (t.text .cel) = true := by
  induction t with
  | number n =>
    rw [text]
    cases hn : numeral n with
    | nil => exact absurd hn (Text.numeral_ne_nil n)
    | cons c rest =>
      have hd : c.isDigit = true := Text.isDigit_of_mem_numeral (n := n) (by simp [hn])
      exact startsBare_word (Text.isWordChar_of_isDigit hd) rest
  | boolean b => cases b <;> rw [text] <;> decide
  | null => rw [text]; decide
  | string pieces => cases h
  | name x => exact startsBare_word (Name.isWordChar_of_mem (List.mem_cons_self ..)) _
  | member t m ih => exact startsBare_append (startsBare_bracketedIf ih) _
  | method t m args ih _ => exact startsBare_append (startsBare_bracketedIf ih) _
  | call f args _ => exact startsBare_word (Name.isWordChar_of_mem (List.mem_cons_self ..)) _
  | extension f args _ => exact startsBare_append (startsBare_identifier f) _
  | clock => rw [text]; decide
  | timestamp t _ => exact startsBare_append (by decide) _
  | not t _ => exact startsBare_append (by decide) _
  | minus t _ => rfl
  | binary op a b _ _ => rfl
  | list items _ => rfl
  | index b i ih _ =>
    refine startsBare_append (startsBare_bracketedIf fun hn => ih ?_) _
    cases b <;> simp_all [isString, takesIndex]

theorem last_append {more : List Char} {c : Char} (h : more.getLast? = some c) (hb : isBlank c = false)
    (text : List Char) : (text ++ more).getLast?.any isBlank = false := by
  simp [List.getLast?_append, h, hb]

theorem last_word {more : List Char} (hn : more ≠ []) (hw : ∀ c ∈ more, isWordChar c = true) (text : List Char) :
    (text ++ more).getLast?.any isBlank = false := by
  cases hl : more.getLast? with
  | none => exact absurd (List.getLast?_eq_none_iff.mp hl) hn
  | some c => exact last_append hl (not_isBlank_of_isWordChar (hw c (List.mem_of_getLast? hl))) text

theorem getLast?_bracketed (text : List Char) : (bracketed text).getLast? = some ')' := by
  simp [bracketed, List.getLast?_cons]

theorem last_bracketed (text more : List Char) : (text ++ bracketed more).getLast?.any isBlank = false :=
  last_append (getLast?_bracketed more) (by decide) text

theorem last_text (t : Term) : (t.text .cel).getLast?.any isBlank = false := by
  have hname : ∀ (x : Name) (init : List Char), (init ++ x.text).getLast?.any isBlank = false :=
    fun x init => last_word x.text_ne_nil (fun _ => Name.isWordChar_of_mem) init
  cases t with
  | number n =>
    refine last_word (Text.numeral_ne_nil n) (fun c hc => ?_) []
    exact Text.isWordChar_of_isDigit (Text.isDigit_of_mem_numeral hc)
  | boolean b => cases b <;> rw [text] <;> decide
  | null => rw [text]; decide
  | string pieces => exact last_append (c := '"') (by simp) (by decide) ('"' :: pieces.flatMap Piece.text)
  | name x => exact hname x []
  | member t m =>
    rw [text, List.append_cons]
    exact hname m _
  | method t m args =>
    rw [text, List.append_cons, ← List.append_assoc]
    exact last_bracketed _ _
  | call f args => exact last_bracketed _ _
  | extension f args => exact last_bracketed _ _
  | clock => rw [text]; decide
  | timestamp t => exact last_bracketed _ _
  | not t => exact last_bracketed _ _
  | minus t => exact last_bracketed ['-'] _
  | binary op a b =>
    have h := last_bracketed (bracketed (a.text .cel) ++ ' ' :: (Spelling.cel.sign op ++ [' '])) (b.text .cel)
    simpa [text] using h
  | list items => exact last_append (c := ']') (by simp) (by decide) ('[' :: texts .cel items)
  | index b i =>
    have hl : [']'].getLast? = some ']' := rfl
    have h := last_append hl (by decide)
      (bracketedIf (!b.takesIndex) (b.text .cel) ++ '[' :: Spelling.cel.placed i (i.text .cel))
    simpa [text] using h

end Term

end Rulebook.Feel
