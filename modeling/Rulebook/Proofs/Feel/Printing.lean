/-
  Rulebook.Proofs.Feel.Printing — a rule is rewritten term by term.

  A term that is written as a rule is rewritten to the same term as the engine writes it
  (`translate_text`). The scan has no grammar: it goes by the character before, the blanks
  and brackets ahead, and what it has written so far. So the induction on terms carries
  what these can be where a term stands:
  - `Fresh` before it: no word or member goes on, a bracket would open a list, and what
    has been written ends no word;
  - `Ends` behind it: no word character, blank or opening bracket, so that no name is
    longer than it seems and no name of several words is called.
-/

import Rulebook.Proofs.Feel.Place
import Rulebook.Proofs.Feel.Term

namespace Rulebook.Feel

open Rulebook.Text (isBlank isWordStart isWordChar firstInk numeral not_isBlank_of_isWordChar)

variable {before out rest : List Char}

structure Fresh (before out : List Char) : Prop where
  startsWord : continues before.head? = false
  opensList : opensIndex out = false
  endsNoWord : out.head?.any isWordChar = false

def Ends (rest : List Char) : Prop := rest.head?.any (fun c => isWordChar c || isBlank c || c == '(') = false

theorem Fresh.start : Fresh [] [] := ⟨rfl, rfl, rfl⟩

theorem Fresh.afterBracket (before out : List Char) : Fresh ('(' :: before) ('(' :: out) :=
  ⟨rfl, opensIndex_sign (by decide) (by decide) (by decide) out, rfl⟩

theorem Fresh.inList (before out : List Char) : Fresh ('[' :: before) ('[' :: out) :=
  ⟨rfl, opensIndex_sign (by decide) (by decide) (by decide) out, rfl⟩

theorem Fresh.afterComma (before out : List Char) : Fresh (' ' :: ',' :: before) (' ' :: ',' :: out) := by
  refine ⟨rfl, ?_, rfl⟩
  rw [opensIndex_blank (by decide)]
  exact opensIndex_sign (by decide) (by decide) (by decide) out

theorem Ends.nil : Ends [] := rfl

theorem Ends.cons {c : Char} (h : (isWordChar c || isBlank c || c == '(') = false) (rest : List Char) :
    Ends (c :: rest) := h

theorem Ends.notWord (h : Ends rest) : rest.head?.any isWordChar = false := by
  cases rest with
  | nil => rfl
  | cons c rest => simp_all [Ends]

theorem Ends.notBlank (h : Ends rest) : rest.head?.any isBlank = false := by
  cases rest with
  | nil => rfl
  | cons c rest => simp_all [Ends]

/-! ## Words -/

theorem wordStep_name (x : Name) (rest : List Char) : wordStep x.text rest = .write x.text rest := by
  have hfree := x.free
  simp only [keywords, List.mem_cons, List.not_mem_nil, or_false, not_or] at hfree
  obtain ⟨ha, ho, hn, hw, -⟩ := hfree
  unfold wordStep Name.text
  rw [if_neg ha, if_neg ho, if_neg fun h => hn h.1, if_neg hw]

/-- A word passes as its step says if no called name of several words can start with it. -/
theorem passes_word {c : Char} {word more written : List Char} (hc : isWordStart c = true)
    (hw : ∀ d ∈ word, isWordChar d = true) (hb : continues before.head? = false)
    (hr : (more ++ rest).head?.any isWordChar = false)
    (hf : (∀ phrase ∈ builtinPhrases, phrase.words.head? ≠ some (c :: word)) ∨
      (more ++ rest).head?.any isBlank = false)
    (hs : wordStep (c :: word) (more ++ rest) = .write written rest) :
    Passes builtinPhrases before out (c :: word ++ more) written rest := by
  have hall : ∀ d ∈ c :: word, isWordChar d = true :=
    List.forall_mem_cons.mpr ⟨Text.isWordChar_of_isWordStart hc, hw⟩
  exact .word hc hw hb hr (find?_eq_none isSpelled_builtin hall hr hf) hs

theorem passes_name (x : Name) (hb : continues before.head? = false) (hr : rest.head?.any isWordChar = false)
    (hblank : rest.head?.any isBlank = false) : Passes builtinPhrases before out x.text x.text rest := by
  have h : Passes builtinPhrases before out (x.first :: x.rest ++ []) x.text rest :=
    passes_word x.starts x.goesOn hb hr (Or.inr hblank) (wordStep_name x rest)
  rwa [List.append_nil] at h

theorem passes_constant {c : Char} {word : List Char} (hc : isWordStart c = true) (hw : ∀ d ∈ word, isWordChar d = true)
    (hf : Fresh before out) (he : Ends rest) (hs : wordStep (c :: word) rest = .write (c :: word) rest) :
    Passes builtinPhrases before out (c :: word) (c :: word) rest := by
  have h : Passes builtinPhrases before out (c :: word ++ []) (c :: word) rest :=
    passes_word hc hw hf.startsWord he.notWord (Or.inr he.notBlank) hs
  rwa [List.append_nil] at h

theorem passes_sign (op : Operator) (before out rest : List Char) :
    Passes builtinPhrases (' ' :: before) (' ' :: out) (Spelling.feel.sign op) (Spelling.cel.sign op)
      (' ' :: rest) := by
  have hword : ∀ {c : Char} {word written : List Char}, isWordStart c = true → (∀ d ∈ word, isWordChar d = true) →
      (∀ phrase ∈ builtinPhrases, phrase.words.head? ≠ some (c :: word)) →
      wordStep (c :: word) (' ' :: rest) = .write written (' ' :: rest) →
      Passes builtinPhrases (' ' :: before) (' ' :: out) (c :: word) written (' ' :: rest) := by
    intro c word written hc hw hf hs
    have h : Passes builtinPhrases (' ' :: before) (' ' :: out) (c :: word ++ []) written (' ' :: rest) :=
      passes_word hc hw rfl rfl (Or.inl hf) hs
    rwa [List.append_nil] at h
  cases op with
  | and => exact hword (by decide) (by decide) (by decide) rfl
  | or => exact hword (by decide) (by decide) (by decide) rfl
  | equal => exact .equals
  | unequal => exact .cons rfl .equals
  | less => exact .char rfl
  | lessEqual => exact .cons rfl .equals
  | greater => exact .char rfl
  | greaterEqual => exact .cons rfl .equals
  | plus => exact .char rfl
  | minus => exact .char rfl
  | times => exact .char rfl
  | elem => exact hword (by decide) (by decide) (by decide) rfl

/-! ## String literals -/

theorem isContent_string (pieces : List Piece) : IsContent (pieces.flatMap Piece.text ++ ['"']) := by
  induction pieces with
  | nil => exact .quote
  | cons piece pieces ih =>
    cases piece with
    | plain c hq hb => exact .char hq hb ih
    | escaped c => exact .escaped c ih

theorem passes_string (pieces : List Piece) :
    Passes builtinPhrases before out ((Term.string pieces).text .feel) ((Term.string pieces).text .cel) rest :=
  .literal ((isContent_string pieces).literal? rest)

/-! ## Brackets and commas -/

/-- A term is rewritten wherever it may stand. -/
def Passable (t : Term) : Prop :=
  ∀ before out rest, Fresh before out → Ends rest → Passes builtinPhrases before out (t.text .feel) (t.text .cel) rest

theorem Passable.bracketed {t : Term} (h : Passable t) (before out rest : List Char) :
    Passes builtinPhrases before out (bracketed (t.text .feel)) (bracketed (t.text .cel)) rest :=
  .bracketed (h _ _ _ (.afterBracket before out) (.cons (by decide) rest))

theorem Passable.bracketedIf {t : Term} (h : Passable t) (needed : Bool) (hf : Fresh before out) (he : Ends rest) :
    Passes builtinPhrases before out (bracketedIf needed (t.text .feel)) (bracketedIf needed (t.text .cel)) rest := by
  cases needed with
  | true => exact h.bracketed before out rest
  | false => exact h before out rest hf he

theorem passes_texts {ts : List Term} (h : ∀ t ∈ ts, Passable t) (hf : Fresh before out) (he : Ends rest) :
    Passes builtinPhrases before out (Term.texts .feel ts) (Term.texts .cel ts) rest := by
  induction ts generalizing before out with
  | nil => exact .nil
  | cons t ts ih =>
    have ht := h t (List.mem_cons_self ..)
    cases ts with
    | nil => exact ht before out rest hf he
    | cons u us =>
      rw [Term.texts_cons_cons, Term.texts_cons_cons]
      refine (ht _ _ _ hf (.cons (by decide) _)).append ?_
      refine .cons (isCopied_sign (by decide) _) (.cons (isCopied_sign (by decide) _) ?_)
      exact ih (fun v hv => h v (List.mem_cons_of_mem _ hv)) (.afterComma _ _)

theorem passes_args {args : List Term} (h : ∀ a ∈ args, Passable a) (before out rest : List Char) :
    Passes builtinPhrases before out (bracketed (Term.texts .feel args)) (bracketed (Term.texts .cel args)) rest :=
  .bracketed (passes_texts h (.afterBracket before out) (.cons (by decide) rest))

theorem passes_member (m : Name) (before out rest : List Char) :
    Passes builtinPhrases before out ('.' :: m.text) ('.' :: m.text) rest :=
  .cons (isCopied_sign (by decide) _) (.goesOn (fun _ => Name.isWordChar_of_mem) rfl)

/-! ## Calls -/

theorem passes_called {name identifier tail : List Char} (hs : name.head?.any isWordStart = true)
    (hb : continues before.head? = false)
    (hf : Phrase.find? (Phrase.ofRegistry .builtin) (name ++ '(' :: tail) = some (identifier, '(' :: tail)) :
    Passes builtinPhrases before out name identifier ('(' :: tail) := by
  cases name with
  | nil => cases hs
  | cons c more =>
    rw [phrases_builtin] at hf
    exact .phrase hs hb hf

theorem passes_builtin (f : Builtin) (hb : continues before.head? = false) (tail : List Char) :
    Passes builtinPhrases before out (Spelling.feel.builtin f) (Spelling.cel.builtin f) ('(' :: tail) := by
  have hall : ∀ e ∈ Verification.extensions, e.name.toList.head?.any isWordStart = true := by decide
  have hs : f.val.name.toList.head?.any isWordStart = true := hall f.val (by simpa [builtin_toList] using f.property)
  exact passes_called hs hb (find?_extension f.property tail)

theorem passes_timestamp (hb : continues before.head? = false) (tail : List Char) :
    Passes builtinPhrases before out Spelling.feel.timestamp Spelling.cel.timestamp ('(' :: tail) :=
  passes_called (by decide) hb (find?_timestamp tail)

theorem passes_not (hb : continues before.head? = false) (tail : List Char) :
    Passes builtinPhrases before out Spelling.feel.negation Spelling.cel.negation ('(' :: tail) := by
  have h : Passes builtinPhrases before out ('n' :: "ot".toList ++ []) ['!'] ('(' :: tail) :=
    passes_word (by decide) (by decide) hb rfl (Or.inr rfl) rfl
  exact h

theorem passes_clock (hb : continues before.head? = false) (rest : List Char) :
    Passes builtinPhrases before out Spelling.feel.clock Spelling.cel.clock rest := by
  have h : Passes builtinPhrases before out ('n' :: "ow".toList ++ "()".toList) "now".toList rest :=
    passes_word (by decide) (by decide) hb rfl (Or.inr rfl) rfl
  exact h

/-! ## Indices -/

theorem opensIndex_name (x : Name) (hf : out.head?.any isWordChar = false) :
    opensIndex (x.text.reverse ++ out) = true := by
  rw [opensIndex_word x.text_ne_nil (fun _ => Name.isWordChar_of_mem) hf]
  have hfree := x.free
  simp only [keywords, List.mem_cons, List.not_mem_nil, or_false, not_or] at hfree
  simp only [listWords, List.contains_cons, List.contains_nil, Bool.or_false, Bool.not_eq_true',
    Bool.or_eq_false_iff, beq_eq_false_iff_ne]
  exact ⟨hfree.2.2.2.2.1, hfree.2.2.2.2.2.1, hfree.2.2.2.2.2.2.1, hfree.2.2.2.2.2.2.2⟩

theorem opensIndex_bracketed (text more out : List Char) :
    opensIndex ((more ++ bracketed text).reverse ++ out) = true := by
  have h := opensIndex_closing (Or.inl rfl) (text.reverse ++ '(' :: more.reverse ++ out)
  simpa [bracketed] using h

theorem opensIndex_base (b : Term) (hf : out.head?.any isWordChar = false) :
    opensIndex ((bracketedIf (!b.takesIndex) (b.text .cel)).reverse ++ out) = true := by
  cases hb : b.takesIndex with
  | false => exact opensIndex_bracketed (b.text .cel) [] out
  | true =>
    show opensIndex ((b.text .cel).reverse ++ out) = true
    cases b with
    | name x => exact opensIndex_name x hf
    | member t m =>
      have h : opensIndex (m.text.reverse ++ '.' :: ((bracketedIf t.isString (t.text .cel)).reverse ++ out)) = true :=
        opensIndex_name m rfl
      simpa [Term.text] using h
    | method t m args =>
      have h := opensIndex_bracketed (Term.texts .cel args) (bracketedIf t.isString (t.text .cel) ++ '.' :: m.text) out
      simpa [Term.text] using h
    | call f args => exact opensIndex_bracketed _ _ out
    | extension f args => exact opensIndex_bracketed _ _ out
    | clock =>
      rw [Term.text, Spelling.cel]
      exact (opensIndex_word (by decide) (by decide) hf).trans (by decide)
    | timestamp t => exact opensIndex_bracketed _ _ out
    | index b i =>
      have h := opensIndex_closing (Or.inr rfl) ((Spelling.cel.placed i (i.text .cel)).reverse ++
        '[' :: (bracketedIf (!b.takesIndex) (b.text .cel)).reverse ++ out)
      simpa [Term.text] using h
    | _ => cases hb

/-- The text of every term but a number holds a character that no number has. -/
theorem exists_no_digit (t : Term) (h : ∀ n, t ≠ .number n) :
    ∃ c ∈ t.text .cel, c.isDigit = false ∧ c ≠ '+' ∧ c ≠ '-' := by
  have hopen : ∀ {text more : List Char}, '(' ∈ text ++ bracketed more := by
    intro text more
    simp [bracketed]
  have hword : ∀ {c : Char} {text : List Char}, isWordStart c = true → c ∈ text →
      ∃ c ∈ text, c.isDigit = false ∧ c ≠ '+' ∧ c ≠ '-' := by
    intro c text hc hm
    exact ⟨c, hm, Text.not_isDigit_of_isWordStart hc⟩
  cases t with
  | number n => exact absurd rfl (h n)
  | boolean b =>
    cases b with
    | true => exact ⟨'t', by rw [Term.text]; decide, by decide⟩
    | false => exact ⟨'f', by rw [Term.text]; decide, by decide⟩
  | null => exact ⟨'n', by rw [Term.text]; decide, by decide⟩
  | string pieces => exact ⟨'"', List.mem_cons_self .., by decide⟩
  | name x => exact hword x.starts (List.mem_cons_self ..)
  | member t m => exact ⟨'.', by simp [Term.text], by decide⟩
  | method t m args => exact ⟨'.', by simp [Term.text], by decide⟩
  | call f args => exact ⟨'(', hopen, by decide⟩
  | extension f args => exact ⟨'(', hopen, by decide⟩
  | clock => exact ⟨'n', by rw [Term.text]; decide, by decide⟩
  | timestamp t => exact ⟨'(', hopen, by decide⟩
  | not t => exact ⟨'(', hopen, by decide⟩
  | minus t => exact ⟨'(', by simp [Term.text, bracketed], by decide⟩
  | binary op a b => exact ⟨'(', List.mem_cons_self .., by decide⟩
  | list items => exact ⟨'[', List.mem_cons_self .., by decide⟩
  | index b i => exact ⟨'[', by simp [Term.text], by decide⟩

theorem trim_text (t : Term) : Text.trim (t.text .cel) = t.text .cel := by
  refine Text.trim_eq_self ?_ (Term.last_text t)
  cases hs : t.isString with
  | true =>
    cases t with
    | string pieces => rfl
    | _ => cases hs
  | false =>
    have hb := Term.startsBare_text t hs
    cases ht : t.text .cel with
    | nil => rfl
    | cons c rest => simp_all [Term.startsBare]

/-- The text of an index is lowered to what the engine reads there. -/
theorem lowered_text (t : Term) (h : ∀ n, t = .number n → 1 ≤ n ∧ n ≤ 9223372036854775807) (position : Nat) :
    lowered (t.text .cel) position = .ok (Spelling.cel.placed t (t.text .cel)) := by
  have hother : t.isString = false → (∀ n, t ≠ .number n) →
      lowered (t.text .cel) position = .ok (bracketed (t.text .cel) ++ " - 1".toList) := by
    intro hs hn
    obtain ⟨c, hc, hd, hp, hm⟩ := exists_no_digit t hn
    have hq : (t.text .cel).head? ≠ some '"' := by
      intro he
      have hb := Term.startsBare_text t hs
      simp [Term.startsBare, he] at hb
    rw [lowered_other (trim_text t) hq hc hd hp hm]
    simp [bracketed]
  cases t with
  | number n => exact lowered_numeral (h n rfl).1 (h n rfl).2 position
  | string pieces => exact lowered_key (trim_text _) rfl position
  | _ => exact hother rfl (by simp)

/-! ## A term lies wholly inside the bracket that it stands in -/

theorem Closed.word {word : List Char} (h : ∀ c ∈ word, isWordChar c = true) : Closed word := by
  refine .of_forall fun c hc => ?_
  have hw := h c hc
  exact ⟨Text.ne_of_class hw (by decide), Text.ne_of_class hw (by decide), Text.ne_of_class hw (by decide)⟩

theorem Closed.bracketed {text : List Char} (h : Closed text) : Closed (bracketed text) :=
  Closed.append (Closed.char (by decide) (by decide) (by decide)) (h.append (.char (by decide) (by decide) (by decide)))

theorem Closed.bracketedIf {text : List Char} (h : Closed text) (needed : Bool) : Closed (bracketedIf needed text) := by
  cases needed with
  | true => exact h.bracketed
  | false => exact h

theorem Closed.cons {c : Char} {text : List Char} (hc : c ≠ '"' ∧ c ≠ '[' ∧ c ≠ ']') (h : Closed text) :
    Closed (c :: text) :=
  Closed.append (.char hc.1 hc.2.1 hc.2.2) h

theorem closed_builtin (f : Builtin) : Closed (Spelling.feel.builtin f) := by
  have hall : ∀ e ∈ Verification.extensions, ∀ c ∈ e.name.toList, c ≠ '"' ∧ c ≠ '[' ∧ c ≠ ']' := by decide
  exact .of_forall (hall f.val (by simpa [builtin_toList] using f.property))

theorem closed_sign (op : Operator) : Closed (Spelling.feel.sign op) := by
  cases op <;> exact .of_forall (by decide)

theorem closed_texts {ts : List Term} (h : ∀ t ∈ ts, Closed (t.text .feel)) : Closed (Term.texts .feel ts) := by
  induction ts with
  | nil => exact .nil
  | cons t ts ih =>
    have ht := h t (List.mem_cons_self ..)
    cases ts with
    | nil => exact ht
    | cons u us =>
      rw [Term.texts_cons_cons]
      refine ht.append (.cons (by decide) (.cons (by decide) ?_))
      exact ih fun v hv => h v (List.mem_cons_of_mem _ hv)

theorem closed_text (t : Term) : Closed (t.text .feel) := by
  have hname : ∀ x : Name, Closed x.text := fun _ => .word fun _ => Name.isWordChar_of_mem
  induction t with
  | number n => exact .word fun c hc => Text.isWordChar_of_isDigit (Text.isDigit_of_mem_numeral hc)
  | boolean b => cases b <;> rw [Term.text] <;> exact .of_forall (by decide)
  | null => rw [Term.text]; exact .of_forall (by decide)
  | string pieces => exact .literal (isContent_string pieces)
  | name x => exact hname x
  | member t m ih => exact (ih.bracketedIf _).append (.cons (by decide) (hname m))
  | method t m args ih iha =>
    exact (ih.bracketedIf _).append (.cons (by decide) ((hname m).append (closed_texts iha).bracketed))
  | call f args iha => exact (hname f).append (closed_texts iha).bracketed
  | extension f args iha => exact (closed_builtin f).append (closed_texts iha).bracketed
  | clock => rw [Term.text]; exact .of_forall (by decide)
  | timestamp t ih => exact (Closed.of_forall (by decide)).append ih.bracketed
  | not t ih => exact (Closed.of_forall (by decide)).append ih.bracketed
  | minus t ih => exact .cons (by decide) ih.bracketed
  | binary op a b iha ihb =>
    exact iha.bracketed.append (.cons (by decide) ((closed_sign op).append (.cons (by decide) ihb.bracketed)))
  | list items ih => exact (closed_texts ih).brackets
  | index b i ihb ihi => exact (ihb.bracketedIf _).append ihi.brackets

/-! ## Rules -/

theorem passable (t : Term) (h : t.IsCounted) : Passable t := by
  induction t with
  | number n =>
    intro before out rest _ _
    exact .signs fun c hc => isCopied_digit (Text.isDigit_of_mem_numeral hc)
  | boolean b =>
    intro before out rest hf he
    cases b with
    | true => exact passes_constant (by decide) (by decide) hf he rfl
    | false => exact passes_constant (by decide) (by decide) hf he rfl
  | null =>
    intro before out rest hf he
    exact passes_constant (by decide) (by decide) hf he rfl
  | string pieces => exact fun _ _ _ _ _ => passes_string pieces
  | name x => exact fun _ _ _ hf he => passes_name x hf.startsWord he.notWord he.notBlank
  | member t m ih =>
    intro before out rest hf he
    exact ((ih h).bracketedIf _ hf (.cons (by decide) _)).append (passes_member m _ _ rest)
  | method t m args ih iha =>
    intro before out rest hf he
    obtain ⟨ht, ha⟩ := h
    have hargs := passes_args (fun a hm => iha a hm (Term.areCounted_iff.mp ha a hm))
    exact ((ih ht).bracketedIf _ hf (.cons (by decide) _)).append
      ((passes_member m _ _ _).append (hargs _ _ rest))
  | call f args iha =>
    intro before out rest hf he
    have hargs := passes_args (fun a hm => iha a hm (Term.areCounted_iff.mp h a hm))
    exact (passes_name f hf.startsWord rfl rfl).append (hargs _ _ rest)
  | extension f args iha =>
    intro before out rest hf he
    have hargs := passes_args (fun a hm => iha a hm (Term.areCounted_iff.mp h a hm))
    exact (passes_builtin f hf.startsWord _).append (hargs _ _ rest)
  | clock => exact fun _ _ rest hf _ => passes_clock hf.startsWord rest
  | timestamp t ih =>
    intro before out rest hf he
    exact (passes_timestamp hf.startsWord _).append ((ih h).bracketed _ _ rest)
  | not t ih =>
    intro before out rest hf he
    exact (passes_not hf.startsWord _).append ((ih h).bracketed _ _ rest)
  | minus t ih =>
    intro before out rest hf he
    exact .cons (isCopied_sign (by decide) _) ((ih h).bracketed _ _ rest)
  | binary op a b iha ihb =>
    intro before out rest hf he
    obtain ⟨ha, hb⟩ := h
    refine ((iha ha).bracketed _ _ _).append (.cons (isCopied_sign (by decide) _) ?_)
    refine (passes_sign op _ _ _).append (.cons (isCopied_sign (by decide) _) ?_)
    exact (ihb hb).bracketed _ _ rest
  | list items ih =>
    intro before out rest hf he
    have hend : Ends (']' :: rest) := .cons (by decide) rest
    have hitems := passes_texts (fun a hm => ih a hm (Term.areCounted_iff.mp h a hm)) (.inList before out) hend
    exact (Passes.listOpening hf.opensList).append (hitems.append (.char (isCopied_sign (by decide) _)))
  | index b i ihb ihi =>
    intro before out rest hf he
    obtain ⟨hb, hi, hn⟩ := h
    have hend : Ends ('[' :: (i.text .feel ++ [']']) ++ rest) := .cons (by decide) _
    have hbase := (ihb hb).bracketedIf (!b.takesIndex) hf hend
    have hinner : rewrite builtinPhrases (i.text .feel) = .ok (i.text .cel) :=
      Passes.rewrite_eq (ihi hi _ _ _ .start .nil)
    exact hbase.append (.of_index (opensIndex_base b hf.endsNoWord) ((closed_text i).bracket?_eq rest) hinner
      (lowered_text i hn _))

/-- A term that is written as a rule is rewritten, with the built-in registry, to the same term as the
    engine writes it. -/
theorem translate_text (t : Term) (h : t.IsCounted) :
    translate .builtin (String.ofList (t.text .feel)) = .ok (String.ofList (t.text .cel)) := by
  have hp : rewrite (Phrase.ofRegistry .builtin) (t.text .feel) = .ok (t.text .cel) := by
    rw [phrases_builtin]
    exact Passes.rewrite_eq (passable t h _ _ _ .start .nil)
  rw [translate, String.toList_ofList, hp]
  rfl

def nestedIndex : Term :=
  .binary .equal
    (.index (.member (.name ⟨'e', [], by decide, by decide, by decide⟩) ⟨'s', [], by decide, by decide, by decide⟩)
      (.index (.name ⟨'m', [], by decide, by decide, by decide⟩) (.number 2)))
    (.string [.escaped '"', .plain '[' (by decide) (by decide)])

theorem translate_text_nestedIndex :
    nestedIndex.IsCounted ∧
      translate .builtin "(e.s[m[2]]) = (\"\\\"[\")" = .ok "(e.s[(m[1]) - 1]) == (\"\\\"[\")" := by
  have hc : nestedIndex.IsCounted := by
    simp [nestedIndex, Term.IsCounted]
  refine ⟨hc, ?_⟩
  have h := translate_text nestedIndex hc
  have hf : String.ofList (nestedIndex.text .feel) = "(e.s[m[2]]) = (\"\\\"[\")" := by decide
  have he : String.ofList (nestedIndex.text .cel) = "(e.s[(m[1]) - 1]) == (\"\\\"[\")" := by decide
  rwa [hf, he] at h

end Rulebook.Feel
