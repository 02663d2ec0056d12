/-
  Rulebook.Proofs.Feel.Reading — how the scan of a rule goes through its parts.

  `Passes` says that a part of a rule is read and that a text is written for it, with
  what has been read and written before, and in front of what follows. Parts one after
  the other pass if each does (`Passes.append`), so the scan of a rule is put together
  from one statement for each kind of part: a character that is copied, the rest of a
  word that goes on, a literal, a word, a called name of several words, an index.

  What a literal holds is a text of its own (`IsContent`), so what is true of every literal
  is proved along its characters, and a literal is read alike whatever follows it.

  `Closed` says the same of the search for the end of a bracket: a text without open
  ends lies wholly inside the bracket that it stands in.
-/

import Rulebook.Feel.Rewrite
import Rulebook.Proofs.Text

namespace Rulebook.Feel

open Rulebook.Text (isBlank isWordStart isWordChar leadingWord afterWord leadingWord_append afterWord_append)

variable {phrases : List Phrase} {before out text written rest : List Char}

theorem consumed_append (text rest : List Char) : consumed (text ++ rest) rest = text := by
  simp [consumed]

/-- With `before` read and `out` written, and in front of `rest`, the scan reads `text` and writes `written`. -/
def Passes (phrases : List Phrase) (before out text written rest : List Char) : Prop :=
  scan phrases before out (text ++ rest) = scan phrases (text.reverse ++ before) (written.reverse ++ out) rest

theorem Passes.nil : Passes phrases before out [] [] rest := rfl

theorem Passes.append {more written' : List Char} (h : Passes phrases before out text written (more ++ rest))
    (h' : Passes phrases (text.reverse ++ before) (written.reverse ++ out) more written' rest) :
    Passes phrases before out (text ++ more) (written ++ written') rest := by
  unfold Passes at *
  rw [List.append_assoc, h, h']
  simp

theorem Passes.rewrite_eq (h : Passes phrases [] [] text written []) : rewrite phrases text = .ok written := by
  unfold Passes at h
  rw [List.append_nil] at h
  rw [rewrite, h, scan]
  simp

/-! ## Steps -/

theorem Passes.of_step {c : Char} {tail : List Char} (hs : step phrases before out c tail = .write written rest)
    (ht : text ++ rest = c :: tail) : Passes phrases before out text written rest := by
  unfold Passes
  rw [ht, scan]
  split
  · rename_i written' rest' h
    rw [hs] at h
    cases h
    rw [← ht, consumed_append]
  · rename_i h
    rw [hs] at h
    cases h
  · rename_i h
    rw [hs] at h
    cases h

/-- An index is rewritten and lowered before what follows it is read. -/
theorem scan_index {inner : List Char} (ho : opensIndex out = true)
    (hb : bracket? 0 (inner ++ ']' :: rest) = some (inner, rest)) :
    scan phrases before out ('[' :: (inner ++ ']' :: rest)) =
      (rewrite phrases inner).bind fun index => (lowered index before.length).bind fun index =>
        scan phrases (('[' :: inner ++ [']']).reverse ++ before) (('[' :: index ++ [']']).reverse ++ out) rest := by
  have hs : step phrases before out '[' (inner ++ ']' :: rest) = .index inner rest := by
    simp [step, ho, hb]
  have ht : '[' :: (inner ++ ']' :: rest) = '[' :: inner ++ [']'] ++ rest := by simp
  rw [scan]
  split
  · rename_i h
    cases hs.symm.trans h
  · rename_i h
    obtain ⟨rfl, rfl⟩ := Step.index.inj (hs.symm.trans h)
    rw [ht, consumed_append, rewrite]
    cases scan phrases [] [] inner with
    | error fault => rfl
    | ok index =>
      simp only [Except.bind]
      cases lowered index before.length with
      | error fault => rfl
      | ok index => simp
  · rename_i h
    cases hs.symm.trans h

theorem Passes.of_index {inner index lowered' : List Char} (ho : opensIndex out = true)
    (hb : bracket? 0 (inner ++ ']' :: rest) = some (inner, rest)) (hi : rewrite phrases inner = .ok index)
    (hl : lowered index before.length = .ok lowered') :
    Passes phrases before out ('[' :: (inner ++ [']'])) ('[' :: (lowered' ++ [']'])) rest := by
  have ht : '[' :: (inner ++ [']']) ++ rest = '[' :: (inner ++ ']' :: rest) := by simp
  unfold Passes
  rw [ht, scan_index ho hb, hi, Except.bind, hl]
  rfl

theorem scan_unclosed (h : literal? rest = none) :
    scan phrases before out ('"' :: rest) = .error (.unclosedLiteral before.length) := by
  have hs : step phrases before out '"' rest = .unclosed := by simp [step, h]
  rw [scan]
  split
  · rename_i h
    cases hs.symm.trans h
  · rename_i h
    cases hs.symm.trans h
  · rfl

theorem step_index {c : Char} {tail inner : List Char} (h : step phrases before out c tail = .index inner rest) :
    c = '[' ∧ opensIndex out = true ∧ bracket? 0 tail = some (inner, rest) := by
  unfold step at h
  split at h
  · split at h
    · cases h
    · cases h
  split at h
  · rename_i hc
    split at h
    · rename_i hb
      obtain ⟨rfl, rfl⟩ := Step.index.inj h
      split at hb
      · rename_i ho
        exact ⟨hc, ho, hb⟩
      · cases hb
    · cases h
  split at h
  · cases h
  split at h
  · split at h
    · cases h
    · exact absurd h wordStep_ne_index
  · cases h

theorem step_unclosed {c : Char} {tail : List Char} (h : step phrases before out c tail = .unclosed) :
    c = '"' ∧ literal? tail = none := by
  have hword : ∀ word left, wordStep word left ≠ .unclosed := by
    intro word left
    unfold wordStep
    repeat' split
    all_goals simp
  unfold step at h
  split at h
  · rename_i hc
    split at h
    · cases h
    · rename_i hl
      exact ⟨hc, hl⟩
  split at h
  · split at h
    · cases h
    · cases h
  split at h
  · cases h
  split at h
  · split at h
    · cases h
    · exact absurd h (hword _ _)
  · cases h

/-! ## Literals -/

/-- What stands behind the quote that opens a literal, to the quote that closes it. -/
inductive IsContent : List Char → Prop where
  | quote : IsContent ['"']
  | escaped (c : Char) {content : List Char} (later : IsContent content) : IsContent ('\\' :: c :: content)
  | char {c : Char} {content : List Char} (quote : c ≠ '"') (escape : c ≠ '\\') (later : IsContent content) :
      IsContent (c :: content)

variable {content left : List Char}

theorem isContent_of_literal? (h : literal? text = some (content, left)) : IsContent content := by
  fun_induction literal? text generalizing content left with
  | case1 => cases h
  | case2 =>
    obtain ⟨rfl, -⟩ := Prod.mk.inj (Option.some.inj h)
    exact .quote
  | case3 => cases h
  | case4 d after hq ih =>
    obtain ⟨⟨content', left'⟩, hr, he⟩ := Option.map_eq_some_iff.mp h
    obtain ⟨rfl, -⟩ := Prod.mk.inj he
    exact .escaped d (ih hr)
  | case5 c after hq hb ih =>
    obtain ⟨⟨content', left'⟩, hr, he⟩ := Option.map_eq_some_iff.mp h
    obtain ⟨rfl, -⟩ := Prod.mk.inj he
    exact .char hq hb (ih hr)

/-- A literal is read to its end, whatever follows it. -/
theorem IsContent.literal? (h : IsContent content) (rest : List Char) :
    literal? (content ++ rest) = some (content, rest) := by
  induction h with
  | quote =>
    rw [literal?.eq_def]
    rfl
  | escaped c _ ih =>
    rw [List.cons_append, List.cons_append, literal?.eq_def]
    simp [ih]
  | char quote escape _ ih =>
    rw [List.cons_append, literal?.eq_def]
    simp [quote, escape, ih]

theorem literal?_front (h : literal? text = some (content, left)) (rest : List Char) :
    literal? (content ++ rest) = some (content, rest) :=
  (isContent_of_literal? h).literal? rest

theorem IsContent.exists_init (h : IsContent content) : ∃ init, content = init ++ ['"'] := by
  induction h with
  | quote => exact ⟨[], rfl⟩
  | escaped c _ ih =>
    obtain ⟨init, rfl⟩ := ih
    exact ⟨'\\' :: c :: init, rfl⟩
  | @char c _ _ _ _ ih =>
    obtain ⟨init, rfl⟩ := ih
    exact ⟨c :: init, rfl⟩

theorem getLast?_literal (h : literal? text = some (content, left)) : ('"' :: content).getLast? = some '"' := by
  obtain ⟨init, rfl⟩ := (isContent_of_literal? h).exists_init
  exact List.getLast?_eq_some_iff.mpr ⟨'"' :: init, rfl⟩

/-! ## Parts that are copied -/

/-- Whether a character is copied as it is, after the character `previous`. -/
def isCopied (previous : Option Char) (c : Char) : Bool :=
  c != '"' && c != '[' && c != '=' && (!isWordStart c || continues previous)

theorem step_copied {c : Char} (h : isCopied before.head? c = true) :
    step phrases before out c rest = .write [c] rest := by
  simp only [isCopied, Bool.and_eq_true, bne_iff_ne, ne_eq, Bool.or_eq_true, Bool.not_eq_true'] at h
  obtain ⟨⟨⟨hq, hb⟩, he⟩, hw⟩ := h
  unfold step
  rw [if_neg hq, if_neg hb, if_neg he, if_neg]
  rcases hw with hw | hw <;> simp [hw]

theorem Passes.char {c : Char} (h : isCopied before.head? c = true) : Passes phrases before out [c] [c] rest :=
  .of_step (step_copied h) rfl

theorem Passes.cons {c : Char} (hc : isCopied before.head? c = true)
    (h : Passes phrases (c :: before) (c :: out) text written rest) :
    Passes phrases before out (c :: text) (c :: written) rest :=
  (Passes.char hc).append h

theorem isCopied_sign {c : Char} (h : isCopied none c = true) (previous : Option Char) :
    isCopied previous c = true := by
  simp only [isCopied, continues, Option.any_none, Bool.or_false, Bool.and_eq_true] at h ⊢
  exact ⟨h.1, by simp [h.2]⟩

theorem continues_blank {previous : Option Char} (h : previous.any isBlank = true) : continues previous = false := by
  cases previous with
  | none => rfl
  | some c =>
    have hc : isBlank c = true := h
    have hdot : c ≠ '.' := Text.ne_of_class hc (by decide)
    simp [continues, Text.not_isWordChar_of_isBlank hc, hdot]

theorem isCopied_blank {c : Char} (h : isBlank c = true) : isCopied none c = true := by
  have hq : c ≠ '"' := Text.ne_of_class h (by decide)
  have hb : c ≠ '[' := Text.ne_of_class h (by decide)
  have he : c ≠ '=' := Text.ne_of_class h (by decide)
  simp [isCopied, hq, hb, he, Text.not_isWordStart_of_isBlank h]

theorem isCopied_digit {c : Char} (h : c.isDigit = true) : isCopied none c = true := by
  have hq : c ≠ '"' := Text.ne_of_class h (by decide)
  have hb : c ≠ '[' := Text.ne_of_class h (by decide)
  have he : c ≠ '=' := Text.ne_of_class h (by decide)
  have hw : isWordStart c = false := by
    cases hw : isWordStart c with
    | false => rfl
    | true =>
      rw [(Text.not_isDigit_of_isWordStart hw).1] at h
      cases h
  simp [isCopied, hq, hb, he, hw]

theorem Passes.signs {text : List Char} (h : ∀ c ∈ text, isCopied none c = true) :
    Passes phrases before out text text rest := by
  induction text generalizing before out with
  | nil => exact .nil
  | cons c text ih =>
    exact .cons (isCopied_sign (h c (List.mem_cons_self ..)) _) (ih fun d hd => h d (List.mem_cons_of_mem _ hd))

theorem isCopied_of_continues {previous : Option Char} {c : Char} (hp : continues previous = true)
    (hc : isWordChar c = true) : isCopied previous c = true := by
  have hq : c ≠ '"' := Text.ne_of_class hc (by decide)
  have hb : c ≠ '[' := Text.ne_of_class hc (by decide)
  have he : c ≠ '=' := Text.ne_of_class hc (by decide)
  simp [isCopied, hp, hq, hb, he]

/-- Word characters pass where a word goes on. -/
theorem Passes.goesOn {word : List Char} (hw : ∀ c ∈ word, isWordChar c = true)
    (hb : continues before.head? = true) : Passes phrases before out word word rest := by
  induction word generalizing before out with
  | nil => exact .nil
  | cons c word ih =>
    have hc := hw c (List.mem_cons_self ..)
    refine .cons (isCopied_of_continues hb hc) (ih ?_ ?_)
    · exact fun d hd => hw d (List.mem_cons_of_mem _ hd)
    · simp [continues, hc]

theorem Passes.literal {content : List Char} (h : literal? (content ++ rest) = some (content, rest)) :
    Passes phrases before out ('"' :: content) ('"' :: content) rest :=
  .of_step (by simp [step, h]) rfl

theorem Passes.listOpening (h : opensIndex out = false) : Passes phrases before out ['['] ['['] rest :=
  .of_step (by simp [step, h]) rfl

theorem Passes.equals :
    Passes phrases before out ['='] (if joinsOperator before.head? rest then ['='] else ['=', '=']) rest :=
  .of_step (by simp [step]) rfl

/-! ## Words -/

theorem isWordStart_ne {c : Char} (h : isWordStart c = true) : c ≠ '"' ∧ c ≠ '[' ∧ c ≠ '=' :=
  ⟨Text.ne_of_class h (by decide), Text.ne_of_class h (by decide), Text.ne_of_class h (by decide)⟩

theorem step_word {c : Char} {tail : List Char} (hc : isWordStart c = true) (hb : continues before.head? = false) :
    step phrases before out c tail = match Phrase.find? phrases (c :: tail) with
      | some (identifier, after) => .write identifier after
      | none => wordStep (leadingWord (c :: tail)) (afterWord (c :: tail)) := by
  obtain ⟨hq, ho, he⟩ := isWordStart_ne hc
  unfold step
  rw [if_neg hq, if_neg ho, if_neg he]
  exact if_pos (by simp [hc, hb])

theorem Passes.phrase {c : Char} {more identifier : List Char} (hc : isWordStart c = true)
    (hb : continues before.head? = false)
    (hf : Phrase.find? phrases (c :: more ++ rest) = some (identifier, rest)) :
    Passes phrases before out (c :: more) identifier rest := by
  have hstep : step phrases before out c (more ++ rest) = .write identifier rest := by
    rw [step_word hc hb, ← List.cons_append, hf]
  exact .of_step hstep rfl

/-- A word passes as its step says; the step may read on after the word. -/
theorem Passes.word {c : Char} {word more : List Char} (hc : isWordStart c = true)
    (hw : ∀ d ∈ word, isWordChar d = true) (hb : continues before.head? = false)
    (hr : (more ++ rest).head?.any isWordChar = false)
    (hf : Phrase.find? phrases (c :: word ++ (more ++ rest)) = none)
    (hs : wordStep (c :: word) (more ++ rest) = .write written rest) :
    Passes phrases before out (c :: word ++ more) written rest := by
  have hall : ∀ d ∈ c :: word, isWordChar d = true :=
    List.forall_mem_cons.mpr ⟨Text.isWordChar_of_isWordStart hc, hw⟩
  have hstep : step phrases before out c (word ++ (more ++ rest)) = .write written rest := by
    rw [step_word hc hb, ← List.cons_append, hf]
    simp only [leadingWord_append hall hr, afterWord_append hall hr, hs]
  exact .of_step hstep (by simp)

theorem exists_of_emptyCall (h : emptyCall? text = some rest) :
    ∃ gap inner, text = gap ++ '(' :: (inner ++ ')' :: rest) ∧
      (∀ c ∈ gap, isBlank c = true) ∧ ∀ c ∈ inner, isBlank c = true := by
  unfold emptyCall? at h
  split at h
  · cases h
  · rename_i c more hc
    split at h
    · rename_i ho
      split at h
      · cases h
      · rename_i d left hd
        split at h
        · rename_i hclose
          subst ho hclose
          obtain rfl := Option.some.inj h
          obtain ⟨gap, hgap, hg⟩ := Text.exists_of_skipBlank hc
          obtain ⟨inner, hinner, hi⟩ := Text.exists_of_skipBlank hd
          exact ⟨gap, inner, by rw [hgap, hinner], hg, hi⟩
        · cases h
    · cases h

/-! ## Texts that lie wholly inside a bracket -/

theorem bracket?_literal (depth : Nat) {content : List Char} (h : literal? (content ++ rest) = some (content, rest)) :
    bracket? depth ('"' :: (content ++ rest)) =
      (bracket? depth rest).map fun (inner, after) => ('"' :: (content ++ inner), after) := by
  rw [bracket?.eq_def]
  simp only [if_true]
  split
  · rename_i hn
    rw [h] at hn
    cases hn
  · rename_i hl
    rw [h] at hl
    cases hl
    rfl

theorem bracket?_open (depth : Nat) :
    bracket? depth ('[' :: rest) = (bracket? (depth + 1) rest).map fun (inner, after) => ('[' :: inner, after) := by
  rw [bracket?.eq_def]
  rfl

theorem bracket?_close : bracket? 0 (']' :: rest) = some ([], rest) := by
  rw [bracket?.eq_def]
  rfl

theorem bracket?_close_succ (depth : Nat) :
    bracket? (depth + 1) (']' :: rest) = (bracket? depth rest).map fun (inner, after) => (']' :: inner, after) := by
  rw [bracket?.eq_def]
  rfl

theorem bracket?_char (depth : Nat) {c : Char} (hq : c ≠ '"') (ho : c ≠ '[') (hc : c ≠ ']') :
    bracket? depth (c :: rest) = (bracket? depth rest).map fun (inner, after) => (c :: inner, after) := by
  rw [bracket?.eq_def]
  simp only [if_neg hq, if_neg ho, if_neg hc]

/-- The search for the end of a bracket goes past a text, whatever is open and whatever follows. -/
def Closed (text : List Char) : Prop :=
  ∀ depth rest, bracket? depth (text ++ rest) =
    (bracket? depth rest).map fun (inner, after) => (text ++ inner, after)

theorem Closed.bracket?_eq (h : Closed text) (rest : List Char) :
    bracket? 0 (text ++ ']' :: rest) = some (text, rest) := by
  rw [h, bracket?_close]
  simp

theorem Closed.nil : Closed [] := by
  intro depth rest
  rw [List.nil_append]
  cases bracket? depth rest <;> rfl

theorem Closed.append {more : List Char} (h : Closed text) (h' : Closed more) : Closed (text ++ more) := by
  intro depth rest
  rw [List.append_assoc, h, h', Option.map_map]
  simp [Function.comp_def]

theorem Closed.char {c : Char} (hq : c ≠ '"') (ho : c ≠ '[') (hc : c ≠ ']') : Closed [c] := by
  intro depth rest
  exact bracket?_char depth hq ho hc

theorem Closed.of_forall (h : ∀ c ∈ text, c ≠ '"' ∧ c ≠ '[' ∧ c ≠ ']') : Closed text := by
  induction text with
  | nil => exact .nil
  | cons c text ih =>
    obtain ⟨hq, ho, hc⟩ := h c (List.mem_cons_self ..)
    exact Closed.append (.char hq ho hc) (ih fun d hd => h d (List.mem_cons_of_mem _ hd))

theorem Closed.literal (h : IsContent content) : Closed ('"' :: content) := by
  intro depth rest
  exact bracket?_literal depth (h.literal? rest)

theorem Closed.brackets (h : Closed text) : Closed ('[' :: (text ++ [']'])) := by
  intro depth rest
  have ht : '[' :: (text ++ [']']) ++ rest = '[' :: (text ++ ']' :: rest) := by simp
  rw [ht, bracket?_open, h, bracket?_close_succ, Option.map_map, Option.map_map]
  simp [Function.comp_def]

end Rulebook.Feel
