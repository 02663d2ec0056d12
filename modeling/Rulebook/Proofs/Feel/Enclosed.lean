/-
  Rulebook.Proofs.Feel.Enclosed — operands in brackets are rewritten on their own.

  The scan looks back at what has been read and written, and ahead over blanks, names, calls
  and brackets. Neither reaches out of the brackets around a text whose own brackets are
  balanced, round and square ones each: an opening bracket goes on from nothing and opens no
  index, a closing one is part of no name, and what a text opens is closed in it. No more is
  asked of the text; it need not be a rule.
  - `Part.enclosed`: each part of a text is read in brackets as it is without them.
  - `Rewritten.passes_enclosed`: so is the text, whatever stands around the brackets.
  - `translate_operands`: the connectives, equality and negation with operands in brackets.
-/

import Mathlib.Data.List.TakeWhile
import Rulebook.Proofs.Feel.Parts
import Rulebook.Proofs.Feel.Printing

namespace Rulebook.Feel

open Rulebook.Text (isBlank isWordChar skipBlank firstInk)

/-! ## Balanced brackets -/

/-- How many brackets of a kind are open behind a text that is read from a mode on, with `depth` open before it.
    None counts inside of a literal, and none is closed that is not open. -/
def depthBehind (opening closing : Char) : Mode → Nat → List Char → Option Nat
  | _, depth, [] => some depth
  | mode, depth, c :: rest =>
    if mode = .outside ∧ c = opening then depthBehind opening closing (mode.next c) (depth + 1) rest
    else if mode = .outside ∧ c = closing then
      if depth = 0 then none else depthBehind opening closing (mode.next c) (depth - 1) rest
    else depthBehind opening closing (mode.next c) depth rest

/-- Outside of literals each bracket of a kind is closed, none of them before it is opened. -/
def Balanced (opening closing : Char) (text : List Char) : Prop := depthBehind opening closing .outside 0 text = some 0

instance (opening closing : Char) (text : List Char) : Decidable (Balanced opening closing text) :=
  inferInstanceAs (Decidable (_ = _))

/-- What is left of a balanced text: it closes some brackets that are open before it, and all that it opens. -/
def Shut (opening closing : Char) (rest : List Char) : Prop :=
  ∃ depth, depthBehind opening closing .outside depth rest = some 0

variable {opening closing : Char} {mode : Mode} {depth : Nat} {text read rest : List Char}

theorem depthBehind_append (mode : Mode) (depth : Nat) (xs ys : List Char) :
    depthBehind opening closing mode depth (xs ++ ys) =
      (depthBehind opening closing mode depth xs).bind fun left => depthBehind opening closing (mode.after xs) left ys := by
  induction xs generalizing mode depth with
  | nil => rfl
  | cons c xs ih =>
    simp only [List.cons_append, depthBehind, ih]
    split
    · rfl
    · split
      · split
        · rfl
        · rfl
      · rfl

theorem depthBehind_plain (h : ∀ c ∈ text, c ≠ '"' ∧ c ≠ opening ∧ c ≠ closing) :
    depthBehind opening closing .outside depth text = some depth := by
  induction text with
  | nil => rfl
  | cons c text ih =>
    obtain ⟨hq, ho, hc⟩ := h c (List.mem_cons_self ..)
    have hnext : Mode.outside.next c = .outside := by simp [Mode.next, hq]
    rw [depthBehind, if_neg fun he => ho he.2, if_neg fun he => hc he.2, hnext]
    exact ih fun d hd => h d (List.mem_cons_of_mem _ hd)

theorem Shut.behind (h : Shut opening closing (read ++ rest)) (hr : Mode.outside.after read = .outside) :
    Shut opening closing rest := by
  obtain ⟨depth, hdepth⟩ := h
  rw [depthBehind_append, hr] at hdepth
  obtain ⟨left, -, hleft⟩ := Option.bind_eq_some_iff.mp hdepth
  exact ⟨left, hleft⟩

theorem depthBehind_cons (mode : Mode) (depth : Nat) (c : Char) (rest : List Char) :
    depthBehind '[' ']' mode depth (c :: rest) =
      (depthAfter mode depth c).bind fun left => depthBehind '[' ']' (mode.next c) left rest := by
  rw [depthBehind, depthAfter]
  split
  · rfl
  · split
    · split
      · rfl
      · rfl
    · rfl

/-- Of square brackets it is the count that finds the end of an index. -/
theorem closes_iff_depthBehind :
    closes mode depth text = true ↔ depthBehind '[' ']' mode depth text = some 0 ∧ mode.after text = .outside := by
  induction text generalizing mode depth with
  | nil => simp [closes, depthBehind, Mode.after, and_comm]
  | cons c text ih =>
    rw [closes, depthBehind_cons]
    cases depthAfter mode depth c with
    | none => simp
    | some left => exact ih

/-- What is left of a text whose literals are closed and whose brackets are balanced. -/
structure Whole (text : List Char) : Prop where
  closed : Mode.outside.after text = .outside
  round : Shut '(' ')' text
  square : Shut '[' ']' text

theorem Whole.behind (h : Whole (read ++ rest)) (hr : Mode.outside.after read = .outside) : Whole rest where
  closed := by
    have hclosed := h.closed
    rwa [Mode.after_append, hr] at hclosed
  round := h.round.behind hr
  square := h.square.behind hr

theorem Whole.exists_bracket (h : Whole ('[' :: rest)) : ∃ inner after, bracket? 0 rest = some (inner, after) := by
  obtain ⟨depth, hdepth⟩ := h.square
  have hcloses := closes_iff_depthBehind.mpr ⟨hdepth, h.closed⟩
  rw [closes_open] at hcloses
  obtain ⟨inner, after, rfl, hinner, -⟩ := closes_split 0 hcloses
  exact ⟨inner, after, bracket?_of_closes hinner after⟩

/-! ## Looking ahead to a closing bracket -/

variable (tail : List Char)

theorem skipBlank_enclosed (text : List Char) : skipBlank (text ++ ')' :: tail) = skipBlank text ++ ')' :: tail :=
  Text.skipBlank_before_ink (by decide) text tail

theorem firstInk_enclosed (text : List Char) : firstInk (text ++ ')' :: tail) = some '(' ↔ firstInk text = some '(' :=
  Text.firstInk_before_ink (by decide) (by decide) text tail

theorem head?_enclosed (text : List Char) : (text ++ ')' :: tail).head?.any isWordChar = text.head?.any isWordChar :=
  Text.head?_before_sign (by decide) text tail

theorem emptyCall?_enclosed (h : Shut '(' ')' text) :
    emptyCall? (text ++ ')' :: tail) = (emptyCall? text).map (· ++ ')' :: tail) := by
  unfold emptyCall?
  rw [skipBlank_enclosed]
  cases hs : skipBlank text with
  | nil => simp
  | cons c rest =>
    simp only [List.cons_append]
    split
    · rename_i hc
      subst hc
      rw [skipBlank_enclosed]
      cases hs' : skipBlank rest with
      | nil =>
        -- a bracket with nothing but blanks behind it is not closed
        obtain ⟨gap, rfl, hgap⟩ := Text.exists_of_skipBlank hs
        have hrest : ∀ d ∈ rest, isBlank d = true := List.dropWhile_eq_nil_iff.mp hs'
        have hplain : ∀ d, isBlank d = true → d ≠ '"' ∧ d ≠ '(' ∧ d ≠ ')' := fun d hd =>
          ⟨Text.ne_of_class hd (by decide), Text.ne_of_class hd (by decide), Text.ne_of_class hd (by decide)⟩
        obtain ⟨depth, hdepth⟩ := h.behind (Unquoted.of_blank hgap).reads.1
        have hopen : depthBehind '(' ')' .outside depth ('(' :: rest) = some (depth + 1) :=
          depthBehind_plain fun d hd => hplain d (hrest d hd)
        cases hopen.symm.trans hdepth
      | cons d after =>
        simp only [List.cons_append]
        split
        · rfl
        · rfl
    · rfl

theorem afterWord?_enclosed {word : List Char} (hw : ')' ∉ word) (text : List Char) :
    afterWord? word (text ++ ')' :: tail) = (afterWord? word text).map (· ++ ')' :: tail) := by
  induction word generalizing text with
  | nil => cases text <;> rfl
  | cons c word ih =>
    have hc : c ≠ ')' := fun he => hw (he ▸ List.mem_cons_self ..)
    cases text with
    | nil => simp [afterWord?, hc]
    | cons d text =>
      rw [List.cons_append, afterWord?, afterWord?]
      split
      · exact ih (fun hm => hw (List.mem_cons_of_mem _ hm)) text
      · rfl

theorem afterWords?_enclosed {ws : List (List Char)} (hw : ∀ word ∈ ws, ')' ∉ word) (text : List Char) :
    afterWords? ws (text ++ ')' :: tail) = (afterWords? ws text).map (· ++ ')' :: tail) := by
  induction ws generalizing text with
  | nil => simp [afterWords?]
  | cons word ws ih =>
    have hword := afterWord?_enclosed tail (hw word (List.mem_cons_self ..)) text
    cases ws with
    | nil => exact hword
    | cons next ws =>
      rw [afterWords?_cons_cons, afterWords?_cons_cons, hword]
      cases afterWord? word text with
      | none => rfl
      | some left =>
        cases left with
        | nil => rfl
        | cons c left =>
          simp only [Option.map_some, Option.bind_some, List.cons_append]
          split
          · rw [skipBlank_enclosed]
            exact ih (fun w hm => hw w (List.mem_cons_of_mem _ hm)) _
          · rfl

theorem after?_enclosed {phrase : Phrase} (hw : ∀ word ∈ phrase.words, ')' ∉ word) (text : List Char) :
    phrase.after? (text ++ ')' :: tail) = (phrase.after? text).map (· ++ ')' :: tail) := by
  unfold Phrase.after?
  rw [afterWords?_enclosed tail hw]
  cases afterWords? phrase.words text with
  | none => rfl
  | some left =>
    simp only [Option.map_some, head?_enclosed, firstInk_enclosed]
    split
    · rfl
    · split
      · rfl
      · rfl

theorem find?_enclosed {phrases : List Phrase} (hp : ∀ phrase ∈ phrases, ∀ word ∈ phrase.words, ')' ∉ word)
    (text : List Char) : Phrase.find? phrases (text ++ ')' :: tail) =
      (Phrase.find? phrases text).map fun (identifier, after) => (identifier, after ++ ')' :: tail) := by
  induction phrases with
  | nil => rfl
  | cons phrase phrases ih =>
    have hrest := ih fun other hm => hp other (List.mem_cons_of_mem _ hm)
    unfold Phrase.find? at hrest ⊢
    rw [List.findSome?_cons, List.findSome?_cons, after?_enclosed tail (hp phrase (List.mem_cons_self ..))]
    cases phrase.after? text with
    | none => exact hrest
    | some left => rfl

theorem wordText_enclosed (word rest : List Char) : wordText word (rest ++ ')' :: tail) = wordText word rest := by
  unfold wordText
  simp only [firstInk_enclosed]

/-! ## Looking back to an opening bracket -/

variable (out before : List Char)

theorem opensIndex_enclosed (written : List Char) : opensIndex (written ++ '(' :: out) = opensIndex written := by
  rw [opensIndex_before_sign (by decide)]
  split
  · rename_i hs
    rw [opensIndex_sign (by decide) (by decide) (by decide), opensIndex, hs]
  · rfl

theorem continues_enclosed (read : List Char) : continues (read ++ '(' :: before).head? = continues read.head? := by
  cases read with
  | nil => rfl
  | cons c read => rfl

theorem joinsOperator_enclosed (read rest : List Char) :
    joinsOperator (read ++ '(' :: before).head? (rest ++ ')' :: tail) = joinsOperator read.head? rest := by
  cases read with
  | nil => cases rest <;> rfl
  | cons c read => cases rest <;> rfl

/-! ## Parts in brackets -/

variable {phrases : List Phrase} {front back written more : List Char}

/-- A part of a text is read in brackets as it is without them. -/
theorem Part.enclosed (hp : ∀ phrase ∈ phrases, ∀ word ∈ phrase.words, ')' ∉ word)
    (h : Part phrases front back read written rest) (hw : Whole (read ++ rest)) (hr : Whole rest) :
    Part phrases (front ++ '(' :: before) (back ++ '(' :: out) read written (rest ++ ')' :: tail) := by
  cases h with
  | literal closed => exact .literal (literal?_front closed _)
  | list unmatched =>
    obtain ⟨inner, after, hb⟩ := hw.exists_bracket
    refine .list fun ho => ?_
    rw [opensIndex_enclosed] at ho
    cases (unmatched ho).symm.trans hb
  | equals =>
    rw [← joinsOperator_enclosed tail before]
    exact .equals
  | copied copied => exact .copied (by rwa [isCopied, continues_enclosed])
  | phrase starts free found =>
    refine .phrase starts (by rwa [continues_enclosed]) ?_
    rw [← List.append_assoc, find?_enclosed tail hp, found]
    rfl
  | word name free whole unnamed uncalled =>
    rw [← wordText_enclosed tail]
    refine .word name (by rwa [continues_enclosed]) (by rwa [head?_enclosed]) ?_ fun hnow => ?_
    · rw [← List.append_assoc, find?_enclosed tail hp, unnamed]
      rfl
    · rw [emptyCall?_enclosed tail hr.round, uncalled hnow]
      rfl
  | @clock call rest free unnamed empty =>
    have hcall : Whole (call ++ rest) := Whole.behind (by rwa [← List.append_assoc]) (Unquoted.reads (by decide)).1
    refine .clock (by rwa [continues_enclosed]) ?_ ?_
    · rw [← List.append_assoc call, ← List.append_assoc, find?_enclosed tail hp, unnamed]
      rfl
    · rw [← List.append_assoc, emptyCall?_enclosed tail hcall.round, empty]
      rfl

/-- A text is rewritten in brackets as it is without them, whatever stands around the brackets. -/
theorem Rewritten.passes_enclosed (hq : ∀ phrase ∈ phrases, phrase.Unquoted)
    (hp : ∀ phrase ∈ phrases, ∀ word ∈ phrase.words, ')' ∉ word) (h : Rewritten phrases front back text more)
    (hw : Whole text) :
    Passes phrases (front ++ '(' :: before) (back ++ '(' :: out) text more (')' :: tail) := by
  induction h with
  | done => exact .nil
  | part part next ih =>
    have hrest := hw.behind (part.kept hq).closed
    have hlater := ih hrest
    rw [List.append_assoc, List.append_assoc] at hlater
    exact (part.enclosed tail out before hp hw hrest).passes.append hlater
  | @index front back inner index low rest more opens matched inside lower next _ ih =>
    have hclosed : Mode.outside.after ('[' :: (inner ++ [']'])) = .outside := by
      show Mode.outside.after (inner ++ [']']) = .outside
      rw [Mode.after_append, after_of_closes matched]
      rfl
    have hlater := ih (hw.behind hclosed)
    rw [List.append_assoc, List.append_assoc] at hlater
    refine Passes.append (.of_index ?_ (bracket?_of_closes matched _) inside.scan_eq (lower _)) hlater
    rwa [opensIndex_enclosed]

/-! ## Operands -/

variable {a b a' b' : String}

theorem passes_operand (hround : Balanced '(' ')' a.toList) (hsquare : Balanced '[' ']' a.toList)
    (ha : translate .builtin a = .ok a') (before out rest : List Char) :
    Passes builtinPhrases before out (bracketed a.toList) (bracketed a'.toList) rest := by
  have hrewritten := translate_eq_ok_iff.mp ha
  rw [phrases_builtin] at hrewritten
  have hkept := hrewritten.kept unquoted_builtin
  exact .bracketed (hrewritten.passes_enclosed rest out before unquoted_builtin (by decide)
    ⟨hkept.closed, ⟨0, hround⟩, ⟨0, hsquare⟩⟩)

/-- Two operands in brackets with the sign of an operator between them. -/
theorem passes_operands (op : Operator)
    (ha : ∀ before out rest, Passes builtinPhrases before out (bracketed a.toList) (bracketed a'.toList) rest)
    (hb : ∀ before out rest, Passes builtinPhrases before out (bracketed b.toList) (bracketed b'.toList) rest) :
    Passes builtinPhrases [] [] (bracketed a.toList ++ ' ' :: (Spelling.feel.sign op ++ ' ' :: bracketed b.toList))
      (bracketed a'.toList ++ ' ' :: (Spelling.cel.sign op ++ ' ' :: bracketed b'.toList)) [] := by
  refine (ha _ _ _).append (.cons (isCopied_sign (by decide) _) ?_)
  exact (passes_sign op _ _ _).append (.cons (isCopied_sign (by decide) _) (hb _ _ _))

/-- Operands in brackets are rewritten as each of them is on its own, for the connectives, equality and negation,
    if the round brackets of each are balanced, and its square ones. -/
theorem translate_operands (aRound : Balanced '(' ')' a.toList) (aSquare : Balanced '[' ']' a.toList)
    (bRound : Balanced '(' ')' b.toList) (bSquare : Balanced '[' ']' b.toList) (ha : translate .builtin a = .ok a')
    (hb : translate .builtin b = .ok b') :
    translate .builtin ("(" ++ a ++ ") and (" ++ b ++ ")") = .ok ("(" ++ a' ++ ") && (" ++ b' ++ ")") ∧
      translate .builtin ("(" ++ a ++ ") or (" ++ b ++ ")") = .ok ("(" ++ a' ++ ") || (" ++ b' ++ ")") ∧
      translate .builtin ("(" ++ a ++ ") = (" ++ b ++ ")") = .ok ("(" ++ a' ++ ") == (" ++ b' ++ ")") ∧
      translate .builtin ("not(" ++ a ++ ")") = .ok ("!(" ++ a' ++ ")") := by
  have hoperand := passes_operand aRound aSquare ha
  have hoperands := fun op => passes_operands op hoperand (passes_operand bRound bSquare hb)
  refine ⟨translate_of_passes ?_, translate_of_passes ?_, translate_of_passes ?_, translate_of_passes ?_⟩
  · simpa [bracketed, Spelling.feel, Spelling.cel] using hoperands .and
  · simpa [bracketed, Spelling.feel, Spelling.cel] using hoperands .or
  · simpa [bracketed, Spelling.feel, Spelling.cel] using hoperands .equal
  · have hnot : Passes builtinPhrases [] [] ("not".toList ++ bracketed a.toList) (['!'] ++ bracketed a'.toList) [] :=
      (passes_not rfl _).append (hoperand _ _ _)
    simpa [bracketed, Spelling.feel, Spelling.cel] using hnot

def timed : String := "xs[ 2 ] = now ( )"

def reported : String := "not (is report\tvalid (r)) or \")\" = s.and"

theorem translate_timed : translate .builtin timed = .ok "xs[1] == now" := by
  have hname : Passes builtinPhrases [] [] ['x', 's'] ['x', 's'] ('[' :: (" 2 ".toList ++ [']']) ++ (" = now ( )".toList ++ [])) :=
    .of_step (by cbv) rfl
  have hindex : Passes builtinPhrases ['s', 'x'] ['s', 'x'] ('[' :: (" 2 ".toList ++ [']'])) ('[' :: (['1'] ++ [']']))
      (" = now ( )".toList ++ []) :=
    .of_index (by cbv) (bracket?_of_closes (by decide) _) (by cbv) (by cbv)
  have htail : Passes builtinPhrases ((['x', 's'] ++ '[' :: (" 2 ".toList ++ [']'])).reverse ++ [])
      ((['x', 's'] ++ '[' :: (['1'] ++ [']'])).reverse ++ []) " = now ( )".toList " == now".toList [] := by
    unfold Passes
    cbv
  exact translate_of_passes ((hname.append hindex).append htail)

theorem translate_reported :
    translate .builtin reported = .ok "! (is_report_valid (r)) || \")\" == s.and" := by
  refine translate_of_passes ?_
  unfold Passes
  cbv

theorem translate_operands_timed_reported :
    (Balanced '(' ')' timed.toList ∧ Balanced '[' ']' timed.toList ∧ Balanced '(' ')' reported.toList ∧
        Balanced '[' ']' reported.toList) ∧
      translate .builtin timed = .ok "xs[1] == now" ∧
      translate .builtin reported = .ok "! (is_report_valid (r)) || \")\" == s.and" ∧
      translate .builtin ("(" ++ timed ++ ") and (" ++ reported ++ ")") =
        .ok ("(" ++ "xs[1] == now" ++ ") && (" ++ "! (is_report_valid (r)) || \")\" == s.and" ++ ")") :=
  ⟨by decide, translate_timed, translate_reported,
    (translate_operands (by decide) (by decide) (by decide) (by decide) translate_timed translate_reported).1⟩

end Rulebook.Feel
