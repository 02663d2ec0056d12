/-
  Rulebook.Feel.Rewrite — rules in the friendly dialect, rewritten for the engine.

  Only the surface of a rule changes, from left to right:
  - a single `=` becomes `==`, unless it is part of another operator;
  - the words `and` and `or` become `&&` and `||`, and `not` before a bracket `!`;
  - `now()` loses its brackets;
  - a called name of several words becomes one identifier;
  - an index is rewritten as a rule of its own and lowered by one.

  A word is none of these after a word character or a dot, so members keep their names.
  String literals and everything else are copied. `step` says what stands at the front
  of a text and what is written for it; `scan` repeats it to the end.
-/

import Rulebook.Feel.Index
import Rulebook.Feel.Literal
import Rulebook.Feel.Phrase

namespace Rulebook.Feel

open Rulebook.Text (isWordStart isWordChar leadingWord afterWord skipBlank firstInk)

/-- What stands at the front of a text: a part that `written` replaces, the inside of an index,
    or a literal that is never closed. -/
inductive Step where
  | write (written rest : List Char)
  | index (inner rest : List Char)
  | unclosed

def emptyCall? (text : List Char) : Option (List Char) :=
  match skipBlank text with
  | [] => none
  | c :: rest =>
    if c = '(' then
      match skipBlank rest with
      | [] => none
      | d :: after => if d = ')' then some after else none
    else none

/-- Whether an equals sign belongs to an operator of two signs. -/
def joinsOperator (previous : Option Char) (rest : List Char) : Bool :=
  previous == some '!' || previous == some '<' || previous == some '>' || previous == some '=' ||
    rest.head? == some '='

/-- Whether a word goes on from what stands before it, as part of a word or as a member. -/
def continues (previous : Option Char) : Bool := previous.any fun c => isWordChar c || c == '.'

/-- The step at a word that is no phrase. -/
def wordStep (word rest : List Char) : Step :=
  if word = "and".toList then .write "&&".toList rest
  else if word = "or".toList then .write "||".toList rest
  else if word = "not".toList ∧ firstInk rest = some '(' then .write ['!'] rest
  else if word = "now".toList then .write word ((emptyCall? rest).getD rest)
  else .write word rest

/-- The step at the character `c` before `rest`, with `before` read and `out` written so far, both in reverse. -/
def step (phrases : List Phrase) (before out : List Char) (c : Char) (rest : List Char) : Step :=
  if c = '"' then
    match literal? rest with
    | some (content, after) => .write (c :: content) after
    | none => .unclosed
  else if c = '[' then
    match if opensIndex out then bracket? 0 rest else none with
    | some (inner, after) => .index inner after
    | none => .write [c] rest
  else if c = '=' then .write (if joinsOperator before.head? rest then ['='] else ['=', '=']) rest
  else if isWordStart c && !continues before.head? then
    match Phrase.find? phrases (c :: rest) with
    | some (identifier, after) => .write identifier after
    | none => wordStep (leadingWord (c :: rest)) (afterWord (c :: rest))
  else .write [c] rest

def consumed (text rest : List Char) : List Char := text.take (text.length - rest.length)

/-! ## A step reads at least one character -/

theorem skipBlank_suffix (text : List Char) : skipBlank text <:+ text := List.dropWhile_suffix _

theorem emptyCall?_length_lt {text after : List Char} (h : emptyCall? text = some after) :
    after.length < text.length := by
  unfold emptyCall? at h
  split at h
  · cases h
  · rename_i c rest hc
    split at h
    · split at h
      · cases h
      · rename_i d more hd
        split at h
        · cases h
          have h1 := (skipBlank_suffix text).length_le
          have h2 := (skipBlank_suffix rest).length_le
          rw [hc] at h1
          rw [hd] at h2
          simp only [List.length_cons] at h1 h2
          omega
        · cases h
    · cases h

theorem afterWord_cons_length_le {c : Char} (h : isWordStart c = true) (rest : List Char) :
    (afterWord (c :: rest)).length ≤ rest.length := by
  unfold afterWord
  rw [List.dropWhile_cons_of_pos (Text.isWordChar_of_isWordStart h)]
  exact (List.dropWhile_suffix _).length_le

theorem wordStep_length_le {word rest written after : List Char} (h : wordStep word rest = .write written after) :
    after.length ≤ rest.length := by
  have hcall : ((emptyCall? rest).getD rest).length ≤ rest.length := by
    cases he : emptyCall? rest with
    | none => exact Nat.le_refl _
    | some more => exact Nat.le_of_lt (emptyCall?_length_lt he)
  unfold wordStep at h
  repeat' split at h
  all_goals
    simp only [Step.write.injEq] at h
    obtain ⟨-, rfl⟩ := h
    first
      | exact Nat.le_refl _
      | exact hcall

theorem wordStep_ne_index {word rest inner after : List Char} : wordStep word rest ≠ .index inner after := by
  unfold wordStep
  repeat' split
  all_goals simp

theorem step_write_length_le {phrases : List Phrase} {before out written rest after : List Char} {c : Char}
    (h : step phrases before out c rest = .write written after) : after.length ≤ rest.length := by
  unfold step at h
  split at h
  · split at h
    · rename_i hl
      simp only [Step.write.injEq] at h
      exact h.2 ▸ literal?_length_le hl
    · cases h
  · split at h
    · split at h
      · cases h
      · simp only [Step.write.injEq] at h
        exact h.2 ▸ Nat.le_refl _
    · split at h
      · simp only [Step.write.injEq] at h
        exact h.2 ▸ Nat.le_refl _
      · split at h
        · rename_i hw
          have hc : isWordStart c = true := ((Bool.and_eq_true _ _).mp hw).1
          split at h
          · rename_i hf
            simp only [Step.write.injEq] at h
            exact h.2 ▸ Phrase.find?_length_le (Text.isWordChar_of_isWordStart hc) hf
          · exact Nat.le_trans (wordStep_length_le h) (afterWord_cons_length_le hc rest)
        · simp only [Step.write.injEq] at h
          exact h.2 ▸ Nat.le_refl _

theorem step_index_length_lt {phrases : List Phrase} {before out inner rest after : List Char} {c : Char}
    (h : step phrases before out c rest = .index inner after) :
    inner.length < rest.length ∧ after.length < rest.length := by
  unfold step at h
  split at h
  · split at h <;> cases h
  · split at h
    · split at h
      · rename_i hb
        split at hb
        · simp only [Step.index.injEq] at h
          obtain ⟨rfl, rfl⟩ := h
          exact bracket?_length_lt hb
        · cases hb
      · cases h
    · split at h
      · cases h
      · split at h
        · split at h
          · cases h
          · exact absurd h wordStep_ne_index
        · cases h

/-! ## Rewriting -/

/-- Rewrites the rest of a text, with `before` read and `out` written so far, both in reverse. -/
def scan (phrases : List Phrase) (before out : List Char) : List Char → Except Fault (List Char)
  | [] => .ok out.reverse
  | c :: rest =>
    match _h : step phrases before out c rest with
    | .write written after =>
      scan phrases ((consumed (c :: rest) after).reverse ++ before) (written.reverse ++ out) after
    | .index inner after =>
      match scan phrases [] [] inner with
      | .error fault => .error fault
      | .ok index =>
        match lowered index before.length with
        | .error fault => .error fault
        | .ok index =>
          scan phrases ((consumed (c :: rest) after).reverse ++ before) (']' :: (index.reverse ++ '[' :: out)) after
    | .unclosed => .error (.unclosedLiteral before.length)
termination_by text => text.length
decreasing_by
  · exact Nat.lt_succ_of_le (step_write_length_le _h)
  · exact Nat.lt_succ_of_lt (step_index_length_lt _h).1
  · exact Nat.lt_succ_of_lt (step_index_length_lt _h).2

def rewrite (phrases : List Phrase) (rule : List Char) : Except Fault (List Char) := scan phrases [] [] rule

def translate (registry : Registry) (rule : String) : Except Fault String :=
  (rewrite (Phrase.ofRegistry registry) rule.toList).map String.ofList

end Rulebook.Feel
