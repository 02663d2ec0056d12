/-
  Rulebook.Proofs.Feel.Parts — a rewriting, part by part.

  What the scan reads in one step is a part of the rule: a literal, a sign, a word, a called
  name, the clock with its brackets (`Part`). A rule is rewritten part by part, and where an
  index opens, what stands between its brackets is rewritten as a rule of its own, lowered,
  and written between brackets (`Rewritten`). The relation holds just where the scan
  succeeds, so what is true of every rewriting is proved by one case for each kind of part.
  - `exists_part`: a step that writes reads a part.
  - `Part.kept`: what is written for a part holds its literals, and none is open behind it.
  - `scan_eq_ok_iff`: the scan succeeds with what is written for the parts.
  - `translate_eq_ok_iff`: so does the rewriting of a rule.
  - `literals_translate`: a rule and what it is rewritten to hold the same literals.
-/

import Rulebook.Proofs.Feel.Brackets

namespace Rulebook.Feel

open Rulebook.Text (isWordStart isWordChar firstInk leadingWord afterWord IsWord)

/-- What is written for a word in front of what is left, if nothing else is read with it. -/
def wordText (word rest : List Char) : List Char :=
  if word = "and".toList then "&&".toList
  else if word = "or".toList then "||".toList
  else if word = "not".toList ∧ firstInk rest = some '(' then ['!']
  else word

/-- A part of a rule: what is read of it and what is written, in front of what is left. What has been read
    before and what has been written are given in reverse. -/
inductive Part (phrases : List Phrase) (before out : List Char) : List Char → List Char → List Char → Prop where
  | literal {content rest : List Char} (closed : literal? (content ++ rest) = some (content, rest)) :
      Part phrases before out ('"' :: content) ('"' :: content) rest
  /-- A bracket that opens no index, or is not closed. -/
  | list {rest : List Char} (unmatched : opensIndex out = true → bracket? 0 rest = none) :
      Part phrases before out ['['] ['['] rest
  | equals {rest : List Char} :
      Part phrases before out ['='] (if joinsOperator before.head? rest then ['='] else ['=', '=']) rest
  | copied {c : Char} {rest : List Char} (copied : isCopied before.head? c = true) : Part phrases before out [c] [c] rest
  | phrase {read identifier rest : List Char} (starts : read.head?.any isWordStart = true)
      (free : continues before.head? = false) (found : Phrase.find? phrases (read ++ rest) = some (identifier, rest)) :
      Part phrases before out read identifier rest
  | word {word rest : List Char} (name : IsWord word) (free : continues before.head? = false)
      (whole : rest.head?.any isWordChar = false) (unnamed : Phrase.find? phrases (word ++ rest) = none)
      (uncalled : word = "now".toList → emptyCall? rest = none) : Part phrases before out word (wordText word rest) rest
  | clock {call rest : List Char} (free : continues before.head? = false)
      (unnamed : Phrase.find? phrases ("now".toList ++ (call ++ rest)) = none)
      (empty : emptyCall? (call ++ rest) = some rest) : Part phrases before out ("now".toList ++ call) "now".toList rest

/-- A text is rewritten, with what has been read before and what has been written in reverse. -/
inductive Rewritten (phrases : List Phrase) : List Char → List Char → List Char → List Char → Prop where
  | done {before out : List Char} : Rewritten phrases before out [] []
  | part {before out read written rest more : List Char} (part : Part phrases before out read written rest)
      (next : Rewritten phrases (read.reverse ++ before) (written.reverse ++ out) rest more) :
      Rewritten phrases before out (read ++ rest) (written ++ more)
  | index {before out inner index low rest more : List Char} (opens : opensIndex out = true)
      (matched : closes .outside 0 inner = true) (inside : Rewritten phrases [] [] inner index)
      (lower : ∀ position, lowered index position = .ok low)
      (next : Rewritten phrases (('[' :: (inner ++ [']'])).reverse ++ before) (('[' :: (low ++ [']'])).reverse ++ out)
        rest more) :
      Rewritten phrases before out ('[' :: (inner ++ [']']) ++ rest) ('[' :: (low ++ [']']) ++ more)

variable {phrases : List Phrase} {before out read written rest after word text result : List Char} {c : Char}

/-! ## A step reads a part -/

theorem wordText_cases (word rest : List Char) :
    (wordText word rest = "&&".toList ∨ wordText word rest = "||".toList ∨ wordText word rest = ['!']) ∨
      wordText word rest = word ∧ word ≠ "and".toList ∧ word ≠ "or".toList ∧
        (word = "not".toList → firstInk rest ≠ some '(') := by
  unfold wordText
  split
  · exact Or.inl (Or.inl rfl)
  split
  · exact Or.inl (Or.inr (Or.inl rfl))
  split
  · exact Or.inl (Or.inr (Or.inr rfl))
  · rename_i hand hor hnot
    exact Or.inr ⟨rfl, hand, hor, fun hword hopen => hnot ⟨hword, hopen⟩⟩

theorem wordStep_alone (h : word = "now".toList → emptyCall? rest = none) :
    wordStep word rest = .write (wordText word rest) rest := by
  have hcall : wordStep word rest =
      .write (wordText word rest) (if word = "now".toList then (emptyCall? rest).getD rest else rest) := by
    unfold wordStep wordText
    grind
  rw [hcall]
  split
  · rename_i hnow
    rw [h hnow]
    rfl
  · rfl

theorem wordStep_clock (h : emptyCall? rest = some after) :
    wordStep "now".toList rest = .write "now".toList after := by
  unfold wordStep
  rw [if_neg (by decide), if_neg (by decide), if_neg (fun hnot => absurd hnot.1 (by decide)), if_pos rfl, h]
  rfl

/-- The step at a word reads the word alone, or it is the clock and its brackets are read too. -/
theorem wordStep_reads (h : wordStep word rest = .write written after) :
    (after = rest ∧ written = wordText word rest ∧ (word = "now".toList → emptyCall? rest = none)) ∨
      word = "now".toList ∧ written = "now".toList ∧ emptyCall? rest = some after := by
  by_cases hcall : word = "now".toList ∧ ∃ left, emptyCall? rest = some left
  · obtain ⟨rfl, left, hleft⟩ := hcall
    rw [wordStep_clock hleft] at h
    obtain ⟨rfl, rfl⟩ := Step.write.inj h
    exact Or.inr ⟨rfl, rfl, hleft⟩
  · have halone : word = "now".toList → emptyCall? rest = none := fun hnow =>
      Option.eq_none_iff_forall_ne_some.mpr fun left hleft => hcall ⟨hnow, left, hleft⟩
    rw [wordStep_alone halone] at h
    obtain ⟨rfl, rfl⟩ := Step.write.inj h
    exact Or.inl ⟨rfl, rfl, halone⟩

/-- What is found of the built-in names is spelled at the front of the text, with a bracket behind it. -/
theorem exists_spelled {identifier : List Char} (h : Phrase.find? builtinPhrases text = some (identifier, rest)) :
    ∃ phrase ∈ builtinPhrases, phrase.identifier = identifier ∧ (∃ read, text = read ++ rest ∧ Spaced phrase.words read) ∧
      rest.head?.any isWordChar = false ∧ firstInk rest = some '(' := by
  obtain ⟨phrase, hm, hafter, hidentifier⟩ := exists_of_find? h
  obtain ⟨hn, hwords⟩ := isWord_builtin phrase hm
  exact ⟨phrase, hm, hidentifier, (Phrase.after?_eq_some_iff hn fun word hw => (hwords word hw).isInk).mp hafter⟩

theorem isWord_leadingWord (hc : isWordStart c = true) (rest : List Char) : IsWord (leadingWord (c :: rest)) := by
  have hlead : leadingWord (c :: rest) = c :: leadingWord rest := by
    simp [leadingWord, Text.isWordChar_of_isWordStart hc]
  exact ⟨by rw [hlead]; exact hc, List.all_eq_true.mp List.all_takeWhile⟩

theorem exists_part_phrase {identifier : List Char} (hstart : isWordStart c = true) (hfree : continues before.head? = false)
    (hf : Phrase.find? phrases (c :: rest) = some (identifier, after)) :
    ∃ read, c :: rest = read ++ after ∧ Part phrases before out read identifier after := by
  obtain ⟨phrase, -, ha, -⟩ := exists_of_find? hf
  obtain ⟨read, hread⟩ := afterWords?_suffix (Phrase.after?_iff.mp ha).1
  have hshorter := Phrase.find?_length_le (Text.isWordChar_of_isWordStart hstart) hf
  cases read with
  | nil =>
    rw [List.nil_append] at hread
    rw [hread, List.length_cons] at hshorter
    omega
  | cons d more =>
    obtain ⟨rfl, hmore⟩ := List.cons.inj hread
    exact ⟨d :: more, hread.symm, .phrase hstart hfree (by rwa [hread])⟩

theorem exists_part_word (hstart : isWordStart c = true) (hfree : continues before.head? = false)
    (hf : Phrase.find? phrases (c :: rest) = none)
    (h : wordStep (leadingWord (c :: rest)) (afterWord (c :: rest)) = .write written after) :
    ∃ read, c :: rest = read ++ after ∧ Part phrases before out read written after := by
  have hsplit := Text.leadingWord_append_afterWord (c :: rest)
  have hname := isWord_leadingWord hstart rest
  rw [← hsplit] at hf
  rcases wordStep_reads h with ⟨rfl, rfl, halone⟩ | ⟨hword, rfl, hempty⟩
  · exact ⟨leadingWord (c :: rest), hsplit.symm, .word hname hfree (Text.head?_afterWord _) hf halone⟩
  · obtain ⟨gap, inner, hcall, -⟩ := exists_of_emptyCall hempty
    have hafter : afterWord (c :: rest) = gap ++ '(' :: (inner ++ [')']) ++ after := by rw [hcall]; simp
    rw [hword, hafter] at hf
    rw [hafter] at hempty
    refine ⟨_, ?_, .clock hfree hf hempty⟩
    rw [← hsplit, hword, hafter, List.append_assoc "now".toList]

/-- A step that writes reads a part. -/
theorem exists_part (h : step phrases before out c rest = .write written after) :
    ∃ read, c :: rest = read ++ after ∧ Part phrases before out read written after := by
  by_cases hw : isWordStart c = true ∧ continues before.head? = false
  · rw [step_word hw.1 hw.2] at h
    split at h
    · rename_i hf
      obtain ⟨rfl, rfl⟩ := Step.write.inj h
      exact exists_part_phrase hw.1 hw.2 hf
    · rename_i hf
      exact exists_part_word hw.1 hw.2 hf h
  unfold step at h
  split at h
  · rename_i hc
    subst hc
    split at h
    · rename_i content left hl
      obtain ⟨rfl, rfl⟩ := Step.write.inj h
      obtain rfl := literal?_append hl
      exact ⟨'"' :: content, rfl, .literal hl⟩
    · cases h
  rename_i hq
  split at h
  · rename_i hc
    subst hc
    split at h
    · cases h
    · rename_i hb
      obtain ⟨rfl, rfl⟩ := Step.write.inj h
      exact ⟨['['], rfl, .list fun ho => by rwa [if_pos ho] at hb⟩
  rename_i hb
  split at h
  · rename_i hc
    subst hc
    obtain ⟨rfl, rfl⟩ := Step.write.inj h
    exact ⟨['='], rfl, .equals⟩
  rename_i he
  have hcopied : isCopied before.head? c = true := by
    simpa [isCopied, hq, hb, he, Decidable.imp_iff_not_or] using hw
  rw [if_neg (by simpa using hw)] at h
  obtain ⟨rfl, rfl⟩ := Step.write.inj h
  exact ⟨[c], rfl, .copied hcopied⟩

/-! ## A part is read in a step -/

theorem head?_of_emptyCall (h : emptyCall? text = some after) : text.head?.any isWordChar = false := by
  obtain ⟨gap, inner, rfl, hgap, -⟩ := exists_of_emptyCall h
  exact Text.head?_gap hgap rfl

theorem getLast?_of_emptyCall {call : List Char} (h : emptyCall? (call ++ rest) = some rest) : call.getLast? = some ')' := by
  obtain ⟨gap, inner, hcall, -⟩ := exists_of_emptyCall h
  refine List.getLast?_eq_some_iff.mpr ⟨gap ++ '(' :: inner, List.append_cancel_right (hcall.trans ?_)⟩
  simp

theorem Part.ne_nil (h : Part phrases before out read written rest) : read ≠ [] := by
  cases h with
  | phrase starts =>
    rintro rfl
    cases starts
  | word name =>
    rintro rfl
    cases name.1
  | _ => exact List.cons_ne_nil _ _

theorem Part.passes (h : Part phrases before out read written rest) : Passes phrases before out read written rest := by
  cases h with
  | literal closed => exact .literal closed
  | list unmatched =>
    have hnone : (if opensIndex out then bracket? 0 rest else none) = none := by
      split
      · rename_i ho
        exact unmatched ho
      · rfl
    exact .of_step (by simp [step, hnone]) rfl
  | equals => exact .equals
  | copied copied => exact .char copied
  | phrase starts free found =>
    cases read with
    | nil => cases starts
    | cons c more => exact .phrase starts free found
  | @word word rest name free whole unnamed uncalled =>
    obtain ⟨c, more, rfl, hc, hmore⟩ := name.exists_cons
    have hpass : Passes phrases before out (c :: more ++ []) (wordText (c :: more) rest) rest :=
      .word hc hmore free whole unnamed (wordStep_alone uncalled)
    rwa [List.append_nil] at hpass
  | clock free unnamed empty =>
    exact .word (by decide) (by decide) free (head?_of_emptyCall empty) unnamed (wordStep_clock empty)

/-! ## Literals in parts -/

theorem Part.kept (hp : ∀ phrase ∈ phrases, phrase.Unquoted) (h : Part phrases before out read written rest) :
    Kept read written := by
  cases h with
  | literal closed => exact .literal closed
  | list => exact .unquoted (by decide) (by decide)
  | equals =>
    refine .unquoted (by decide) ?_
    split
    · decide
    · decide
  | @copied c rest copied =>
    have hself : Unquoted [c] := List.forall_mem_singleton.mpr (by rintro rfl; cases copied)
    exact .unquoted hself hself
  | phrase _ _ found =>
    obtain ⟨read', hread, hk⟩ := kept_phrase hp found
    rwa [List.append_cancel_right hread]
  | @word _ rest name =>
    have hword : Unquoted read := .of_word name.2
    refine .unquoted hword ?_
    rcases wordText_cases read rest with (htext | htext | htext) | ⟨htext, -⟩
    · rw [htext]
      decide
    · rw [htext]
      decide
    · rw [htext]
      decide
    · rwa [htext]
  | clock _ _ empty =>
    obtain ⟨call', hcall, hq⟩ := exists_emptyCall empty
    obtain rfl := List.append_cancel_right hcall
    exact .unquoted (Unquoted.append (by decide) hq) (by decide)

/-! ## The scan -/

theorem Rewritten.of_scan (h : scan phrases before out text = .ok result) :
    ∃ more, result = out.reverse ++ more ∧ Rewritten phrases before out text more := by
  fun_induction scan phrases before out text generalizing result with
  | case1 before out =>
    obtain rfl := Except.ok.inj h
    exact ⟨[], by simp, .done⟩
  | case2 before out c rest written after hs ih =>
    obtain ⟨read, hread, hpart⟩ := exists_part hs
    obtain ⟨more, rfl, hmore⟩ := ih h
    rw [hread, consumed_append] at hmore
    rw [hread]
    exact ⟨written ++ more, by simp, .part hpart hmore⟩
  | case3 => cases h
  | case4 => cases h
  | case5 before out c rest inner after hs index hi low hl inside ih =>
    obtain ⟨rfl, hopens, hb⟩ := step_index hs
    obtain ⟨rfl, hmatched⟩ := bracket?_eq_some_iff.mp hb
    obtain ⟨more, rfl, hmore⟩ := ih h
    -- inside the brackets a rule of its own is rewritten
    obtain ⟨index', hindex, hinside⟩ := inside hi
    obtain rfl : index = index' := by simpa using hindex
    have hread : '[' :: (inner ++ ']' :: after) = '[' :: (inner ++ [']']) ++ after := by simp
    have hwritten : ']' :: (low.reverse ++ '[' :: out) = ('[' :: (low ++ [']'])).reverse ++ out := by simp
    rw [hread, consumed_append, hwritten] at hmore
    rw [hread, hwritten]
    exact ⟨'[' :: (low ++ [']']) ++ more, by simp, .index hopens hmatched hinside (lowered_anywhere hl) hmore⟩
  | case6 => cases h

theorem Rewritten.scan_eq {more : List Char} (h : Rewritten phrases before out text more) :
    scan phrases before out text = .ok (out.reverse ++ more) := by
  induction h with
  | done => simp [scan]
  | @part before out read written rest more part _ ih =>
    have hpass : scan phrases before out (read ++ rest) = _ := part.passes
    rw [hpass, ih]
    simp
  | @index before out inner index low rest more opens matched _ lower _ ihinside ih =>
    have hpass : scan phrases before out ('[' :: (inner ++ [']']) ++ rest) = _ :=
      Passes.of_index opens (bracket?_of_closes matched rest) ihinside (lower before.length)
    rw [hpass, ih]
    simp

/-- The scan succeeds with what has been written and what is written for the parts of the text. -/
theorem scan_eq_ok_iff :
    scan phrases before out text = .ok result ↔ ∃ more, result = out.reverse ++ more ∧ Rewritten phrases before out text more := by
  constructor
  · exact Rewritten.of_scan
  · rintro ⟨more, rfl, h⟩
    exact h.scan_eq

theorem rewritten_iff {more : List Char} :
    Rewritten phrases before out text more ↔ scan phrases before out text = .ok (out.reverse ++ more) := by
  rw [scan_eq_ok_iff]
  simp

/-- What the scan passes is rewritten first. -/
theorem Passes.rewritten_iff {more : List Char} (h : Passes phrases before out read written rest) :
    Rewritten phrases before out (read ++ rest) more ↔
      ∃ later, more = written ++ later ∧ Rewritten phrases (read.reverse ++ before) (written.reverse ++ out) rest later := by
  rw [Feel.rewritten_iff, show scan phrases before out (read ++ rest) = _ from h, scan_eq_ok_iff]
  simp

/-- What is rewritten keeps its literals. -/
theorem Rewritten.kept {more : List Char} (hp : ∀ phrase ∈ phrases, phrase.Unquoted)
    (h : Rewritten phrases before out text more) : Kept text more := by
  induction h with
  | done => exact .unquoted (by decide) (by decide)
  | part part _ ih => exact (part.kept hp).append ih
  | index _ _ _ lower _ ihinside ih =>
    -- the content is rewritten as a rule of its own, and only then lowered
    have hlow := ihinside.trans (kept_lowered ihinside.writtenClosed (lower 0))
    have hopen : Unquoted ['['] := by decide
    have hclose : Unquoted [']'] := by decide
    exact (hlow.between hopen hopen hclose hclose).append ih

theorem translate_eq_ok_iff {registry : Registry} {rule text : String} :
    translate registry rule = .ok text ↔ Rewritten (Phrase.ofRegistry registry) [] [] rule.toList text.toList := by
  have hscan : Rewritten (Phrase.ofRegistry registry) [] [] rule.toList text.toList ↔
      rewrite (Phrase.ofRegistry registry) rule.toList = .ok text.toList := rewritten_iff
  rw [hscan, translate]
  cases rewrite (Phrase.ofRegistry registry) rule.toList with
  | error fault => exact iff_of_false nofun nofun
  | ok result => simp [Except.map, String.ext_iff]

theorem translate_of_passes {rule text : String} (h : Passes builtinPhrases [] [] rule.toList text.toList []) :
    translate .builtin rule = .ok text := by
  rw [translate, phrases_builtin, h.rewrite_eq]
  simp [Except.map]

/-! ## Literals of a rule -/

/-- A rule and what it is rewritten to hold the same literals, each as it stands and in the same order. -/
theorem literals_translate {rule text : String} (h : translate .builtin rule = .ok text) :
    literals text.toList = literals rule.toList := by
  rw [translate_eq_ok_iff, phrases_builtin] at h
  exact (h.kept unquoted_builtin).same

def keyed : List Char := ['m'] ++ '[' :: ("\"a = b\"".toList ++ [']'])

theorem rewrite_keyed : rewrite builtinPhrases keyed = .ok keyed := by
  have hname : Passes builtinPhrases [] [] ['m'] ['m'] ('[' :: ("\"a = b\"".toList ++ [']'])) := .of_step (by cbv) rfl
  have hindex : Passes builtinPhrases ['m'] ['m'] ('[' :: ("\"a = b\"".toList ++ [']']))
      ('[' :: ("\"a = b\"".toList ++ [']'])) [] := .of_index (by cbv) (by cbv) (by cbv) (by cbv)
  exact (hname.append hindex).rewrite_eq

/-- An index inside an index, compared with a literal that holds a quote and an operator. -/
theorem translate_keyed :
    translate .builtin "xs[m[\"a = b\"]] = \"\\\" or\"" = .ok "xs[(m[\"a = b\"]) - 1] == \"\\\" or\"" := by
  have hname : Passes builtinPhrases [] [] ['x', 's'] ['x', 's']
      ('[' :: (keyed ++ [']']) ++ (" = \"\\\" or\"".toList ++ [])) := .of_step (by cbv) rfl
  have hindex : Passes builtinPhrases ['s', 'x'] ['s', 'x'] ('[' :: (keyed ++ [']']))
      ('[' :: ('(' :: (keyed ++ ") - 1".toList) ++ [']'])) (" = \"\\\" or\"".toList ++ []) :=
    .of_index (by cbv) (by cbv) rewrite_keyed (by cbv)
  have htail : Passes builtinPhrases ((['x', 's'] ++ '[' :: (keyed ++ [']'])).reverse ++ [])
      ((['x', 's'] ++ '[' :: ('(' :: (keyed ++ ") - 1".toList) ++ [']'])).reverse ++ [])
      " = \"\\\" or\"".toList " == \"\\\" or\"".toList [] := by
    unfold Passes
    cbv
  exact translate_of_passes ((hname.append hindex).append htail)

theorem literals_translate_keyed :
    translate .builtin "xs[m[\"a = b\"]] = \"\\\" or\"" = .ok "xs[(m[\"a = b\"]) - 1] == \"\\\" or\"" ∧
      literals "xs[(m[\"a = b\"]) - 1] == \"\\\" or\"".toList = literals "xs[m[\"a = b\"]] = \"\\\" or\"".toList :=
  ⟨translate_keyed, literals_translate translate_keyed⟩

end Rulebook.Feel
