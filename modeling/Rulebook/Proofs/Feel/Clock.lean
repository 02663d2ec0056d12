/-
  Rulebook.Proofs.Feel.Clock — what comes to stand behind the clock.

  The clock is written without its brackets, so what follows them is written right behind
  its name. A place between two parts of a rule is carried to a place of what is written
  for it, into an index or behind one (`Carried`). Where the clock is called its name is
  written, and the name is the beginning of a longer word just where the text behind the
  brackets starts with a word or a digit that is not written as a sign (`StartsWord`).
  - `Rewritten.startsWord_iff`: whether a word goes on in what is written for a text.
  - `Rewritten.exists_carried`: a call of the clock is within no part, so its place is carried.
  - `Carried.exists_now`: what is written from there on.
  - `translate_clock`: the clock in the rewriting of a rule.
-/

import Rulebook.Proofs.Feel.Refusal
import Rulebook.Proofs.Feel.Settled

namespace Rulebook.Feel

open Rulebook.Text (isBlank isWordStart isWordChar firstInk leadingWord afterWord trim IsWord)

variable {phrases : List Phrase} {before out text front read written rest more call later index : List Char} {c : Char}

/-! ## What starts with a word -/

/-- A text starts with a word or a digit that is not written as a sign: with none of the connectives, and with no
    negation before a bracket. -/
def StartsWord (text : List Char) : Prop :=
  text.head?.any isWordChar = true ∧ leadingWord text ≠ "and".toList ∧ leadingWord text ≠ "or".toList ∧
    (leadingWord text = "not".toList → firstInk (afterWord text) ≠ some '(')

instance (text : List Char) : Decidable (StartsWord text) := inferInstanceAs (Decidable (_ ∧ _))

def signWords : List (List Char) := ["and".toList, "or".toList, "not".toList]

theorem startsWord_of_notMem (hc : text.head?.any isWordChar = true) (hw : leadingWord text ∉ signWords) :
    StartsWord text := by
  simp only [signWords, List.mem_cons, List.not_mem_nil, or_false, not_or] at hw
  exact ⟨hc, hw.1, hw.2.1, fun hnot => absurd hnot hw.2.2⟩

theorem startsWord_word {word : List Char} (hw : IsWord word) (hr : rest.head?.any isWordChar = false) :
    StartsWord (word ++ rest) ↔
      word ≠ "and".toList ∧ word ≠ "or".toList ∧ (word = "not".toList → firstInk rest ≠ some '(') := by
  obtain ⟨c, tail, rfl, hc, -⟩ := hw.exists_cons
  have hhead : (c :: tail ++ rest).head?.any isWordChar = true := Text.isWordChar_of_isWordStart hc
  unfold StartsWord
  rw [Text.leadingWord_append hw.2 hr, Text.afterWord_append hw.2 hr, and_iff_right hhead]

theorem startsWord_before_sign (hb : isBlank c = false) (hw : isWordChar c = false) (hc : c ≠ '(')
    (text rest : List Char) : StartsWord (text ++ c :: rest) ↔ StartsWord text := by
  obtain ⟨hlead, hafter⟩ := Text.word_before_sign hw text rest
  unfold StartsWord
  rw [hlead, hafter, Text.head?_before_sign hw, ne_eq (firstInk _), Text.firstInk_before_ink hb hc]

theorem startsWord_phrase {identifier : List Char}
    (found : Phrase.find? builtinPhrases (read ++ rest) = some (identifier, rest)) :
    identifier.head?.any isWordChar = true ∧ StartsWord (read ++ rest) := by
  have hfirsts : ∀ phrase ∈ builtinPhrases, ∀ word ∈ phrase.words.head?, word ≠ [] ∧ word ∉ signWords := by decide
  obtain ⟨phrase, hm, rfl, ⟨spelled, hspelled, hs⟩, hr, -⟩ := exists_spelled found
  obtain rfl := List.append_cancel_right hspelled
  obtain ⟨hne, hsign⟩ := hfirsts phrase hm _ (hs.head?_eq (fun word hw => ((isWord_builtin phrase hm).2 word hw).2) hr)
  refine ⟨?_, startsWord_of_notMem ?_ hsign⟩
  · obtain ⟨d, tail, hd, hstart, -⟩ := (isWord_identifier_builtin phrase hm).exists_cons
    rw [hd]
    exact Text.isWordChar_of_isWordStart hstart
  · exact Text.head?_of_leadingWord_ne_nil hne

theorem startsWord_wordText {word : List Char} (hw : IsWord word) (hr : rest.head?.any isWordChar = false) :
    (wordText word rest ++ more).head?.any isWordChar = true ↔ StartsWord (word ++ rest) := by
  rw [startsWord_word hw hr]
  unfold wordText
  split
  · rename_i hand
    exact iff_of_false Bool.false_ne_true fun hs => hs.1 hand
  split
  · rename_i hor
    exact iff_of_false Bool.false_ne_true fun hs => hs.2.1 hor
  split
  · rename_i hnot
    exact iff_of_false Bool.false_ne_true fun hs => hs.2.2 hnot.1 hnot.2
  · rename_i hand hor hnot
    obtain ⟨c, tail, rfl, hc, -⟩ := hw.exists_cons
    exact iff_of_true (Text.isWordChar_of_isWordStart hc) ⟨hand, hor, fun hword hopen => hnot ⟨hword, hopen⟩⟩

/-- A word goes on in what is written for a text just where the text starts with one that is no sign. -/
theorem Part.startsWord_iff (h : Part builtinPhrases before out read written rest)
    (hfree : continues before.head? = false) :
    (written ++ more).head?.any isWordChar = true ↔ StartsWord (read ++ rest) := by
  have hsign : ∀ {c d : Char} {xs ys : List Char}, isWordChar c = false → isWordChar d = false →
      ((d :: xs).head?.any isWordChar = true ↔ StartsWord (c :: ys)) := by
    intro c d xs ys hc hd
    refine iff_of_false (fun hh => ?_) fun hs => ?_
    · cases hd.symm.trans hh
    · cases hc.symm.trans hs.1
  cases h with
  | literal => exact hsign (by decide) (by decide)
  | list => exact hsign (by decide) (by decide)
  | equals =>
    split
    · exact hsign (by decide) (by decide)
    · exact hsign (by decide) (by decide)
  | @copied c rest copied =>
    cases hw : isWordChar c with
    | false => exact hsign hw hw
    | true =>
      -- no word begins here, so it is none of the words that are written as signs
      have hstart : isWordStart c = false := by
        simpa [isCopied, hfree] using (Bool.and_eq_true_iff.mp copied).2
      have hsigns : ∀ word ∈ signWords, word.head?.any isWordStart = true := by decide
      have hlead : leadingWord ([c] ++ rest) = c :: leadingWord rest := by simp [leadingWord, hw]
      refine iff_of_true hw (startsWord_of_notMem hw fun hm => ?_)
      have hhead := hsigns _ hm
      rw [hlead] at hhead
      cases hstart.symm.trans hhead
  | phrase starts free found =>
    obtain ⟨hidentifier, hstarts⟩ := startsWord_phrase found
    refine iff_of_true ?_ hstarts
    cases written with
    | nil => cases hidentifier
    | cons d tail => exact hidentifier
  | word name free whole unnamed uncalled => exact startsWord_wordText name whole
  | clock free unnamed empty =>
    rw [List.append_assoc, startsWord_word (by decide) (head?_of_emptyCall empty)]
    exact iff_of_true rfl ⟨by decide, by decide, fun hnot => absurd hnot (by decide)⟩

theorem Rewritten.startsWord_iff (h : Rewritten builtinPhrases before out text more)
    (hfree : continues before.head? = false) : more.head?.any isWordChar = true ↔ StartsWord text := by
  cases h with
  | done => exact iff_of_false Bool.false_ne_true fun hs => Bool.false_ne_true hs.1
  | part part next => exact part.startsWord_iff hfree
  | index => exact iff_of_false Bool.false_ne_true fun hs => Bool.false_ne_true hs.1

/-! ## Places that are carried -/

/-- What is written before and behind the content of an index: nothing if it is a key, and otherwise what takes one
    from its value. -/
inductive Frame : List Char → List Char → Prop where
  | key : Frame [] []
  | lowered : Frame ['('] ") - 1".toList

/-- The place of a text between `front` and `rest` is carried to the place between `written` and `more` of what is
    written for it. What has been read and written before the text is given in reverse. -/
inductive Carried (phrases : List Phrase) :
    List Char → List Char → List Char → List Char → List Char → List Char → Prop where
  | here {before out rest more : List Char} (next : Rewritten phrases before out rest more) :
      Carried phrases before out [] rest [] more
  | part {before out read written front rest front' more : List Char}
      (part : Part phrases before out read written (front ++ rest))
      (later : Carried phrases (read.reverse ++ before) (written.reverse ++ out) front rest front' more) :
      Carried phrases before out (read ++ front) rest (written ++ front') more
  | index {before out inner index low front rest front' more : List Char} (opens : opensIndex out = true)
      (matched : closes .outside 0 inner = true) (inside : Rewritten phrases [] [] inner index)
      (lower : ∀ position, lowered index position = .ok low)
      (later : Carried phrases (('[' :: (inner ++ [']'])).reverse ++ before) (('[' :: (low ++ [']'])).reverse ++ out)
        front rest front' more) :
      Carried phrases before out ('[' :: (inner ++ [']']) ++ front) rest ('[' :: (low ++ [']']) ++ front') more
  /-- Within an index the outer blanks of what is written, `lead` and `tail`, are left out. -/
  | inside {before out front behind lead front' behind' tail opening closing rest more : List Char}
      (opens : opensIndex out = true) (matched : closes .outside 0 (front ++ behind) = true)
      (within : Carried phrases [] [] front behind (lead ++ front') (behind' ++ tail))
      (leading : ∀ c ∈ lead, isBlank c = true) (trailing : ∀ c ∈ tail, isBlank c = true) (frame : Frame opening closing)
      (lower : ∀ position, lowered (lead ++ front' ++ (behind' ++ tail)) position =
        .ok (opening ++ front' ++ (behind' ++ closing)))
      (next : Rewritten phrases (('[' :: (front ++ behind ++ [']'])).reverse ++ before)
        (('[' :: (opening ++ front' ++ (behind' ++ closing) ++ [']'])).reverse ++ out) rest more) :
      Carried phrases before out ('[' :: front) (behind ++ ']' :: rest) ('[' :: (opening ++ front'))
        (behind' ++ (closing ++ ']' :: more))

theorem Carried.rewritten (h : Carried phrases before out front rest written more) :
    Rewritten phrases before out (front ++ rest) (written ++ more) := by
  induction h with
  | here next => exact next
  | part part _ ih =>
    rw [List.append_assoc, List.append_assoc]
    exact .part part ih
  | index opens matched inside lower _ ih =>
    rw [List.append_assoc, List.append_assoc]
    exact .index opens matched inside lower ih
  | inside opens matched _ _ _ _ lower next ih =>
    have hindex := Rewritten.index opens matched ih lower next
    simpa using hindex

theorem Rewritten.unique {other : List Char} (h : Rewritten phrases before out text more)
    (h' : Rewritten phrases before out text other) : more = other :=
  List.append_cancel_left (Except.ok.inj (h.scan_eq.symm.trans h'.scan_eq))

/-! ## Calls of the clock -/

theorem IsClockCall.before_bracket {after : List Char} (h : IsClockCall call)
    (hs : call ++ rest = text ++ ']' :: after) : ∃ left, text = call ++ left ∧ rest = left ++ ']' :: after :=
  Text.split_before (h.notMem (by decide) (by decide)) hs

/-- Where the clock is called its name is written, and then what is written for the text behind its brackets. -/
theorem Rewritten.exists_now (h : Rewritten builtinPhrases before out (call ++ rest) more) (hcall : IsClockCall call)
    (hfree : continues before.head? = false) : ∃ later, more = "now".toList ++ later ∧
      Rewritten builtinPhrases (call.reverse ++ before) ("now".toList.reverse ++ out) rest later := by
  obtain ⟨gap, inner, rfl, hgap, hinner⟩ := hcall
  have hempty : emptyCall? (gap ++ '(' :: (inner ++ [')']) ++ rest) = some rest := by
    have hblank := emptyCall?_blank hgap hinner rest
    simpa using hblank
  have hunnamed : Phrase.find? builtinPhrases ("now".toList ++ (gap ++ '(' :: (inner ++ [')']) ++ rest)) = none :=
    find?_eq_none isSpelled_builtin (by decide) (head?_of_emptyCall hempty) (Or.inl (by decide))
  have hpart : Part builtinPhrases before out ("now".toList ++ (gap ++ '(' :: (inner ++ [')']))) "now".toList rest :=
    .clock hfree hunnamed hempty
  exact hpart.passes.rewritten_iff.mp h

theorem Part.not_within (h : Part builtinPhrases before out read written rest) {inner : List Char}
    (hs : read = front ++ inner) (hf : front ≠ []) (hi : inner ≠ []) (hmode : Mode.outside.after front = .outside)
    (hfree : continues (front.reverse ++ before).head? = false) (hcall : IsClockCall call) :
    inner ++ rest ≠ call ++ later := by
  intro he
  have hone : ∀ {c : Char}, [c] ≠ front ++ inner := by
    intro c hc
    rcases List.singleton_eq_append_iff.mp hc with ⟨hnil, -⟩ | ⟨-, hnil⟩
    · exact hf hnil
    · exact hi hnil
  have hstart : inner.head? = some 'n' := by
    obtain ⟨d, inner, rfl⟩ := List.exists_cons_of_ne_nil hi
    have hhead := congrArg List.head? he
    rwa [List.head?_append, List.head?_append, hcall.head?] at hhead
  have hlast : front.getLast?.any isWordChar = false := by
    obtain ⟨d, hd⟩ := Option.isSome_iff_exists.mp (List.getLast?_isSome.mpr hf)
    rw [List.head?_append, List.head?_reverse, hd] at hfree
    simp only [hd, Option.any_some]
    exact (Bool.or_eq_false_iff.mp hfree).1
  cases h with
  | @literal content rest closed =>
    obtain ⟨c, front, rfl⟩ := List.exists_cons_of_ne_nil hf
    obtain ⟨rfl, rfl⟩ := List.cons.inj hs
    exact (isContent_of_literal? closed).after_ne_outside hi ['"'] hmode
  | list => exact hone hs
  | equals => exact hone hs
  | copied => exact hone hs
  | @phrase _ identifier rest starts free found =>
    have hapart : ∀ phrase ∈ builtinPhrases, "now".toList ∉ phrase.words := by decide
    obtain ⟨phrase, hm, -, ⟨spelled, hspelled, hspaced⟩, hr, -⟩ := exists_spelled found
    obtain rfl := List.append_cancel_right hspelled
    have hwords := (isWord_builtin phrase hm).2
    obtain ⟨word, hword, left, rfl, hleft⟩ :=
      hspaced.exists_word (fun word hw => (hwords word hw).2) hs hlast (by rw [hstart]; rfl)
    rw [List.append_assoc] at he
    obtain ⟨rfl, -⟩ := hcall.eq_now (hwords word hword).2 (Text.head?_append hleft hr) he
    exact hapart phrase hm hword
  | word name =>
    obtain ⟨d, hd⟩ := Option.isSome_iff_exists.mp (List.getLast?_isSome.mpr hf)
    rw [hd] at hlast
    cases hlast.symm.trans (name.2 d (by rw [hs]; exact List.mem_append_left _ (List.mem_of_getLast? hd)))
  | @clock brackets rest free unnamed empty =>
    obtain ⟨d, front, rfl⟩ := List.exists_cons_of_ne_nil hf
    have hread := isClockCall_of_emptyCall empty
    rw [hs, List.cons_append] at hread
    exact hread.notMem_tail (List.mem_append_right _ (List.mem_of_head? hstart))

theorem Frame.head?_closing {opening closing : List Char} (h : Frame opening closing) (more : List Char) :
    (closing ++ ']' :: more).head?.any isWordChar = false := by
  cases h with
  | key => rfl
  | lowered => rfl

theorem continues_behind_bracket (h : continues (('[' :: front).reverse ++ before).head? = false) :
    continues (front.reverse ++ []).head? = false := by
  cases hf : front.reverse with
  | nil => rfl
  | cons d more => simpa [hf] using h

/-- Behind the name of the clock a word goes on just where the text behind its brackets starts with one. -/
theorem Carried.exists_now (h : Carried builtinPhrases before out front (call ++ rest) written more)
    (hcall : IsClockCall call) (hfree : continues (front.reverse ++ before).head? = false) :
    ∃ later, more = "now".toList ++ later ∧ (later.head?.any isWordChar = true ↔ StartsWord rest) := by
  generalize hs : call ++ rest = text at h
  induction h generalizing rest with
  | here next =>
    subst hs
    obtain ⟨later, rfl, hlater⟩ := next.exists_now hcall hfree
    refine ⟨later, rfl, hlater.startsWord_iff ?_⟩
    rw [List.head?_append, List.head?_reverse, hcall.getLast?]
    rfl
  | part part _ ih => exact ih (by simpa using hfree) hs
  | index _ _ _ _ _ ih => exact ih (by simpa using hfree) hs
  | @inside before out front behind lead front' behind' tail opening closing after more _ _ _ _ trailing frame _ _ ih =>
    obtain ⟨left, rfl, rfl⟩ := hcall.before_bracket hs
    obtain ⟨later, hlater, hword⟩ := ih (continues_behind_bracket hfree) rfl
    -- the name is no blank, so it is not left out
    obtain ⟨left', rfl, rfl⟩ : ∃ left', behind' = "now".toList ++ left' ∧ later = left' ++ tail := by
      have hsplit : ['n', 'o'] ++ 'w' :: later = behind' ++ tail := hlater.symm
      rcases Text.split_beside hsplit with ⟨left', -, rfl⟩ | ⟨left', rfl, rfl⟩
      · cases trailing 'w' (by simp)
      · exact ⟨left', rfl, rfl⟩
    refine ⟨left' ++ (closing ++ ']' :: more), by simp, ?_⟩
    rw [startsWord_before_sign (by decide) (by decide) (by decide), ← hword]
    cases left' with
    | nil =>
      have htail : tail.head?.any isWordChar = false := by
        cases tail with
        | nil => rfl
        | cons d tail => exact Text.not_isWordChar_of_isBlank (trailing d (List.mem_cons_self ..))
      rw [List.nil_append, List.nil_append, frame.head?_closing more, htail]
    | cons d left' => rfl

/-- The content of an index is framed if it is no number. -/
theorem exists_frame {ink : List Char} (ht : trim index = ink) (hm : c ∈ ink) (hd : c.isDigit = false) (hp : c ≠ '+')
    (hn : c ≠ '-') :
    ∃ opening closing, Frame opening closing ∧ ∀ position, lowered index position = .ok (opening ++ (ink ++ closing)) := by
  subst ht
  by_cases hq : (trim index).head? = some '"'
  · exact ⟨_, _, .key, fun position => lowered_eq_ok_iff.mpr (Or.inl ⟨hq, by simp⟩)⟩
  · refine ⟨_, _, .lowered, fun position => lowered_eq_ok_iff.mpr (Or.inr (Or.inr ⟨hq, fun n hr => ?_, rfl⟩))⟩
    rcases Text.isDigit_of_readInt64 hr c hm with h | h | h
    · cases hd.symm.trans h
    · exact hp h
    · exact hn h

/-- Where the place of a call is carried within an index, it is carried with the index, too. -/
theorem Carried.enclosed {low after tail : List Char} (h : Carried builtinPhrases [] [] front (call ++ rest) written more)
    (hcall : IsClockCall call) (hfree : continues (front.reverse ++ []).head? = false) (opens : opensIndex out = true)
    (matched : closes .outside 0 (front ++ (call ++ rest)) = true)
    (lower : ∀ position, lowered (written ++ more) position = .ok low)
    (next : Rewritten builtinPhrases (('[' :: (front ++ (call ++ rest) ++ [']'])).reverse ++ before)
      (('[' :: (low ++ [']'])).reverse ++ out) after tail) :
    ∃ written' later, Carried builtinPhrases before out ('[' :: front) (call ++ rest ++ ']' :: after) written' later := by
  obtain ⟨later, rfl, -⟩ := h.exists_now hcall hfree
  obtain ⟨lead, front', behind, tail', rfl, hbehind, htrim, hlead, htail⟩ :=
    Text.exists_trim_around (c := 'n') (by decide) written (['o', 'w'] ++ later)
  have hnow : "now".toList ++ later = behind ++ tail' := hbehind
  have hmem : 'n' ∈ front' ++ behind := by
    cases behind with
    | nil =>
      have htail' : 'n' :: (['o', 'w'] ++ later) = tail' := hbehind
      cases htail 'n' (htail' ▸ List.mem_cons_self ..)
    | cons d behind =>
      obtain ⟨rfl, -⟩ := List.cons.inj hbehind
      simp
  -- a content that holds the name is no number
  obtain ⟨opening, closing, hframe, hframed⟩ := exists_frame htrim hmem (by decide) (by decide) (by decide)
  have hlow : low = opening ++ front' ++ (behind ++ closing) := by
    have hlowered := Except.ok.inj ((lower 0).symm.trans (hframed 0))
    rw [hlowered]
    simp
  rw [hnow] at h lower
  rw [hlow] at lower next
  exact ⟨_, _, .inside opens matched h hlead htail hframe lower next⟩

/-- The place of a call of the clock outside of literals is carried. -/
theorem Rewritten.exists_carried (h : Rewritten builtinPhrases before out text more)
    (hcut : CutsAt text front (call ++ rest)) (hcall : IsClockCall call)
    (hfree : continues (front.reverse ++ before).head? = false) :
    ∃ written later, Carried builtinPhrases before out front (call ++ rest) written later := by
  obtain ⟨rfl, hmode⟩ := hcut
  generalize hs : front ++ (call ++ rest) = text at h
  induction h generalizing front rest with
  | done =>
    have hnil := congrArg List.head? (List.append_eq_nil_iff.mp (List.append_eq_nil_iff.mp hs).2).1
    rw [hcall.head?] at hnil
    cases hnil
  | @part before out read written rest' more part next ih =>
    rcases Text.split_within hs.symm with ⟨front', rfl, rfl⟩ | ⟨inner, hi, hread, hinner⟩
    · rw [Mode.after_append, (part.kept unquoted_builtin).closed] at hmode
      obtain ⟨written', later, hlater⟩ := ih (by simpa using hfree) hmode rfl
      exact ⟨written ++ written', later, .part part hlater⟩
    · by_cases hf : front = []
      · subst hf
        have hall := Rewritten.part part next
        rw [← hs] at hall
        exact ⟨_, _, .here hall⟩
      · exact absurd hinner.symm (part.not_within hread hf hi hmode hfree hcall)
  | @index before out inner index low rest' more opens matched inside lower next ihinside ih =>
    cases front with
    | nil =>
      have hall := Rewritten.index opens matched inside lower next
      rw [← hs] at hall
      exact ⟨_, _, .here hall⟩
    | cons d front =>
      obtain ⟨rfl, hs⟩ := List.cons.inj hs
      have hs : inner ++ ']' :: rest' = front ++ (call ++ rest) := by simpa using hs.symm
      rcases Text.split_beside hs with ⟨left, rfl, hleft⟩ | ⟨front', rfl, hrest⟩
      · -- inside the brackets, so the call ends inside them
        obtain ⟨left, rfl, rfl⟩ := hcall.before_bracket hleft
        have hinside := continues_behind_bracket hfree
        obtain ⟨written, later, hcarried⟩ := ihinside hinside hmode rfl
        obtain rfl := inside.unique hcarried.rewritten
        rw [← List.append_assoc]
        exact hcarried.enclosed hcall hinside opens matched lower next
      · -- behind the closing bracket
        rw [after_index matched] at hmode
        have hsplit : '[' :: (inner ++ ']' :: front') = '[' :: (inner ++ [']']) ++ front' := by simp
        rw [hsplit] at hfree ⊢
        obtain ⟨written, later, hlater⟩ := ih (by simpa using hfree) hmode hrest.symm
        exact ⟨_, _, .index opens matched inside lower hlater⟩

/-! ## Rules -/

/-- Wherever a rule calls the clock outside of literals, at whatever depth, the place is carried to one where the name of
    the clock is written, and the name is the beginning of a longer word just where the text behind the brackets
    starts with a word or a digit that is not written as a sign. -/
theorem translate_clock {rule text : String} (h : translate .builtin rule = .ok text)
    (hcut : CutsAt rule.toList front (call ++ rest)) (hcall : IsClockCall call)
    (hfree : continues front.getLast? = false) :
    (∃ written more, Carried builtinPhrases [] [] front (call ++ rest) written more) ∧
      ∀ written more, Carried builtinPhrases [] [] front (call ++ rest) written more →
        ∃ later, more = "now".toList ++ later ∧ text.toList = written ++ ("now".toList ++ later) ∧
          (later.head?.any isWordChar = true ↔ StartsWord rest) := by
  have hrewritten := translate_eq_ok_iff.mp h
  rw [phrases_builtin] at hrewritten
  have hfree' : continues (front.reverse ++ []).head? = false := by rwa [List.append_nil, List.head?_reverse]
  refine ⟨hrewritten.exists_carried hcut hcall hfree', fun written more hcarried => ?_⟩
  obtain ⟨later, rfl, hword⟩ := hcarried.exists_now hcall hfree'
  have htext := hcarried.rewritten
  rw [← hcut.1] at htext
  exact ⟨later, rfl, hrewritten.unique htext, hword⟩

def scheduled : String := "xs[ now ( )and t ]"

theorem translate_scheduled : translate .builtin scheduled = .ok "xs[(now&& t) - 1]" := by
  have hname : Passes builtinPhrases [] [] ['x', 's'] ['x', 's'] ('[' :: (" now ( )and t ".toList ++ [']']) ++ []) :=
    .of_step (by cbv) rfl
  have hindex : Passes builtinPhrases ['s', 'x'] ['s', 'x'] ('[' :: (" now ( )and t ".toList ++ [']']))
      ('[' :: ("(now&& t) - 1".toList ++ [']'])) [] :=
    .of_index (by cbv) (bracket?_of_closes (by decide) _) (by cbv) (by cbv)
  exact translate_of_passes (hname.append hindex)

/-- The name stays a word of its own there. -/
theorem translate_clock_scheduled : translate .builtin scheduled = .ok "xs[(now&& t) - 1]" ∧
    CutsAt scheduled.toList "xs[ ".toList ("now ( )".toList ++ "and t ]".toList) ∧ IsClockCall "now ( )".toList ∧
    continues "xs[ ".toList.getLast? = false ∧ ∃ written later,
      "xs[(now&& t) - 1]".toList = written ++ ("now".toList ++ later) ∧ later.head?.any isWordChar = false := by
  have hcut : CutsAt scheduled.toList "xs[ ".toList ("now ( )".toList ++ "and t ]".toList) := ⟨rfl, by decide⟩
  have hcall : IsClockCall "now ( )".toList := ⟨[' '], [' '], rfl, by decide, by decide⟩
  refine ⟨translate_scheduled, hcut, hcall, rfl, ?_⟩
  obtain ⟨⟨written, more, hcarried⟩, hall⟩ := translate_clock translate_scheduled hcut hcall rfl
  obtain ⟨later, -, htext, hword⟩ := hall written more hcarried
  refine ⟨written, later, htext, ?_⟩
  rw [← Bool.not_eq_true, hword]
  decide

/-- In front of a name the clock is written as the beginning of a longer word. -/
theorem clock_joined : translate .builtin "now()in xs" = .ok "nowin xs" ∧
    Carried builtinPhrases [] [] [] "now()in xs".toList [] "nowin xs".toList ∧
    leadingWord "nowin xs".toList = "nowin".toList := by
  have hpasses : Passes builtinPhrases [] [] "now()in xs".toList "nowin xs".toList [] := by
    unfold Passes
    cbv
  have htranslate : translate .builtin "now()in xs" = .ok "nowin xs" := translate_of_passes hpasses
  have hrewritten := translate_eq_ok_iff.mp htranslate
  rw [phrases_builtin] at hrewritten
  exact ⟨htranslate, .here hrewritten, by decide⟩

end Rulebook.Feel
