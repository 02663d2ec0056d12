/-
  Rulebook.Proofs.Feel.Quoted — single quotes.

  The engine takes literals in single quotes, but to the rewriting a single quote is a sign
  like any other, and what stands behind it is rewritten as the rest of the rule. So such a
  literal keeps its content just where nothing in it would be rewritten (`Verbatim`).

  That a text without double quotes is its own rewriting means more than that nothing is
  found in it: what is written for its parts might add up to the text again. It does not.
  A part that is written otherwise is told from the text by its first characters
  (`Part.written_eq`), and so is an index, which is lowered (`index_ne`).
  - `rewritten_self_iff`: a text is its own rewriting just where nothing in it is rewritten.
  - `rewritten_behind_quote`: what stands before a single quote does not count behind it.
  - `translate_quoted`: which literals in single quotes keep their content.
-/

import Rulebook.Proofs.Feel.Numbered
import Rulebook.Proofs.Feel.Respaced
import Rulebook.Proofs.Feel.Settled

namespace Rulebook.Feel

open Rulebook.Text (isBlank isWordStart isWordChar skipBlank leadingWord afterWord trim decimal numeral readInt64 IsWord)

variable {before before' out out' read written rest more inner index low text : List Char}

/-! ## What is written starts as the text does -/

theorem Rewritten.takeWhile_eq (h : Rewritten builtinPhrases before out text more) {p : Char → Bool}
    (hp : ∀ c, p c = true → isBlank c = true ∨ c = '(' ∨ c = ')') : more.takeWhile p = text.takeWhile p := by
  have hfalse : ∀ c, isBlank c = false → c ≠ '(' → c ≠ ')' → p c = false := by
    intro c hb ho hc
    cases hpc : p c with
    | false => rfl
    | true =>
      rcases hp c hpc with h | h | h
      · cases hb.symm.trans h
      · exact absurd h ho
      · exact absurd h hc
  have hstart : ∀ c, isWordStart c = true → p c = false := fun c hc =>
    hfalse c (Text.not_isBlank_of_isWordChar (Text.isWordChar_of_isWordStart hc)) (Text.ne_of_class hc (by decide))
      (Text.ne_of_class hc (by decide))
  have hsign : ∀ c ∈ ['"', '[', '=', '&', '|', '!'], p c = false := by
    intro c hc
    refine hfalse c ?_ ?_ ?_ <;> revert c <;> decide
  have hleft : ∀ c ∈ ['"', '[', '='], c ∈ ['"', '[', '=', '&', '|', '!'] := by decide
  have hright : ∀ c ∈ ['&', '|', '!'], c ∈ ['"', '[', '=', '&', '|', '!'] := by decide
  induction h with
  | done => rfl
  | part part next ih =>
    obtain ⟨c, d, hc, hd, hcase⟩ := part.heads
    obtain ⟨read', rfl⟩ := List.head?_eq_some_iff.mp hc
    obtain ⟨written', rfl⟩ := List.head?_eq_some_iff.mp hd
    rcases hcase with ⟨hread, hwritten, -⟩ | ⟨rfl, hm⟩ | ⟨hcs, hds⟩
    · rw [hread, hwritten, List.singleton_append, List.singleton_append, List.takeWhile_cons, List.takeWhile_cons, ih]
    · simp [hsign c (hleft c hm)]
    · have hpd : p d = false := by
        rcases hds with hds | hm
        · exact hstart d hds
        · exact hsign d (hright d hm)
      simp [hstart c hcs, hpd]
  | index => simp [hsign '[' (by decide)]

/-- The identifier that is found does not stand in the text: it is longer than the first word that it is written for. -/
theorem not_prefix_of_find? {identifier : List Char} (h : Phrase.find? builtinPhrases text = some (identifier, rest)) :
    ¬identifier <+: text := by
  have hlonger : ∀ phrase ∈ builtinPhrases, ∀ word, phrase.words.head? = some word → ¬phrase.identifier <+: word := by
    decide
  obtain ⟨phrase, hm, rfl, ⟨words, rfl, hs⟩, hr, -⟩ := exists_spelled h
  have hfirst := hs.head?_eq (fun word hword => ((isWord_builtin phrase hm).2 word hword).2) hr
  rintro ⟨more, he⟩
  rw [← he, leadingWord, List.takeWhile_append_of_pos (isWord_identifier_builtin phrase hm).2] at hfirst
  exact hlonger phrase hm _ hfirst (List.prefix_append ..)

theorem ne_written_clock {call : List Char} (empty : emptyCall? (call ++ rest) = some rest)
    (next : Rewritten builtinPhrases before out rest more) : more ≠ call ++ rest := by
  rintro rfl
  obtain ⟨gap, inner, hcall, hgap, hinner⟩ := exists_of_emptyCall empty
  have hsplit : call = gap ++ '(' :: (inner ++ [')']) := List.append_cancel_right (hcall.trans (by simp))
  have hall : ∀ c ∈ call, (isBlank c || c == '(' || c == ')') = true := by
    intro c hc
    simp only [hsplit, List.mem_append, List.mem_cons, List.not_mem_nil, or_false] at hc
    rcases hc with hc | rfl | hc | rfl
    · simp [hgap c hc]
    · rfl
    · simp [hinner c hc]
    · rfl
  -- the rest would start with a longer run of blanks and brackets than what is written for it
  have hrun := next.takeWhile_eq (p := fun c => isBlank c || c == '(' || c == ')') (by simp [or_assoc])
  rw [List.takeWhile_append_of_pos hall, List.append_left_eq_self] at hrun
  rw [hrun] at hsplit
  exact absurd hsplit (by simp)

/-- What is written for a part is the part, if what is written from there on is what is read. -/
theorem Part.written_eq (h : Part builtinPhrases before out read written rest)
    (next : Rewritten builtinPhrases (read.reverse ++ before) (written.reverse ++ out) rest more)
    (he : written ++ more = read ++ rest) : written = read := by
  cases h with
  | literal => rfl
  | list => rfl
  | copied => rfl
  | equals =>
    cases hj : joinsOperator before.head? rest with
    | true => rfl
    | false =>
      -- a second sign would be one of the rule, and join the first
      rw [hj] at he
      obtain rfl : '=' :: more = rest := (List.cons.inj he).2
      simp [joinsOperator] at hj
  | phrase starts free found =>
    exact absurd ⟨more, he⟩ (not_prefix_of_find? found)
  | word name free whole unnamed uncalled =>
    obtain ⟨c, tail, rfl, hc, -⟩ := name.exists_cons
    rcases wordText_cases (c :: tail) rest with (htext | htext | htext) | ⟨htext, -⟩
    · rw [htext] at he
      obtain ⟨rfl, -⟩ := List.cons.inj he
      cases hc
    · rw [htext] at he
      obtain ⟨rfl, -⟩ := List.cons.inj he
      cases hc
    · rw [htext] at he
      obtain ⟨rfl, -⟩ := List.cons.inj he
      cases hc
    · exact htext
  | @clock call rest free unnamed empty =>
    rw [List.append_assoc "now".toList] at he
    exact absurd (List.append_cancel_left he) (ne_written_clock empty next)

/-! ## An index is written otherwise -/

/-- How many brackets open a text, with blanks between them or none. -/
def opened (text : List Char) : Nat := (text.takeWhile fun c => isBlank c || c == '(').count '('

theorem opened_open (text : List Char) : opened ('(' :: text) = opened text + 1 := by
  simp [opened]

theorem opened_blank {c : Char} (h : isBlank c = true) (text : List Char) : opened (c :: text) = opened text := by
  have hne : c ≠ '(' := Text.ne_of_class h (by decide)
  simp [opened, h, hne]

theorem opened_other {c : Char} (hb : isBlank c = false) (hc : c ≠ '(') (text : List Char) : opened (c :: text) = 0 := by
  simp [opened, hb, hc]

theorem opened_gap {gap : List Char} (hg : ∀ c ∈ gap, isBlank c = true) (text : List Char) :
    opened (gap ++ text) = opened text := by
  induction gap with
  | nil => rfl
  | cons d gap ih =>
    rw [List.cons_append, opened_blank (hg d (List.mem_cons_self ..)), ih fun c hc => hg c (List.mem_cons_of_mem _ hc)]

theorem opened_append (h : opened rest = 0) (text : List Char) : opened (text ++ rest) = opened text := by
  induction text with
  | nil => exact h
  | cons d text ih =>
    rw [List.cons_append]
    by_cases hd : d = '('
    · rw [hd, opened_open, opened_open, ih]
    cases hblank : isBlank d with
    | true => rw [opened_blank hblank, opened_blank hblank, ih]
    | false => rw [opened_other hblank hd, opened_other hblank hd]

theorem opened_trim (text : List Char) : opened (trim text) = opened text := by
  obtain ⟨lead, tail, htext, hlead, htail⟩ := Text.exists_trim text
  have htail0 : opened tail = 0 := by
    have h := opened_gap htail []
    rwa [List.append_nil] at h
  conv_rhs => rw [htext, opened_gap hlead, opened_append htail0]

theorem rewrite_digits {phrases : List Phrase} (h : ∀ c ∈ text, c.isDigit = true) : rewrite phrases text = .ok text :=
  (Passes.signs fun c hc => isCopied_digit (h c hc)).rewrite_eq

theorem rewritten_numeral_ne {m : Nat} (inside : Rewritten builtinPhrases [] [] (numeral m) index) :
    Text.readInt64 (trim index) ≠ .ok (m + 1) := by
  intro hread
  have hdigit : ∀ c ∈ numeral m, c.isDigit = true := fun c => Text.isDigit_of_mem_numeral
  have hindex : index = numeral m := by
    have hcopied : rewrite builtinPhrases (numeral m) = _ := rewrite_digits hdigit
    rw [rewrite, inside.scan_eq] at hcopied
    simpa using hcopied
  have htrim : trim (numeral m) = numeral m := Text.trim_ink fun c hc =>
    Text.not_isBlank_of_isWordChar (Text.isWordChar_of_isDigit (hdigit c hc))
  rw [hindex, htrim] at hread
  have hself : Text.IsInteger (numeral m) m := ⟨_, _, Text.isNumeral_numeral _, Or.inl ⟨Or.inl rfl, rfl⟩⟩
  have hsame := (Text.readInt64_eq_ok_iff.mp hread).1.unique hself
  omega

theorem index_ne {position : Nat} (inside : Rewritten builtinPhrases [] [] inner index)
    (hm : closes .outside 0 inner = true) (hl : lowered index position = .ok low) (hq : '"' ∉ low) :
    low ++ ']' :: more ≠ inner ++ ']' :: rest := by
  intro he
  rcases lowered_eq_ok_iff.mp hl with ⟨hkey, rfl⟩ | ⟨n, hread, hn, rfl⟩ | ⟨-, -, rfl⟩
  · -- a key starts with a quote
    exact hq (List.mem_of_head? hkey)
  · -- the brackets hold one number, which would be the number before itself
    obtain ⟨m, rfl⟩ : ∃ m : Nat, n = m + 1 := ⟨(n - 1).toNat, by omega⟩
    have hdecimal : decimal (m + 1 - 1) = numeral m := by
      rw [Int.add_sub_cancel, decimal, if_neg (by omega)]
      rfl
    have hlow : closes .outside 0 (numeral m) = true := closes_of_forall fun c hc => by
      have hdigit := Text.isDigit_of_mem_numeral hc
      exact ⟨Text.ne_of_class hdigit (by decide), Text.ne_of_class hdigit (by decide), Text.ne_of_class hdigit (by decide)⟩
    rw [hdecimal] at he
    obtain ⟨rfl, -⟩ := closes_unique hlow hm he
    exact rewritten_numeral_ne inside hread
  · -- a bracket more opens what is written
    have hend : ∀ rest, opened (']' :: rest) = 0 := opened_other (by decide) (by decide)
    have hopened := congrArg opened he
    have hinside : opened index = opened inner := by
      refine congrArg (List.count '(') (inside.takeWhile_eq fun c hc => ?_)
      simp only [Bool.or_eq_true, beq_iff_eq] at hc
      exact hc.imp_right Or.inl
    have hlower : opened ") - 1".toList = 0 := by decide
    rw [opened_append (hend _), opened_append (hend _), opened_open, opened_append hlower, opened_trim, hinside] at hopened
    exact absurd hopened (Nat.succ_ne_self _)

/-! ## Places of a text that is its own rewriting -/

/-- At a place behind `before`, which is in reverse, the clock is not called, and no index is closed. -/
structure Inert (before rest : List Char) : Prop where
  clock : continues before.head? = false → ∀ call left, IsClockCall call → rest ≠ call ++ left
  index : ∀ inner after, rest = '[' :: (inner ++ ']' :: after) → closes .outside 0 inner = true → opensIndex before = false

theorem Inert.of_head (h : ∀ c, rest.head? = some c → c ≠ '[' ∧ (isWordStart c = false ∨ continues before.head? = true)) :
    Inert before rest where
  clock hfree call left hcall he := by
    have hc := congrArg List.head? he
    rw [List.head?_append, hcall.head?] at hc
    rcases (h 'n' hc).2 with hw | hw
    · cases hw
    · cases hfree.symm.trans hw
  index inner after he := absurd rfl (h '[' (by rw [he]; rfl)).1

theorem Inert.of_cons {c : Char} (hb : c ≠ '[') (hw : isWordStart c = false ∨ continues before.head? = true) :
    Inert before (c :: rest) :=
  .of_head fun d hd => by
    obtain rfl : c = d := Option.some.inj hd
    exact ⟨hb, hw⟩

theorem Inert.of_word {word front left : List Char} (name : IsWord word) (whole : rest.head?.any isWordChar = false)
    (uncalled : word = "now".toList → emptyCall? rest = none) (hs : word = front ++ left) (hn : left ≠ []) :
    Inert (front.reverse ++ before) (left ++ rest) := by
  obtain ⟨c, tail, rfl⟩ := List.exists_cons_of_ne_nil hn
  have hc : isWordChar c = true := name.2 c (by rw [hs]; simp)
  have hbracket : c ≠ '[' := Text.ne_of_class hc (by decide)
  cases hf : front.reverse with
  | cons d front' =>
    -- inside of the word no word begins
    have hd : isWordChar d = true := name.2 d (by rw [hs]; exact List.mem_append_left _ (List.mem_reverse.mp (by simp [hf])))
    exact .of_cons hbracket (Or.inr (by simp [continues, hd]))
  | nil =>
    obtain rfl := List.reverse_eq_nil_iff.mp hf
    refine ⟨fun _ call more hcall htext => ?_, fun inner after htext => absurd (List.cons.inj htext).1 hbracket⟩
    rw [← List.nil_append (c :: tail), ← hs] at htext
    obtain ⟨hnow, hempty⟩ := hcall.eq_now name.2 whole htext
    cases (uncalled hnow).symm.trans hempty

/-- A part that is copied is inert where it begins and inside of it. -/
theorem Part.inert (h : Part builtinPhrases before before read written rest) (hw : written = read) (hq : '"' ∉ read)
    {front left : List Char} (hs : read = front ++ left) (hn : left ≠ []) : Inert (front.reverse ++ before) (left ++ rest) := by
  -- of a part of one character only the beginning is a place
  have hone : ∀ {c : Char}, [c] = front ++ left → front = [] ∧ left = [c] := by
    intro c he
    rcases List.singleton_eq_append_iff.mp he with hcut | ⟨-, hnil⟩
    · exact hcut
    · exact absurd hnil hn
  cases h with
  | literal => exact absurd (List.mem_cons_self ..) hq
  | list unmatched =>
    obtain ⟨rfl, rfl⟩ := hone hs
    refine ⟨fun _ call more hcall he => ?_, fun inner after he hclosing => ?_⟩
    · have hc := congrArg List.head? he
      rw [List.head?_append, List.head?_append, hcall.head?] at hc
      cases hc
    · obtain rfl : rest = inner ++ ']' :: after := (List.cons.inj he).2
      cases ho : opensIndex before with
      | false => exact ho
      | true => cases (unmatched ho).symm.trans (bracket?_of_closes hclosing after)
  | equals =>
    obtain ⟨rfl, rfl⟩ := hone hs
    exact .of_cons (by decide) (Or.inl rfl)
  | @copied c rest copied =>
    obtain ⟨rfl, rfl⟩ := hone hs
    simp only [isCopied, Bool.and_eq_true, bne_iff_ne, Bool.or_eq_true, Bool.not_eq_true'] at copied
    exact .of_cons copied.1.1.2 copied.2
  | phrase starts free found => exact absurd ⟨rest, by rw [hw]⟩ (not_prefix_of_find? found)
  | word name free whole unnamed uncalled => exact .of_word name whole uncalled hs hn
  | clock free unnamed empty =>
    have hcall := List.append_right_eq_self.mp hw.symm
    have hlast := getLast?_of_emptyCall empty
    rw [hcall] at hlast
    cases hlast

/-- Every place of a text that is its own rewriting is inert. -/
theorem Rewritten.inert (h : Rewritten builtinPhrases before out text more) (ho : out = before) (he : more = text)
    (hq : '"' ∉ text) {front left : List Char} (hs : text = front ++ left) : Inert (front.reverse ++ before) left := by
  induction h generalizing front with
  | done =>
    obtain ⟨rfl, rfl⟩ := List.append_eq_nil_iff.mp hs.symm
    exact .of_head nofun
  | @part before out read written rest more part next ih =>
    subst ho
    obtain rfl := part.written_eq next he
    obtain rfl := List.append_cancel_left he
    rw [List.mem_append, not_or] at hq
    rcases Text.split_within hs with ⟨front', rfl, hmore⟩ | ⟨left', hn, hread, rfl⟩
    · simpa using ih rfl rfl hq.2 hmore
    · exact part.inert rfl hq.1 hread hn
  | @index before out inner index low rest more opens matched inside lower next _ ih =>
    simp only [List.cons_append, List.append_assoc, List.cons.injEq, true_and] at he
    have hlow : '"' ∉ low := by
      intro hm
      have hread : '"' ∈ inner ++ ']' :: rest := he ▸ List.mem_append_left _ hm
      exact hq (by simpa using hread)
    exact absurd he (index_ne inside matched (lower 0) hlow)

/-- A text without double quotes is its own rewriting just where nothing in it is rewritten. -/
theorem rewritten_self_iff (hq : '"' ∉ text) : Rewritten builtinPhrases [] [] text text ↔ Verbatim .builtin text := by
  constructor
  · intro h
    have hclear := h.settled (.start text)
    refine ⟨(Unquoted.reads fun c hc he => hq (he ▸ hc)).1, fun before rest hcut => ?_, ?_, fun before rest hcut hfree hkeyed => ?_⟩
    · simpa using (hclear _ _ hcut).equals rest rfl
    · rintro before inner after ⟨hsplit, -⟩ hclosing
      simpa using (h.inert rfl rfl hq hsplit).index inner after rfl hclosing
    · have hnone : continues before.getLast? = false := by
        cases hl : before.getLast? with
        | none => rfl
        | some c => simp [continues, hfree c hl]
      have hsurface := (hclear _ _ hcut).words (by simpa using hnone)
      have hinert := (h.inert rfl rfl hq hcut.1).clock (by simpa [List.head?_reverse] using hnone)
      cases hkeyed with
      | connective which whole => exact hsurface (.connective which whole)
      | negation blank => exact hsurface (.negation blank)
      | @clock gap inner left blank empty => exact hinert _ left ⟨gap, inner, rfl, blank, empty⟩ (by simp)
      | name known spelled blank => exact hsurface (.name known spelled blank)
  · intro h
    have hrewrite := rewrite_verbatim h
    rw [phrases_builtin] at hrewrite
    exact rewritten_iff.mpr hrewrite

/-! ## Behind a single quote -/

variable {phrases : List Phrase}

/-- A part depends on what stands before it only in its last character and in what it says of a bracket. -/
theorem Part.of_same (hb : before'.head? = before.head?) (ho : opensIndex out = opensIndex out')
    (h : Part phrases before out read written rest) : Part phrases before' out' read written rest := by
  cases h with
  | literal closed => exact .literal closed
  | list unmatched => exact .list (ho ▸ unmatched)
  | equals =>
    rw [← hb]
    exact .equals
  | copied copied => exact .copied (by rwa [hb])
  | phrase starts free found => exact .phrase starts (by rwa [hb]) found
  | word name free whole unnamed uncalled => exact .word name (by rwa [hb]) whole unnamed uncalled
  | clock free unnamed empty => exact .clock (by rwa [hb]) unnamed empty

theorem Rewritten.of_same (h : Rewritten phrases before out text more) (hb : before'.head? = before.head?)
    (ho : SameIndex out out') : Rewritten phrases before' out' text more := by
  induction h generalizing before' out' with
  | done => exact .done
  | @part before out read written rest more part next ih =>
    refine .part (part.of_same hb (ho [])) (ih ?_ (ho.append _))
    rw [List.head?_append, List.head?_append, hb]
  | @index before out inner index low rest more opens matched inside lower next _ ih =>
    refine .index ((ho []).symm.trans opens) matched inside lower (ih ?_ (ho.append _))
    rw [List.head?_append, List.head?_append, hb]

/-- What stands before a single quote does not count behind it. -/
theorem rewritten_behind_quote :
    Rewritten phrases before out ('\'' :: text) ('\'' :: more) ↔ Rewritten phrases [] [] ('\'' :: text) ('\'' :: more) := by
  have hquote : ∀ {before out : List Char}, Passes phrases before out ['\''] ['\''] text :=
    .char (isCopied_sign (by decide) _)
  have hsplit : ∀ {before out : List Char}, Rewritten phrases before out ('\'' :: text) ('\'' :: more) ↔
      Rewritten phrases ('\'' :: before) ('\'' :: out) text more := by
    intro before out
    have h : Rewritten phrases before out (['\''] ++ text) ('\'' :: more) ↔ _ := hquote.rewritten_iff
    simpa using h
  have hsame : ∀ out out' : List Char, SameIndex ('\'' :: out) ('\'' :: out') := by
    intro out out'
    refine .of_sign (by decide) (by decide) ?_
    rw [opensIndex_sign (by decide) (by decide) (by decide), opensIndex_sign (by decide) (by decide) (by decide)]
  rw [hsplit, hsplit]
  exact ⟨fun h => h.of_same rfl (hsame _ _), fun h => h.of_same rfl (hsame _ _)⟩

/-! ## Literals in single quotes -/

def quoted (text : List Char) : List Char := '\'' :: (text ++ ['\''])

def comparison (x : Name) (sign text : List Char) : List Char := x.text ++ ' ' :: (sign ++ ' ' :: quoted text)

theorem find?_eq_none_of_sign {front : List Char} {c : Char} (hf : ∀ d ∈ front, (isWordChar d || isBlank d) = true)
    (hc : (isWordChar c || isBlank c) = false) (hne : c ≠ '(') : Phrase.find? builtinPhrases (front ++ c :: rest) = none := by
  rw [Option.eq_none_iff_forall_ne_some]
  rintro ⟨identifier, left⟩ hfound
  obtain ⟨phrase, hm, -, ⟨words, hread, hs⟩, -, hopen⟩ := exists_spelled hfound
  obtain ⟨gap, more, rfl, hgap⟩ := Text.exists_of_firstInk hopen
  have hwords : ∀ d ∈ words, (isWordChar d || isBlank d) = true := by
    refine hs.forall_mem (fun word hword d hd => ?_) fun d hd => ?_
    · simp [((isWord_builtin phrase hm).2 word hword).2 d hd]
    · simp [hd]
  have hdrop := congrArg (List.dropWhile fun d => isWordChar d || isBlank d) hread
  rw [List.dropWhile_append_of_pos hf, List.dropWhile_append_of_pos hwords,
    List.dropWhile_append_of_pos fun d hd => by simp [hgap d hd], List.dropWhile_cons_of_neg (by simp [hc]),
    List.dropWhile_cons_of_neg (by decide)] at hdrop
  exact hne (List.cons.inj hdrop).1

theorem Name.passes_operand (x : Name) {c : Char} (hc : (isWordChar c || isBlank c) = false) (hne : c ≠ '(') :
    Passes builtinPhrases [] [] x.text x.text (' ' :: c :: rest) := by
  have hink : Text.firstInk (' ' :: c :: rest) ≠ some '(' := by
    have hblank : isBlank c = false := by simp_all
    have hgap : ∀ d ∈ [' '], isBlank d = true := by decide
    have hfirst : Text.firstInk (' ' :: c :: rest) = some c := Text.firstInk_gap hgap hblank rest
    rw [hfirst]
    simpa using hne
  have hfront : ∀ d ∈ x.text ++ [' '], (isWordChar d || isBlank d) = true := by
    intro d hd
    rcases List.mem_append.mp hd with hd | hd
    · simp [x.isWord.2 d hd]
    · rw [List.mem_singleton.mp hd]
      rfl
  have hnone : Phrase.find? builtinPhrases (x.text ++ [' '] ++ c :: rest) = none := find?_eq_none_of_sign hfront hc hne
  rw [List.append_assoc] at hnone
  exact passes_word_uncalled x.isWord x.ne_connective.1 x.ne_connective.2 rfl rfl hink hnone

/-- A text in single quotes keeps its content just where nothing in it is rewritten. -/
theorem translate_quoted (x : Name) {text : List Char} (hq : '"' ∉ text) :
    translate .builtin (.ofList (comparison x ['='] text)) = .ok (.ofList (comparison x ['=', '='] text)) ↔
      Verbatim .builtin (quoted text) := by
  have hunquoted : '"' ∉ quoted text := by simp [quoted, hq]
  have hsigns : ∀ before out, Passes builtinPhrases before out [' ', '=', ' '] [' ', '=', '=', ' '] (quoted text) :=
    fun before out => .cons (isCopied_sign (by decide) _) (Passes.equals.append (.char (isCopied_sign (by decide) _)))
  have hfront : Passes builtinPhrases [] [] (x.text ++ [' ', '=', ' ']) (x.text ++ [' ', '=', '=', ' ']) (quoted text) :=
    (x.passes_operand (by decide) (by decide)).append (hsigns _ _)
  have hread : comparison x ['='] text = x.text ++ [' ', '=', ' '] ++ quoted text := by simp [comparison]
  have hwritten : comparison x ['=', '='] text = x.text ++ [' ', '=', '=', ' '] ++ quoted text := by simp [comparison]
  rw [translate_eq_ok_iff, phrases_builtin, String.toList_ofList, String.toList_ofList, hread, hwritten,
    hfront.rewritten_iff, ← rewritten_self_iff hunquoted]
  simp only [List.append_cancel_left_eq, exists_eq_left']
  exact rewritten_behind_quote

def remark : List Char := "open: a.or != [größe]".toList

theorem plain_remark : Plain .builtin (quoted remark) := .of_places (by decide +kernel) (by decide +kernel)

theorem translate_quoted_remark : '"' ∉ remark ∧
    translate .builtin "person = 'open: a.or != [größe]'" = .ok "person == 'open: a.or != [größe]'" := by
  have hq : '"' ∉ remark := by decide
  have htranslate := (translate_quoted person hq).mpr plain_remark.verbatim
  have hrule : "person = 'open: a.or != [größe]'" = String.ofList (comparison person ['='] remark) := by decide
  have hwritten : String.ofList (comparison person ['=', '='] remark) = "person == 'open: a.or != [größe]'" := by decide
  exact ⟨hq, by rw [hrule, htranslate, hwritten]⟩

/-- An equals sign in single quotes is rewritten as one of the rule. -/
theorem equals_in_quotes : translate .builtin "x = 'a = b'" = .ok "x == 'a == b'" ∧ "x == 'a == b'" ≠ "x == 'a = b'" := by
  refine ⟨translate_of_passes ?_, by decide⟩
  unfold Passes
  cbv

end Rulebook.Feel
