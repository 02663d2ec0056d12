/-
  Rulebook.Proofs.Feel.Settled — no surface of the friendly dialect is left in what is written.

  Each step decides on the text of the rule, and what it writes is something else: calls lose
  their brackets, names are replaced, an index is trimmed and put in brackets. Nothing that is
  so put together, or comes to stand where it did not, is read as the friendly dialect again:
  no equals sign stands alone, and where a word begins there is no connective, no negation
  and no called name of several words (`Settled`).

  Two facts carry this from the rule to what is written for it. Behind each part a word or an
  operator goes on in what is written if it does so in the rule (`Part.follows`). And blanks,
  brackets and words that are written stand in the rule as well, unless the word is the
  clock or the identifier of a name (`Rewritten.head_sign`, `Rewritten.head_word`), so a
  surface that is written would have been one in the rule, where it is replaced.
  - `Rewritten.settled`: what is written for a text is settled, with every index in it.
  - `settled_translate`: so is what a rule is rewritten to.
-/

import Rulebook.Proofs.Feel.Parts
import Rulebook.Proofs.Feel.Plain
import Rulebook.Proofs.Feel.Trail

namespace Rulebook.Feel

open Rulebook.Text (isBlank isWordStart isWordChar firstInk leadingWord afterWord trim decimal IsWord)

/-! ## Surfaces -/

/-- Texts that start with a surface of the friendly dialect, if a word begins there. -/
inductive Surface (registry : Registry) : List Char → Prop where
  | connective {word rest : List Char} (which : word = "and".toList ∨ word = "or".toList)
      (whole : rest.head?.any isWordChar = false) : Surface registry (word ++ rest)
  | negation {gap rest : List Char} (blank : ∀ c ∈ gap, isBlank c = true) :
      Surface registry ("not".toList ++ (gap ++ '(' :: rest))
  | name {name : String} {read gap rest : List Char}
      (known : name = "date and time" ∨
        ∃ extension ∈ registry.toList, extension.name = name ∧ name.toList.any isBlank = true)
      (spelled : Spaced (Text.words name.toList) read) (blank : ∀ c ∈ gap, isBlank c = true) :
      Surface registry (read ++ (gap ++ '(' :: rest))

/-- Texts without a surface of the friendly dialect outside of literals. -/
structure Settled (registry : Registry) (text : List Char) : Prop where
  equals : ∀ before rest, CutsAt text before ('=' :: rest) →
    rest.head? = some '=' ∨ ∃ c ∈ ['=', '!', '<', '>'], before.getLast? = some c
  words : ∀ before rest, CutsAt text before rest →
    (∀ c, before.getLast? = some c → isWordChar c = false ∧ c ≠ '.') → ¬Surface registry rest

variable {text xs ys more : List Char} {c : Char}

def calledWords : List (List (List Char)) := ["not".toList] :: builtinPhrases.map Phrase.words

theorem isWord_called : ∀ ws ∈ calledWords, ws ≠ [] ∧ ∀ word ∈ ws, IsWord word := by decide

/-- A built-in surface is a connective, or words with blanks between them and a bracket behind. -/
theorem Surface.cases (h : Surface .builtin text) :
    (∃ word rest, text = word ++ rest ∧ (word = "and".toList ∨ word = "or".toList) ∧ rest.head?.any isWordChar = false) ∨
      ∃ ws ∈ calledWords, ∃ read gap rest, text = read ++ (gap ++ '(' :: rest) ∧ Spaced ws read ∧
        ∀ c ∈ gap, isBlank c = true := by
  cases h with
  | connective which whole => exact Or.inl ⟨_, _, rfl, which, whole⟩
  | negation blank => exact Or.inr ⟨["not".toList], List.mem_cons_self .., _, _, _, rfl, .one _, blank⟩
  | @name name read gap rest known spelled blank =>
    refine Or.inr ⟨_, List.mem_cons_of_mem _ (List.mem_map.mpr ?_), _, _, _, rfl, spelled, blank⟩
    rw [← phrases_builtin]
    rcases known with rfl | ⟨extension, hm, rfl, hb⟩
    · exact ⟨_, mem_ofRegistry_iff.mpr (Or.inr rfl), rfl⟩
    · exact ⟨_, mem_ofRegistry_iff.mpr (Or.inl ⟨extension, hm, hb, rfl⟩), rfl⟩

theorem surface_of_called {ws : List (List Char)} (hm : ws ∈ calledWords) {read gap : List Char} (hs : Spaced ws read)
    (hg : ∀ c ∈ gap, isBlank c = true) (rest : List Char) : Surface .builtin (read ++ (gap ++ '(' :: rest)) := by
  rcases List.mem_cons.mp hm with rfl | hm
  · rw [hs.eq_of_one]
    exact .negation hg
  · obtain ⟨phrase, hphrase, rfl⟩ := List.mem_map.mp hm
    rw [← phrases_builtin] at hphrase
    rcases mem_ofRegistry_iff.mp hphrase with ⟨extension, he, hb, rfl⟩ | rfl
    · exact .name (Or.inr ⟨extension, he, rfl, hb⟩) hs hg
    · exact .name (Or.inl rfl) hs hg

def firstWords : List (List Char) := ["and".toList, "or".toList] ++ calledWords.filterMap List.head?

theorem Surface.leadingWord_mem (h : Surface .builtin text) : leadingWord text ∈ firstWords := by
  have hword : ∀ word rest : List Char, (∀ c ∈ word, isWordChar c = true) → rest.head?.any isWordChar = false →
      word ∈ firstWords → leadingWord (word ++ rest) ∈ firstWords := by
    intro word rest hw hr hm
    rwa [Text.leadingWord_append hw hr]
  rcases h.cases with ⟨word, rest, rfl, hwhich, hrest⟩ | ⟨ws, hm, read, gap, rest, rfl, hs, hg⟩
  · rcases hwhich with rfl | rfl
    · exact hword _ _ (by decide) hrest (by decide)
    · exact hword _ _ (by decide) hrest (by decide)
  · have hfirst := hs.head?_eq (fun word hword => ((isWord_called ws hm).2 word hword).2)
      (show (gap ++ '(' :: rest).head?.any isWordChar = false from Text.head?_gap hg rfl)
    exact List.mem_append_right _ (List.mem_filterMap.mpr ⟨ws, hm, hfirst⟩)

theorem Surface.head? (h : Surface .builtin text) : text.head?.any isWordStart = true := by
  have hstart : ∀ word ∈ firstWords, word.head?.any isWordStart = true := by decide
  have hfirst := hstart _ h.leadingWord_mem
  cases text with
  | nil => cases hfirst
  | cons c rest =>
    cases hw : isWordChar c with
    | true => simpa [leadingWord, hw] using hfirst
    | false => simp [leadingWord, hw] at hfirst

theorem Surface.before_sign {zs : List Char} (h : Surface .builtin (xs ++ c :: zs)) (hw : isWordChar c = false)
    (hb : isBlank c = false) (hc : c ≠ '(') (hy : ys.head?.any isWordChar = false) : Surface .builtin (xs ++ ys) := by
  have hword : ∀ word : List Char, (∀ d ∈ word, isWordChar d = true) → c ∉ word := by
    intro word hall hm
    cases hw.symm.trans (hall c hm)
  rcases h.cases with ⟨word, rest, he, hwhich, hrest⟩ | ⟨ws, hm, read, gap, rest, he, hs, hg⟩
  · have hnot : c ∉ word := hword word (by rcases hwhich with rfl | rfl <;> decide)
    obtain ⟨left, rfl, rfl⟩ := Text.split_before hnot he.symm
    rw [List.append_assoc]
    refine .connective hwhich ?_
    cases left with
    | nil => exact hy
    | cons d left => exact hrest
  · have hread : c ∉ read := by
      have hall := hs.forall_mem (p := (· ≠ c)) (fun word hmem d hd => ?_) fun d hd => ?_
      · exact fun hmem => hall c hmem rfl
      · rintro rfl
        exact hword word ((isWord_called ws hm).2 word hmem).2 hd
      · rintro rfl
        cases hb.symm.trans hd
    have hgap : c ∉ gap := fun hmem => by cases hb.symm.trans (hg c hmem)
    have hfront : c ∉ read ++ (gap ++ ['(']) := by simp [hread, hgap, hc]
    have hsplit : read ++ (gap ++ ['(']) ++ rest = xs ++ c :: zs := by rw [he]; simp
    obtain ⟨left, rfl, -⟩ := Text.split_before hfront hsplit
    have hsurface := surface_of_called hm hs hg (left ++ ys)
    simpa using hsurface

/-! ## Clear places -/

/-- Nothing of the friendly dialect stands at a place of a text, behind the character `previous`. -/
structure Clear (previous : Option Char) (rest : List Char) : Prop where
  equals : ∀ more, rest = '=' :: more → more.head? = some '=' ∨ ∃ c ∈ ['=', '!', '<', '>'], previous = some c
  words : continues previous = false → ¬Surface .builtin rest

/-- Every place of a text outside of literals is clear, with `previous` before the text. -/
def ClearFrom (previous : Option Char) (text : List Char) : Prop :=
  ∀ before rest, CutsAt text before rest → Clear (before.getLast?.or previous) rest

variable {previous : Option Char}

/-- A place is clear where neither an equals sign nor a name stands. -/
theorem Clear.of_head (h : ∀ c, text.head? = some c → c ≠ '=' ∧ isWordStart c = false) : Clear previous text where
  equals := by
    rintro rest rfl
    exact absurd rfl (h '=' rfl).1
  words := by
    intro _ hsurface
    have hhead := hsurface.head?
    cases hc : text.head? with
    | none => simp [hc] at hhead
    | some c =>
      rw [hc] at hhead
      cases (h c hc).2.symm.trans hhead

theorem ClearFrom.nil : ClearFrom previous [] := by
  rintro before rest ⟨hsplit, -⟩
  obtain ⟨rfl, rfl⟩ := List.append_eq_nil_iff.mp hsplit.symm
  exact .of_head (by simp)

/-- A text is clear if its places are in front of what follows, and what follows is behind it. -/
theorem ClearFrom.append (hx : Mode.outside.after xs = .outside)
    (within : ∀ before rest, CutsAt xs before rest → rest ≠ [] → Clear (before.getLast?.or previous) (rest ++ ys))
    (later : ClearFrom (xs.getLast?.or previous) ys) : ClearFrom previous (xs ++ ys) := by
  rintro before rest ⟨hsplit, hmode⟩
  rcases Text.split_within hsplit with ⟨left, rfl, rfl⟩ | ⟨left, hn, rfl, rfl⟩
  · rw [Mode.after_append, hx] at hmode
    rw [List.getLast?_append, Option.or_assoc]
    exact later left rest ⟨rfl, hmode⟩
  · exact within before left ⟨rfl, hmode⟩ hn

theorem ClearFrom.char (hq : c ≠ '"') (hc : Clear previous (c :: ys)) (later : ClearFrom (some c) ys) :
    ClearFrom previous (c :: ys) := by
  have hx : Mode.outside.after [c] = .outside := (Unquoted.reads (List.forall_mem_singleton.mpr hq)).1
  show ClearFrom previous ([c] ++ ys)
  refine .append hx ?_ later
  rintro before rest ⟨hsplit, -⟩ hn
  cases before with
  | nil =>
    obtain rfl : [c] = rest := hsplit
    exact hc
  | cons d before =>
    obtain ⟨-, hrest⟩ := List.cons.inj hsplit
    exact absurd (List.append_eq_nil_iff.mp hrest.symm).2 hn

theorem ClearFrom.signs (h : ∀ c ∈ xs, c ≠ '"' ∧ c ≠ '=' ∧ isWordStart c = false)
    (later : ClearFrom (xs.getLast?.or previous) ys) : ClearFrom previous (xs ++ ys) := by
  refine ClearFrom.append (Unquoted.reads fun c hc => (h c hc).1).1 ?_ later
  rintro before rest ⟨rfl, -⟩ hn
  obtain ⟨c, rest, rfl⟩ := List.exists_cons_of_ne_nil hn
  refine .of_head fun d hd => ?_
  obtain rfl : c = d := Option.some.inj hd
  exact (h c (by simp)).2

theorem ClearFrom.goesOn (hw : ∀ c ∈ xs, isWordChar c = true) (hp : continues previous = true)
    (later : ClearFrom (xs.getLast?.or previous) ys) : ClearFrom previous (xs ++ ys) := by
  refine ClearFrom.append (Unquoted.of_word hw).reads.1 ?_ later
  rintro before rest ⟨rfl, -⟩ hn
  obtain ⟨c, rest, rfl⟩ := List.exists_cons_of_ne_nil hn
  refine ⟨?_, fun hfree => ?_⟩
  · intro more he
    obtain ⟨rfl, -⟩ := List.cons.inj he
    cases hw '=' (by simp)
  · cases hb : before.getLast? with
    | none =>
      rw [hb, Option.none_or, hp] at hfree
      cases hfree
    | some d =>
      have hd : isWordChar d = true := hw d (List.mem_append_left _ (List.mem_of_getLast? hb))
      simp [hb, continues, hd] at hfree

theorem ClearFrom.word {word : List Char} (hw : IsWord word) (hc : Clear previous (word ++ ys))
    (later : ClearFrom word.getLast? ys) : ClearFrom previous (word ++ ys) := by
  obtain ⟨c, more, rfl, hstart, hmore⟩ := hw.exists_cons
  refine .char (Text.ne_of_class hstart (by decide)) hc (.goesOn hmore ?_ ?_)
  · simp [continues, Text.isWordChar_of_isWordStart hstart]
  · have hlast : (c :: more).getLast? = more.getLast?.or (some c) := by
      rw [List.getLast?_cons]
      cases more.getLast? <;> rfl
    rwa [hlast] at later

theorem ClearFrom.literal {content left : List Char} (h : literal? text = some (content, left))
    (later : ClearFrom (some '"') ys) : ClearFrom previous ('"' :: content ++ ys) := by
  have hlast := getLast?_literal h
  refine ClearFrom.append (literal?_reads h ['"']).1 ?_ (by rwa [hlast])
  rintro before rest ⟨hsplit, hmode⟩ hn
  cases before with
  | nil =>
    obtain rfl : '"' :: content = rest := hsplit
    exact .of_head (by simp; decide)
  | cons d before =>
    obtain ⟨rfl, rfl⟩ := List.cons.inj hsplit
    exact absurd hmode ((isContent_of_literal? h).after_ne_outside hn ['"'])

/-! ## What is written for what is read -/

variable {before out read written rest : List Char}

theorem isWord_identifier_builtin : ∀ phrase ∈ builtinPhrases, IsWord phrase.identifier := by decide

/-- The first characters of a part and of what is written for it. -/
theorem Part.heads (h : Part builtinPhrases before out read written rest) :
    ∃ c d, read.head? = some c ∧ written.head? = some d ∧
      (read = [c] ∧ written = [c] ∧ isCopied before.head? c = true ∨ c = d ∧ c ∈ ['"', '[', '='] ∨
        isWordStart c = true ∧ (isWordStart d = true ∨ d ∈ ['&', '|', '!'])) := by
  have hword : ∀ {word : List Char}, IsWord word → ∃ c, word.head? = some c ∧ isWordStart c = true := by
    intro word hw
    obtain ⟨c, more, rfl, hc, -⟩ := hw.exists_cons
    exact ⟨c, rfl, hc⟩
  cases h with
  | literal closed => exact ⟨'"', '"', rfl, rfl, Or.inr (Or.inl (by decide))⟩
  | list unmatched => exact ⟨'[', '[', rfl, rfl, Or.inr (Or.inl (by decide))⟩
  | equals => exact ⟨'=', '=', rfl, by split <;> rfl, Or.inr (Or.inl (by decide))⟩
  | copied copied => exact ⟨_, _, rfl, rfl, Or.inl ⟨rfl, rfl, copied⟩⟩
  | phrase starts free found =>
    obtain ⟨phrase, hm, -, rfl⟩ := exists_of_find? found
    obtain ⟨d, hd, hstart⟩ := hword (isWord_identifier_builtin phrase hm)
    cases read with
    | nil => cases starts
    | cons c more => exact ⟨c, d, rfl, hd, Or.inr (Or.inr ⟨starts, Or.inl hstart⟩)⟩
  | @word _ rest name free whole unnamed uncalled =>
    obtain ⟨c, hc, hstart⟩ := hword name
    rcases wordText_cases read rest with (htext | htext | htext) | ⟨htext, -⟩
    · exact ⟨c, '&', hc, by rw [htext]; rfl, Or.inr (Or.inr ⟨hstart, Or.inr (by decide)⟩)⟩
    · exact ⟨c, '|', hc, by rw [htext]; rfl, Or.inr (Or.inr ⟨hstart, Or.inr (by decide)⟩)⟩
    · exact ⟨c, '!', hc, by rw [htext]; rfl, Or.inr (Or.inr ⟨hstart, Or.inr (by decide)⟩)⟩
    · exact ⟨c, c, hc, by rw [htext, hc], Or.inr (Or.inr ⟨hstart, Or.inl hstart⟩)⟩
  | clock free unnamed empty => exact ⟨'n', 'n', rfl, rfl, Or.inr (Or.inr ⟨by decide, Or.inl (by decide)⟩)⟩

/-- Where no word goes on, none goes on in what is written. -/
theorem Rewritten.head?_word (h : Rewritten builtinPhrases before out text more)
    (ht : text.head?.any isWordChar = false) : more.head?.any isWordChar = false := by
  cases h with
  | done => rfl
  | part part next =>
    obtain ⟨c, d, hc, hd, hcase⟩ := part.heads
    rw [List.head?_append, hc] at ht
    rw [List.head?_append, hd]
    rcases hcase with ⟨rfl, rfl, -⟩ | ⟨rfl, -⟩ | ⟨hstart, -⟩
    · obtain rfl : c = d := (Option.some.inj hc).symm.trans (Option.some.inj hd)
      exact ht
    · exact ht
    · cases ht.symm.trans (Text.isWordChar_of_isWordStart hstart)
  | index => rfl

theorem Rewritten.head?_equals (h : Rewritten builtinPhrases before out text more) (ht : text.head? = some '=') :
    more.head? = some '=' := by
  cases h with
  | done => exact ht
  | part part next =>
    obtain ⟨c, d, hc, hd, hcase⟩ := part.heads
    rw [List.head?_append, hc] at ht
    obtain rfl : c = '=' := Option.some.inj ht
    rw [List.head?_append, hd]
    rcases hcase with ⟨-, -, hcopied⟩ | ⟨rfl, -⟩ | ⟨hstart, -⟩
    · cases hcopied
    · rfl
    · cases hstart
  | index => cases ht

theorem Rewritten.head_sign (h : Rewritten builtinPhrases before out text (c :: more))
    (hc : isBlank c = true ∨ c = '(') :
    ∃ rest, text = c :: rest ∧ Rewritten builtinPhrases (c :: before) (c :: out) rest more := by
  have hne : ∀ d : Char, isBlank d = false → d ≠ '(' → c ≠ d := by
    rintro d hd hd' rfl
    rcases hc with hc | hc
    · cases hd.symm.trans hc
    · exact hd' hc
  generalize hfull : c :: more = full at h
  cases h with
  | done => cases hfull
  | @part _ _ read written rest more' part next =>
    obtain ⟨d, e, -, he, hcase⟩ := part.heads
    obtain ⟨tail, rfl⟩ := List.head?_eq_some_iff.mp he
    obtain ⟨rfl, hmore⟩ := List.cons.inj hfull
    rcases hcase with ⟨rfl, hwritten, -⟩ | ⟨rfl, hm⟩ | ⟨-, hstart | hm⟩
    · obtain ⟨rfl, rfl⟩ := List.cons.inj hwritten
      obtain rfl : more = more' := hmore
      exact ⟨rest, rfl, next⟩
    · simp only [List.mem_cons, List.not_mem_nil, or_false] at hm
      rcases hm with rfl | rfl | rfl
      all_goals exact absurd rfl (hne _ (by decide) (by decide))
    · rcases hc with hb | rfl
      · cases (Text.not_isWordChar_of_isBlank hb).symm.trans (Text.isWordChar_of_isWordStart hstart)
      · cases hstart
    · simp only [List.mem_cons, List.not_mem_nil, or_false] at hm
      rcases hm with rfl | rfl | rfl
      all_goals exact absurd rfl (hne _ (by decide) (by decide))
  | index =>
    obtain ⟨rfl, -⟩ := List.cons.inj hfull
    exact absurd rfl (hne '[' (by decide) (by decide))

theorem Rewritten.head_gap {gap : List Char} (h : Rewritten builtinPhrases before out text (gap ++ more))
    (hg : ∀ d ∈ gap, isBlank d = true) :
    ∃ rest, text = gap ++ rest ∧ Rewritten builtinPhrases (gap.reverse ++ before) (gap.reverse ++ out) rest more := by
  induction gap generalizing before out text with
  | nil => exact ⟨text, rfl, h⟩
  | cons d gap ih =>
    obtain ⟨rest, rfl, hrest⟩ := h.head_sign (Or.inl (hg d (List.mem_cons_self ..)))
    obtain ⟨left, rfl, hleft⟩ := ih hrest fun e he => hg e (List.mem_cons_of_mem _ he)
    exact ⟨left, rfl, by simpa using hleft⟩

/-- A word that is written where none goes on stands in the text, unless it is the identifier of a name or starts
    with the clock. -/
def IsKept (word : List Char) : Prop :=
  IsWord word ∧ (∀ phrase ∈ builtinPhrases, phrase.identifier ≠ word) ∧ ¬"now".toList <+: word

instance (word : List Char) : Decidable (IsKept word) := inferInstanceAs (Decidable (_ ∧ _))

theorem isKept_called : ∀ ws ∈ calledWords, ∀ word ∈ ws, IsKept word := by decide

theorem Rewritten.head_word {word : List Char} (h : Rewritten builtinPhrases before out text (word ++ more))
    (hw : IsKept word) (hr : more.head?.any isWordChar = false) (hfree : continues before.head? = false) :
    ∃ rest, text = word ++ rest ∧ Rewritten builtinPhrases (word.reverse ++ before) (word.reverse ++ out) rest more := by
  obtain ⟨hword, hidentifier, hnow⟩ := hw
  have hlead : leadingWord (word ++ more) = word := Text.leadingWord_append hword.2 hr
  obtain ⟨c, tail, hcons, hstart, -⟩ := hword.exists_cons
  have hhead : (word ++ more).head? = some c := by rw [hcons]; rfl
  generalize hfull : word ++ more = full at h hlead hhead
  have hne : ∀ d : Char, full.head? = some d → isWordStart d = true := by
    intro d hd
    obtain rfl := Option.some.inj (hhead.symm.trans hd)
    exact hstart
  cases h with
  | done => cases hhead
  | @part _ _ read written rest more' part next =>
    cases part with
    | literal closed => cases hne _ rfl
    | list unmatched => cases hne _ rfl
    | equals => cases hne '=' (by rw [List.head?_append]; split <;> rfl)
    | copied copied =>
      have hd := hne _ rfl
      simp [isCopied, hd, hfree] at copied
    | phrase starts free found =>
      obtain ⟨phrase, hm, -, rfl⟩ := exists_of_find? found
      rw [Text.leadingWord_append (isWord_identifier_builtin phrase hm).2 (next.head?_word (head?_of_find? found))] at hlead
      exact absurd hlead (hidentifier phrase hm)
    | word name free whole unnamed uncalled =>
      rcases wordText_cases read rest with (htext | htext | htext) | ⟨htext, -⟩
      · rw [htext] at hne
        cases hne _ rfl
      · rw [htext] at hne
        cases hne _ rfl
      · rw [htext] at hne
        cases hne _ rfl
      · rw [htext] at hfull hlead next
        rw [Text.leadingWord_append name.2 (next.head?_word whole)] at hlead
        subst hlead
        obtain rfl := List.append_cancel_left hfull
        exact ⟨rest, rfl, next⟩
    | clock free unnamed empty =>
      have hstarts : leadingWord ("now".toList ++ more') = "now".toList ++ leadingWord more' :=
        List.takeWhile_append_of_pos (by decide)
      rw [hstarts] at hlead
      exact absurd (hlead ▸ List.prefix_append _ _) hnow
  | index => cases hne _ rfl

theorem Rewritten.head_spaced {ws : List (List Char)} {words : List Char} (hs : Spaced ws words)
    (hw : ∀ word ∈ ws, IsKept word) (hr : more.head?.any isWordChar = false) (hfree : continues before.head? = false)
    (h : Rewritten builtinPhrases before out text (words ++ more)) :
    ∃ rest, text = words ++ rest ∧ Rewritten builtinPhrases (words.reverse ++ before) (words.reverse ++ out) rest more := by
  induction hs generalizing before out text with
  | one word => exact h.head_word (hw word (List.mem_cons_self ..)) hr hfree
  | @cons word gap words ws ne blank _ ih =>
    rw [List.append_assoc, List.append_assoc] at h
    obtain ⟨d, gap', rfl⟩ := List.exists_cons_of_ne_nil ne
    have hd : isBlank d = true := blank d (List.mem_cons_self ..)
    have hgap : ((d :: gap') ++ (words ++ more)).head?.any isWordChar = false := Text.not_isWordChar_of_isBlank hd
    obtain ⟨rest, rfl, hrest⟩ := h.head_word (hw word (List.mem_cons_self ..)) hgap hfree
    obtain ⟨left, rfl, hleft⟩ := hrest.head_gap blank
    have hlast : continues ((d :: gap').reverse ++ (word.reverse ++ before)).head? = false :=
      continues_blank (Text.any_head?_behind_gap ne blank _)
    obtain ⟨last, rfl, hlater⟩ := ih (fun w hm => hw w (List.mem_cons_of_mem _ hm)) hlast hleft
    exact ⟨last, by simp, by simpa using hlater⟩

/-! ## Behind a part -/

/-- What goes on behind what has been read goes on behind what has been written: an operator, and a word. -/
structure Follows (before out rest : List Char) : Prop where
  signs : ∀ c ∈ ['=', '!', '<', '>'], before.head? = some c → out.head? = some c
  goesOn : rest.head?.any isWordChar = true → continues before.head? = true → continues out.head? = true

theorem Follows.start (rest : List Char) : Follows [] [] rest := ⟨nofun, nofun⟩

theorem Follows.same (hr : read.getLast? = some c) (hw : written.getLast? = some c) :
    Follows (read.reverse ++ before) (written.reverse ++ out) rest := by
  have hread : (read.reverse ++ before).head? = some c := by rw [List.head?_append, List.head?_reverse, hr]; rfl
  have hwritten : (written.reverse ++ out).head? = some c := by rw [List.head?_append, List.head?_reverse, hw]; rfl
  rw [← hwritten] at hread
  exact ⟨fun _ _ h => hread ▸ h, fun _ h => hread ▸ h⟩

theorem Follows.ended (hr : read.getLast? = some c) (hc : c ∉ ['=', '!', '<', '>'])
    (hend : rest.head?.any isWordChar = false ∨ continues (some c) = false) (out : List Char) :
    Follows (read.reverse ++ before) out rest := by
  have hread : (read.reverse ++ before).head? = some c := by rw [List.head?_append, List.head?_reverse, hr]; rfl
  rw [← hread] at hend
  refine ⟨fun d hd h => ?_, fun hrest hgoes => ?_⟩
  · obtain rfl := Option.some.inj (hread.symm.trans h)
    exact absurd hd hc
  · rcases hend with hend | hend
    · cases hend.symm.trans hrest
    · cases hend.symm.trans hgoes

theorem notMem_signs (hc : isWordChar c = true) : c ∉ ['=', '!', '<', '>'] := by
  intro hm
  simp only [List.mem_cons, List.not_mem_nil, or_false] at hm
  rcases hm with rfl | rfl | rfl | rfl
  all_goals cases hc

theorem exists_last_word {word : List Char} (hw : IsWord word) : ∃ c, word.getLast? = some c ∧ isWordChar c = true := by
  obtain ⟨c, more, rfl, -⟩ := hw.exists_cons
  have hlast : (c :: more).getLast? = some _ := List.getLast?_cons
  exact ⟨_, hlast, hw.2 _ (List.mem_of_getLast? hlast)⟩

theorem Part.follows (h : Part builtinPhrases before out read written rest) :
    Follows (read.reverse ++ before) (written.reverse ++ out) rest := by
  cases h with
  | literal closed => exact .same (getLast?_literal closed) (getLast?_literal closed)
  | list unmatched => exact .same rfl rfl
  | equals =>
    refine .same rfl (c := '=') ?_
    split
    · rfl
    · rfl
  | copied copied => exact .same rfl rfl
  | phrase starts free found =>
    obtain ⟨phrase, hm, -, ⟨words, hread, hs⟩, hr, -⟩ := exists_spelled found
    obtain rfl := List.append_cancel_right hread
    obtain ⟨word, hword, hlast⟩ := hs.exists_last fun word hword => ((isApart_builtin phrase hm).2 word hword).1
    obtain ⟨c, hc, hw⟩ := exists_last_word ((isWord_builtin phrase hm).2 word hword)
    exact .ended (hlast.trans hc) (notMem_signs hw) (Or.inl hr) _
  | word name free whole unnamed uncalled =>
    obtain ⟨c, hc, hw⟩ := exists_last_word name
    exact .ended hc (notMem_signs hw) (Or.inl whole) _
  | @clock call rest free unnamed empty =>
    have hlast : ("now".toList ++ call).getLast? = some ')' := by
      rw [List.getLast?_append, getLast?_of_emptyCall empty]
      rfl
    exact .ended hlast (by decide) (Or.inr (by decide)) _

/-! ## Parts are clear -/

theorem Clear.of_word {word : List Char} (hw : IsWord word) (hs : ¬Surface .builtin (word ++ ys)) :
    Clear previous (word ++ ys) where
  equals := by
    intro more he
    obtain ⟨c, tail, rfl, hc, -⟩ := hw.exists_cons
    obtain ⟨rfl, -⟩ := List.cons.inj he
    cases hc
  words := fun _ => hs

/-- A word that is written as it stands is no surface, since it would have been replaced. -/
theorem not_surface_word {word : List Char} (name : IsWord word) (free : continues before.head? = false)
    (whole : rest.head?.any isWordChar = false) (unnamed : Phrase.find? builtinPhrases (word ++ rest) = none)
    (hand : word ≠ "and".toList) (hor : word ≠ "or".toList) (hnot : word = "not".toList → firstInk rest ≠ some '(')
    (hmore : more.head?.any isWordChar = false)
    (h : Rewritten builtinPhrases before out (word ++ rest) (word ++ more)) : ¬Surface .builtin (word ++ more) := by
  intro hsurface
  rcases hsurface.cases with ⟨word', left, he, hwhich, hleft⟩ | ⟨ws, hm, words, gap, left, he, hs, hg⟩
  · have hword' : ∀ c ∈ word', isWordChar c = true := by rcases hwhich with rfl | rfl <;> decide
    obtain ⟨rfl, -⟩ := Text.word_unique name.2 hmore hword' hleft he
    exact hwhich.elim hand hor
  · -- the call that is written is one of the rule
    rw [he] at h
    obtain ⟨behind, hrest, hnext⟩ := Rewritten.head_spaced hs (isKept_called ws hm) (Text.head?_gap hg rfl) free h
    obtain ⟨opened, rfl, hopen⟩ := hnext.head_gap hg
    obtain ⟨inside, rfl, -⟩ := hopen.head_sign (Or.inr rfl)
    rcases List.mem_cons.mp hm with rfl | hm
    · rw [hs.eq_of_one] at hrest
      obtain ⟨rfl, rfl⟩ := Text.word_unique name.2 whole (by decide) (Text.head?_gap hg rfl) hrest
      exact hnot rfl (Text.firstInk_gap hg rfl inside)
    · obtain ⟨phrase, hphrase, rfl⟩ := List.mem_map.mp hm
      have hname := (isWord_builtin _ hphrase).2
      have hafter := (Phrase.after?_eq_some_iff (isApart_builtin phrase hphrase).1 fun word hword =>
        (hname word hword).isInk).mpr ⟨⟨words, hrest, hs⟩, Text.head?_gap hg rfl, Text.firstInk_gap hg rfl inside⟩
      have hnone := List.findSome?_eq_none_iff.mp unnamed phrase hphrase
      rw [hafter] at hnone
      cases hnone

/-- A word is clear if none that a surface starts with is written there. -/
theorem ClearFrom.of_first {word : List Char} (hw : IsWord word) (hfirst : leadingWord (word ++ ys) ∉ firstWords)
    (later : ClearFrom word.getLast? ys) : ClearFrom previous (word ++ ys) :=
  .word hw (.of_word hw fun hsurface => hfirst hsurface.leadingWord_mem) later

/-- An equals sign is part of an operator, or it is written twice. -/
theorem clear_equals (hf : Follows before out ('=' :: rest))
    (next : Rewritten builtinPhrases ('=' :: before) read rest more) (later : ClearFrom (some '=') more) :
    ClearFrom out.head? ((if joinsOperator before.head? rest then ['='] else ['=', '=']) ++ more) := by
  have hwords : ∀ {previous : Option Char} {tail : List Char},
      continues previous = false → ¬Surface .builtin ('=' :: tail) := fun _ hs => by cases hs.head?
  cases hj : joinsOperator before.head? rest with
  | false =>
    exact .char (by decide) ⟨fun _ he => Or.inl (by cases he; rfl), hwords⟩
      (.char (by decide) ⟨fun _ _ => Or.inr ⟨'=', by decide, rfl⟩, hwords⟩ later)
  | true =>
    refine .char (by decide) ⟨fun tail he => ?_, hwords⟩ later
    obtain rfl := (List.cons.inj he).2
    simp only [joinsOperator, Bool.or_eq_true, beq_iff_eq] at hj
    rcases hj with (((hj | hj) | hj) | hj) | hj
    · exact Or.inr ⟨'!', by decide, hf.signs '!' (by decide) hj⟩
    · exact Or.inr ⟨'<', by decide, hf.signs '<' (by decide) hj⟩
    · exact Or.inr ⟨'>', by decide, hf.signs '>' (by decide) hj⟩
    · exact Or.inr ⟨'=', by decide, hf.signs '=' (by decide) hj⟩
    · exact Or.inl (next.head?_equals hj)

/-- A character that is copied begins no name, since a word goes on there in what is written, too. -/
theorem clear_copied (copied : isCopied before.head? c = true) (hf : Follows before out (c :: rest))
    (later : ClearFrom (some c) more) : ClearFrom out.head? (c :: more) := by
  have hq : c ≠ '"' := by rintro rfl; cases copied
  have he : c ≠ '=' := by rintro rfl; cases copied
  refine .char hq ⟨fun _ hc => absurd (List.cons.inj hc).1 he, fun hfree hsurface => ?_⟩ later
  have hstart : isWordStart c = true := hsurface.head?
  have hgoes : continues before.head? = true := by
    simp only [isCopied, hstart, Bool.and_eq_true, Bool.or_eq_true] at copied
    simpa using copied.2
  cases hfree.symm.trans (hf.goesOn (Text.isWordChar_of_isWordStart hstart) hgoes)

/-- Nothing of the friendly dialect stands in what is written for a part. -/
theorem Part.clear (h : Part builtinPhrases before out read written rest) (hf : Follows before out (read ++ rest))
    (next : Rewritten builtinPhrases (read.reverse ++ before) (written.reverse ++ out) rest more)
    (later : ClearFrom (written.getLast?.or out.head?) more) : ClearFrom out.head? (written ++ more) := by
  cases h with
  | literal closed =>
    rw [getLast?_literal closed] at later
    exact .literal closed later
  | list unmatched => exact .signs (by decide) later
  | equals =>
    have hlast : (if joinsOperator before.head? rest then ['='] else ['=', '=']).getLast? = some '=' := by
      split <;> rfl
    rw [hlast] at later
    exact clear_equals hf next later
  | copied copied => exact clear_copied copied hf later
  | phrase starts free found =>
    have hnone : ∀ phrase ∈ builtinPhrases, phrase.identifier ∉ firstWords := by decide
    obtain ⟨phrase, hm, -, rfl⟩ := exists_of_find? found
    have hword := isWord_identifier_builtin phrase hm
    have hmore := next.head?_word (head?_of_find? found)
    obtain ⟨c, hc, -⟩ := exists_last_word hword
    refine .of_first hword ?_ (by rwa [hc] at later ⊢)
    rw [Text.leadingWord_append hword.2 hmore]
    exact hnone phrase hm
  | word name free whole unnamed uncalled =>
    rcases wordText_cases read rest with (htext | htext | htext) | ⟨htext, hand, hor, hnot⟩
    · rw [htext] at later ⊢
      exact .signs (by decide) later
    · rw [htext] at later ⊢
      exact .signs (by decide) later
    · rw [htext] at later ⊢
      exact .signs (by decide) later
    · have hrewritten := Rewritten.part (.word name free whole unnamed uncalled) next
      rw [htext] at later hrewritten ⊢
      obtain ⟨c, hc, -⟩ := exists_last_word name
      refine .word name (.of_word name ?_) (by rwa [hc] at later ⊢)
      exact not_surface_word name free whole unnamed hand hor hnot (next.head?_word whole) hrewritten
  | clock free unnamed empty =>
    have hnone : ∀ word ∈ firstWords, ¬"now".toList <+: word := by decide
    have hlead : leadingWord ("now".toList ++ more) = "now".toList ++ leadingWord more :=
      List.takeWhile_append_of_pos (by decide)
    refine .of_first (by decide) (fun hfirst => ?_) later
    rw [hlead] at hfirst
    exact hnone _ hfirst (List.prefix_append _ _)

/-! ## Indices are clear -/

variable {index low : List Char}

/-- The places of an index stay clear where its outer blanks are left out and brackets are put around it. -/
theorem clear_trim (hi : ClearFrom none index) {opening closing : Char}
    (hw : isWordChar closing = false) (hb : isBlank closing = false) (hc : closing ≠ '(') (zs : List Char) :
    ∀ before rest, CutsAt (trim index) before rest → rest ≠ [] →
      Clear (before.getLast?.or (some opening)) (rest ++ closing :: zs) := by
  rintro before rest ⟨hsplit, hmode⟩ hn
  obtain ⟨lead, tail, hindex, hlead, htail⟩ := Text.exists_trim index
  have hold : Clear ((lead ++ before).getLast?.or none) (rest ++ tail) := by
    refine hi (lead ++ before) (rest ++ tail) ⟨?_, ?_⟩
    · rw [hindex, hsplit]
      simp
    · rw [Mode.after_append, (Unquoted.of_blank hlead).reads.1, hmode]
  -- the characters before the place are the same, or the ones before the index, and those are blank
  have hlast : (∃ d, before.getLast? = some d) ∨ before.getLast? = none ∧
      ∀ d, (lead ++ before).getLast? = some d → isBlank d = true := by
    cases hl : before.getLast? with
    | some d => exact Or.inl ⟨d, rfl⟩
    | none =>
      obtain rfl := List.getLast?_eq_none_iff.mp hl
      refine Or.inr ⟨rfl, fun d hd => hlead d (List.mem_of_getLast? ?_)⟩
      rwa [List.append_nil] at hd
  obtain ⟨c, rest, rfl⟩ := List.exists_cons_of_ne_nil hn
  refine ⟨fun more he => ?_, fun hfree hsurface => ?_⟩
  · obtain ⟨rfl, rfl⟩ := List.cons.inj he
    rcases hold.equals (rest ++ tail) rfl with hnext | ⟨d, hd, hprevious⟩
    · cases rest with
      | nil => cases htail _ (List.mem_of_head? hnext)
      | cons e rest => exact Or.inl hnext
    · rw [Option.or_none] at hprevious
      rcases hlast with ⟨e, he⟩ | ⟨-, hblank⟩
      · rw [List.getLast?_append, he] at hprevious
        exact Or.inr ⟨d, hd, by rw [he]; exact hprevious⟩
      · have hbd := hblank d hprevious
        simp only [List.mem_cons, List.not_mem_nil, or_false] at hd
        rcases hd with rfl | rfl | rfl | rfl
        all_goals cases hbd
  · refine hold.words ?_ (hsurface.before_sign hw hb hc ?_)
    · rcases hlast with ⟨e, he⟩ | ⟨-, hblank⟩
      · rw [he] at hfree
        rw [List.getLast?_append, he]
        exact hfree
      · cases hl : (lead ++ before).getLast? with
        | none => rfl
        | some d => exact continues_blank (hblank d hl)
    · cases tail with
      | nil => rfl
      | cons d tail => exact Text.not_isWordChar_of_isBlank (htail d (List.mem_cons_self ..))

theorem clear_lowered {position : Nat} (hclosed : Mode.outside.after index = .outside) (hi : ClearFrom none index)
    (hl : lowered index position = .ok low) (later : ClearFrom (some ']') more) :
    ClearFrom (some '[') (low ++ ']' :: more) := by
  have htrim := (kept_trim hclosed).writtenClosed
  have hclose : ∀ previous, ClearFrom previous (']' :: more) := fun previous =>
    .char (by decide) (.of_head (by simp; decide)) later
  rcases lowered_eq_ok_iff.mp hl with ⟨-, rfl⟩ | ⟨n, -, -, rfl⟩ | ⟨-, -, rfl⟩
  · exact .append htrim (clear_trim hi (by decide) (by decide) (by decide) more) (hclose _)
  · refine .signs (fun c hc => ?_) (hclose _)
    rcases Text.isDigit_of_mem_decimal hc with hd | rfl
    · refine ⟨Text.ne_of_class hd (by decide), Text.ne_of_class hd (by decide), ?_⟩
      exact Bool.eq_false_iff.mpr fun hs => by cases (Text.not_isDigit_of_isWordStart hs).1.symm.trans hd
    · decide
  · have hbehind : ClearFrom ((trim index).getLast?.or (some '(')) (')' :: " - 1".toList ++ ']' :: more) :=
      .signs (by decide) (hclose _)
    have hwithin := ClearFrom.append htrim
      (clear_trim hi (by decide) (by decide) (by decide) (" - 1".toList ++ ']' :: more)) hbehind
    have hwhole : ClearFrom (some '[') (['('] ++ (trim index ++ ')' :: (" - 1".toList ++ ']' :: more))) :=
      .signs (by decide) hwithin
    simpa using hwhole

/-! ## Rules -/

/-- What is written for a text is clear, behind what has been written before it. -/
theorem Rewritten.settled (h : Rewritten builtinPhrases before out text more) (hf : Follows before out text) :
    ClearFrom out.head? more := by
  have hhead : ∀ {written out : List Char}, (written.reverse ++ out).head? = written.getLast?.or out.head? := by
    intro written out
    rw [List.head?_append, List.head?_reverse]
  induction h with
  | done => exact .nil
  | part part next ih =>
    have hlater := ih part.follows
    rw [hhead] at hlater
    exact part.clear hf next hlater
  | @index before out inner index low rest more opens matched inside lower next ihinside ih =>
    have hlast : ∀ xs : List Char, ('[' :: (xs ++ [']'])).getLast? = some ']' := fun xs =>
      List.getLast?_eq_some_iff.mpr ⟨'[' :: xs, rfl⟩
    have hlater := ih (.same (hlast inner) (hlast low))
    rw [hhead, hlast] at hlater
    have hclosed := (inside.kept unquoted_builtin).writtenClosed
    have hwhole : ClearFrom out.head? (['['] ++ (low ++ ']' :: more)) :=
      .signs (by decide) (clear_lowered hclosed (ihinside (.start inner)) (lower 0) hlater)
    simpa using hwhole

/-- No surface of the friendly dialect is left outside of literals, at whatever depth, where a rule is rewritten. -/
theorem settled_translate {rule text : String} (h : translate .builtin rule = .ok text) :
    Settled .builtin text.toList := by
  have hrewritten := translate_eq_ok_iff.mp h
  rw [phrases_builtin] at hrewritten
  have hclear := hrewritten.settled (.start _)
  refine ⟨fun before rest hcut => ?_, fun before rest hcut hfree => ?_⟩
  · simpa using (hclear _ _ hcut).equals rest rfl
  · refine (hclear _ _ hcut).words ?_
    cases hl : before.getLast? with
    | none => rfl
    | some c => simp [continues, hfree c hl]

def nested : String := "xs[ is report\tvalid (r) and not (s = 1) ] = \"a = b\""

theorem translate_nested : translate .builtin nested = .ok "xs[(is_report_valid (r) && ! (s == 1)) - 1] == \"a = b\"" := by
  have hname : Passes builtinPhrases [] [] ['x', 's'] ['x', 's']
      ('[' :: (" is report\tvalid (r) and not (s = 1) ".toList ++ [']']) ++ (" = \"a = b\"".toList ++ [])) :=
    .of_step (by cbv) rfl
  have hindex : Passes builtinPhrases ['s', 'x'] ['s', 'x']
      ('[' :: (" is report\tvalid (r) and not (s = 1) ".toList ++ [']']))
      ('[' :: ("(is_report_valid (r) && ! (s == 1)) - 1".toList ++ [']'])) (" = \"a = b\"".toList ++ []) :=
    .of_index (by cbv) (bracket?_of_closes (by decide) _) (by cbv) (by cbv)
  have htail : ∀ before out, Passes builtinPhrases (']' :: before) (']' :: out) " = \"a = b\"".toList
      " == \"a = b\"".toList [] := by
    intro before out
    unfold Passes
    cbv
  exact translate_of_passes ((hname.append hindex).append (htail _ _))

theorem settled_translate_nested :
    translate .builtin nested = .ok "xs[(is_report_valid (r) && ! (s == 1)) - 1] == \"a = b\"" ∧
      Settled .builtin "xs[(is_report_valid (r) && ! (s == 1)) - 1] == \"a = b\"".toList :=
  ⟨translate_nested, settled_translate translate_nested⟩

end Rulebook.Feel
