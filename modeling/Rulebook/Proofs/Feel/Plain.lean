/-
  Rulebook.Proofs.Feel.Plain — rules that need no rewriting.

  A rule is plain if its literals are closed and nothing outside of them is a surface of
  the friendly dialect: no equals sign that stands alone, no bracket behind a closing
  bracket or a word, and no keyword and no called name of several words where a word
  begins. Any text may be plain, whatever its alphabet and whether or not it is a rule.
  A bracket that is never closed is copied wherever it stands, so a little more than plain
  texts is copied (`Verbatim`).
  - `Verbatim.copies`: at any place outside of literals a part is written as it is.
  - `passes_verbatim`: so the scan copies the rest of the text from there.
  - `translate_plain`: a plain rule is its own rewriting, and both dialects answer it alike.
-/

import Rulebook.Engine
import Rulebook.Proofs.Feel.Parts

namespace Rulebook.Feel

open Rulebook.Text (isBlank isWordStart isWordChar firstInk)

/-- Texts at the front of which something is rewritten, if a word begins there. -/
inductive Keyed (registry : Registry) : List Char → Prop where
  | connective {word rest : List Char} (which : word = "and".toList ∨ word = "or".toList)
      (whole : rest.head?.any isWordChar = false) : Keyed registry (word ++ rest)
  | negation {gap rest : List Char} (blank : ∀ c ∈ gap, isBlank c = true) :
      Keyed registry ("not".toList ++ (gap ++ '(' :: rest))
  | clock {gap inner rest : List Char} (blank : ∀ c ∈ gap, isBlank c = true) (empty : ∀ c ∈ inner, isBlank c = true) :
      Keyed registry ("now".toList ++ (gap ++ '(' :: (inner ++ ')' :: rest)))
  | name {name : String} {read gap rest : List Char}
      (known : name = "date and time" ∨
        ∃ extension ∈ registry.toList, extension.name = name ∧ name.toList.any isBlank = true)
      (spelled : Spaced (Text.words name.toList) read) (blank : ∀ c ∈ gap, isBlank c = true) :
      Keyed registry (read ++ (gap ++ '(' :: rest))

/-- A text falls into two parts, with no literal open where they meet. -/
def CutsAt (text before rest : List Char) : Prop := text = before ++ rest ∧ Mode.outside.after before = .outside

/-- Texts that need no rewriting. -/
structure Plain (registry : Registry) (text : List Char) : Prop where
  closed : Mode.outside.after text = .outside
  equals : ∀ before rest, CutsAt text before ('=' :: rest) →
    rest.head? = some '=' ∨ ∃ c ∈ ['=', '!', '<', '>'], before.getLast? = some c
  brackets : ∀ before rest, CutsAt text before ('[' :: rest) → ∀ c, firstInk before.reverse = some c →
    c ≠ ')' ∧ c ≠ ']' ∧ isWordChar c = false
  words : ∀ before rest, CutsAt text before rest →
    (∀ c, before.getLast? = some c → isWordChar c = false ∧ c ≠ '.') → ¬Keyed registry rest

/-- Texts in which nothing is rewritten: as plain texts, but a bracket that is not closed may stand anywhere. -/
structure Verbatim (registry : Registry) (text : List Char) : Prop where
  closed : Mode.outside.after text = .outside
  equals : ∀ before rest, CutsAt text before ('=' :: rest) →
    rest.head? = some '=' ∨ ∃ c ∈ ['=', '!', '<', '>'], before.getLast? = some c
  indices : ∀ before inner after, CutsAt text before ('[' :: (inner ++ ']' :: after)) → closes .outside 0 inner = true →
    opensIndex before.reverse = false
  words : ∀ before rest, CutsAt text before rest →
    (∀ c, before.getLast? = some c → isWordChar c = false ∧ c ≠ '.') → ¬Keyed registry rest

variable {registry : Registry} {before rest text : List Char}

/-! ## Nothing is found at the front of a text -/

theorem find?_of_not_keyed {c : Char} (hc : isWordStart c = true) (h : ¬Keyed registry (c :: rest)) :
    Phrase.find? (Phrase.ofRegistry registry) (c :: rest) = none := by
  refine List.findSome?_eq_none_iff.mpr fun phrase hm => ?_
  rw [Option.map_eq_none_iff, Option.eq_none_iff_forall_ne_some]
  intro left hleft
  obtain ⟨name, hwords, hknown⟩ : ∃ name : String, phrase.words = Text.words name.toList ∧ (name = "date and time" ∨
      ∃ extension ∈ registry.toList, extension.name = name ∧ name.toList.any isBlank = true) := by
    rcases mem_ofRegistry_iff.mp hm with ⟨extension, he, hb, rfl⟩ | rfl
    · exact ⟨extension.name, rfl, Or.inr ⟨extension, he, rfl, hb⟩⟩
    · exact ⟨"date and time", rfl, Or.inl rfl⟩
  by_cases hn : phrase.words = []
  · -- no word is read, so the word character stands where none may follow
    simp [Phrase.after?, hn, afterWords?, Text.isWordChar_of_isWordStart hc] at hleft
  · obtain ⟨⟨read, hread, hs⟩, -, hopen⟩ := (Phrase.after?_eq_some_iff hn (isInk_of_mem_ofRegistry hm)).mp hleft
    obtain ⟨gap, more, rfl, hgap⟩ := Text.exists_of_firstInk hopen
    rw [hread] at h
    exact h (.name hknown (hwords ▸ hs) hgap)

theorem wordText_of_not_keyed {word : List Char} (hr : rest.head?.any isWordChar = false)
    (h : ¬Keyed registry (word ++ rest)) : wordText word rest = word := by
  have hand : word ≠ "and".toList := fun hand => h (.connective (Or.inl hand) hr)
  have hor : word ≠ "or".toList := fun hor => h (.connective (Or.inr hor) hr)
  have hnot : ¬(word = "not".toList ∧ firstInk rest = some '(') := by
    rintro ⟨rfl, hopen⟩
    obtain ⟨gap, more, rfl, hgap⟩ := Text.exists_of_firstInk hopen
    exact h (.negation hgap)
  rw [wordText, if_neg hand, if_neg hor, if_neg hnot]

theorem keyed_clock {call : List Char} (h : emptyCall? (call ++ rest) = some rest) :
    Keyed registry ("now".toList ++ call ++ rest) := by
  obtain ⟨gap, inner, hcall, hgap, hinner⟩ := exists_of_emptyCall h
  rw [List.append_assoc, hcall]
  exact .clock hgap hinner

/-! ## Steps -/

theorem opensIndex_eq_false (h : ∀ c, firstInk before = some c → c ≠ ')' ∧ c ≠ ']' ∧ isWordChar c = false) :
    opensIndex before = false := by
  unfold opensIndex
  split
  · rfl
  · rename_i c more hc
    obtain ⟨hp, hb, hw⟩ := h c (by rw [firstInk, hc]; rfl)
    simp [hp, hb, hw]

theorem Plain.verbatim (h : Plain registry text) : Verbatim registry text where
  closed := h.closed
  equals := h.equals
  indices before _ _ hcut _ := opensIndex_eq_false (h.brackets before _ hcut)
  words := h.words

/-- Where no literal is open in a text without surfaces, a part is written as it is, and leaves none open. -/
theorem Verbatim.copies {read written : List Char} (h : Verbatim registry text) (hcut : CutsAt text before (read ++ rest))
    (part : Part (Phrase.ofRegistry registry) before.reverse before.reverse read written rest) :
    written = read ∧ Mode.outside.after read = .outside := by
  have hkeyed : continues before.reverse.head? = false → ¬Keyed registry (read ++ rest) := by
    intro hgoes
    refine h.words before (read ++ rest) hcut fun d hd => ?_
    simpa [List.head?_reverse, continues, hd] using hgoes
  cases part with
  | literal closed => exact ⟨rfl, (literal?_reads closed ['"']).1⟩
  | list => exact ⟨rfl, rfl⟩
  | equals =>
    have hjoins : joinsOperator before.reverse.head? rest = true := by
      rw [List.head?_reverse]
      rcases h.equals before rest hcut with hn | ⟨p, hp, hlast⟩
      · simp [joinsOperator, hn]
      · simp only [List.mem_cons, List.not_mem_nil, or_false] at hp
        rcases hp with rfl | rfl | rfl | rfl <;> simp [joinsOperator, hlast]
    exact ⟨if_pos hjoins, rfl⟩
  | @copied c _ copied =>
    have hself : Unquoted [c] := List.forall_mem_singleton.mpr (by rintro rfl; cases copied)
    exact ⟨rfl, hself.reads.1⟩
  | phrase starts free found =>
    cases read with
    | nil => cases starts
    | cons c more => cases (find?_of_not_keyed starts (hkeyed free)).symm.trans found
  | word name free whole => exact ⟨wordText_of_not_keyed whole (hkeyed free), (Unquoted.of_word name.2).reads.1⟩
  | clock free _ empty => exact absurd (keyed_clock empty) (hkeyed free)

/-- Where no literal is open in a text without surfaces, a step reads a part that is written as it is. -/
theorem exists_part_verbatim {c : Char} (h : Verbatim registry text) (hcut : CutsAt text before (c :: rest)) :
    ∃ read after, c :: rest = read ++ after ∧
      Part (Phrase.ofRegistry registry) before.reverse before.reverse read read after ∧
      Mode.outside.after read = .outside := by
  cases hs : step (Phrase.ofRegistry registry) before.reverse before.reverse c rest with
  | write written after =>
    obtain ⟨read, hread, part⟩ := exists_part hs
    obtain ⟨rfl, hmode⟩ := h.copies (hread ▸ hcut) part
    exact ⟨written, after, hread, part, hmode⟩
  | index inner after =>
    obtain ⟨rfl, hopens, hb⟩ := step_index hs
    obtain ⟨rfl, hclosing⟩ := bracket?_eq_some_iff.mp hb
    cases hopens.symm.trans (h.indices before inner after hcut hclosing)
  | unclosed =>
    obtain ⟨rfl, hl⟩ := step_unclosed hs
    have hclosed := h.closed
    rw [hcut.1, Mode.after_append, hcut.2] at hclosed
    exact absurd hclosed (not_closed_of_literal?_eq_none hl ['"'])

/-! ## The scan -/

/-- From any place outside of literals the scan copies the rest of a text without surfaces. -/
theorem passes_verbatim (h : Verbatim registry text) (hcut : CutsAt text before rest) :
    Passes (Phrase.ofRegistry registry) before.reverse before.reverse rest rest [] := by
  -- a step may read many characters at once, so the induction is on how many are left
  induction hlength : rest.length using Nat.strongRecOn generalizing before rest with
  | ind n ih =>
    subst hlength
    cases rest with
    | nil => exact .nil
    | cons c tail =>
      obtain ⟨read, after, hread, part, hmode⟩ := exists_part_verbatim h hcut
      rw [hread] at hcut ⊢
      have hnext : CutsAt text (before ++ read) after := by
        refine ⟨by rw [List.append_assoc, hcut.1], ?_⟩
        rw [Mode.after_append, hcut.2, hmode]
      have hfirst : Passes (Phrase.ofRegistry registry) before.reverse before.reverse read read (after ++ []) := by
        rw [List.append_nil]
        exact part.passes
      have hshorter : after.length < (c :: tail).length := by
        have hpos := List.length_pos_iff.mpr part.ne_nil
        rw [hread, List.length_append]
        omega
      have hrest := ih after.length hshorter hnext rfl
      rw [List.reverse_append] at hrest
      exact hfirst.append hrest

theorem rewrite_verbatim (h : Verbatim registry text) : rewrite (Phrase.ofRegistry registry) text = .ok text := by
  have hstart : CutsAt text [] text := ⟨rfl, rfl⟩
  exact (passes_verbatim h hstart).rewrite_eq

theorem rewrite_plain (h : Plain registry text) : rewrite (Phrase.ofRegistry registry) text = .ok text :=
  rewrite_verbatim h.verbatim

/-- A plain rule is rewritten to itself, so sessions of the two dialects give the same answer to it, whatever
    order they have maps in. -/
theorem translate_plain {rule : String} (h : Plain registry rule.toList) :
    translate registry rule = .ok rule ∧ ∀ arrangement context clock,
      (Engine.arranging arrangement .feel).session registry context clock rule =
        (Engine.arranging arrangement .cel).session registry context clock rule := by
  have htranslate : translate registry rule = .ok rule := by
    unfold translate
    rw [rewrite_plain h]
    simp [Except.map]
  refine ⟨htranslate, fun arrangement context clock => ?_⟩
  simp only [Engine.arranging, Dialect.source, htranslate]

/-! ## A check of plain texts -/

/-- The words that a text starts with if something is rewritten at its front. -/
def openings (registry : Registry) : List (List Char) :=
  let named := registry.toList.filter fun extension => extension.name.toList.any isBlank
  ["and".toList, "or".toList, "not".toList, "now".toList] ++
    ("date and time" :: named.map Extension.name).filterMap fun name => (Text.words name.toList).head?

theorem Keyed.exists_opening (h : Keyed registry text) : ∃ word ∈ openings registry, word <+: text := by
  cases h with
  | connective which _ =>
    rcases which with rfl | rfl
    · exact ⟨_, by simp [openings], List.prefix_append ..⟩
    · exact ⟨_, by simp [openings], List.prefix_append ..⟩
  | negation _ => exact ⟨"not".toList, by simp [openings], List.prefix_append ..⟩
  | clock _ _ => exact ⟨"now".toList, by simp [openings], List.prefix_append ..⟩
  | @name name read _ _ known spelled _ =>
    have hopening : ∀ word more, Text.words name.toList = word :: more → word ∈ openings registry := by
      intro word more hw
      refine List.mem_append_right _ (List.mem_filterMap.mpr ⟨name, ?_, by rw [hw]; rfl⟩)
      rcases known with rfl | ⟨extension, hm, rfl, hb⟩
      · exact List.mem_cons_self ..
      · exact List.mem_cons_of_mem _ (List.mem_map.mpr ⟨extension, List.mem_filter.mpr ⟨hm, hb⟩, rfl⟩)
    generalize hws : Text.words name.toList = ws at spelled
    cases spelled with
    | one => exact ⟨_, hopening _ _ hws, List.prefix_append ..⟩
    | cons => exact ⟨_, hopening _ _ hws, by rw [List.append_assoc]; exact List.prefix_append ..⟩

/-- Whether nothing can be rewritten at a place of a text, as far as the characters around it tell. -/
def isPlainAt (openings : List (List Char)) (before rest : List Char) : Bool :=
  (before.getLast?.any (fun c => isWordChar c || c == '.') || openings.all fun word => !word.isPrefixOf rest) &&
    match rest with
    | [] => true
    | c :: more =>
      (c != '=' || more.head? == some '=' || ['=', '!', '<', '>'].any fun d => before.getLast? == some d) &&
        (c != '[' || (firstInk before.reverse).all fun d => d != ')' && d != ']' && !isWordChar d)

theorem Plain.of_places (closed : Mode.outside.after text = .outside)
    (places : ∀ i < text.length + 1, Mode.outside.after (text.take i) = .outside →
      isPlainAt (openings registry) (text.take i) (text.drop i) = true) : Plain registry text := by
  have hplace : ∀ before rest, CutsAt text before rest → isPlainAt (openings registry) before rest = true := by
    rintro before rest ⟨rfl, hmode⟩
    have h := places before.length (by rw [List.length_append]; omega)
    rw [List.take_left, List.drop_left] at h
    exact h hmode
  refine ⟨closed, ?_, ?_, ?_⟩
  · intro before rest hcut
    have h := (Bool.and_eq_true_iff.mp (hplace _ _ hcut)).2
    simpa using h
  · intro before rest hcut c hc
    have h := (Bool.and_eq_true_iff.mp (hplace _ _ hcut)).2
    simpa [hc, and_assoc] using h
  · intro before rest hcut hlast hkeyed
    obtain ⟨word, hm, hp⟩ := hkeyed.exists_opening
    rcases Bool.or_eq_true_iff.mp (Bool.and_eq_true_iff.mp (hplace _ _ hcut)).1 with h | h
    · cases hl : before.getLast? with
      | none => simp [hl] at h
      | some c =>
        obtain ⟨hn, hd⟩ := hlast c hl
        simp [hl, hn, hd] at h
    · have hword := List.all_eq_true.mp h word hm
      rw [List.isPrefixOf_iff_prefix.mpr hp] at hword
      cases hword

/-- A literal full of what would be rewritten, a member called `or`, a list, a call, and letters of no name. -/
def guard : String := "person.or == \"a = b and xs[1]\" && [größe] != size(xs)"

theorem plain_guard : Plain .builtin guard.toList := .of_places (by decide +kernel) (by decide +kernel)

theorem translate_plain_guard : Plain .builtin guard.toList ∧ translate .builtin guard = .ok guard ∧
    ∀ arrangement context clock, (Engine.arranging arrangement .feel).session .builtin context clock guard =
      (Engine.arranging arrangement .cel).session .builtin context clock guard :=
  ⟨plain_guard, translate_plain plain_guard⟩

end Rulebook.Feel
