/-
  Rulebook.Proofs.Feel.Spaced — names of several words, as they stand in a rule.

  A name stands in a rule wherever its words stand in order with blanks between them, any
  number of any kind (`Spaced`). Cut at its blanks, such a text gives the words back, so
  it is spelled by no other words. A phrase is called at the front of a text exactly where
  its words stand so, no word character follows, and the next ink is an opening bracket.
  - `Text.isInk_of_mem_words`: a text is cut into words that hold ink only.
  - `words_of_spaced`: words with blanks between them are cut into these words.
  - `afterWords?_eq_some_iff`: what is read of a text for the words of a name.
  - `Phrase.after?_eq_some_iff`: where a phrase is called.
-/

import Rulebook.Proofs.Feel.Calls

namespace Rulebook

/-! ## Cutting at blanks -/

namespace Text

/-- Whether a text is a word for the cutting at blanks: it has characters, and none is blank. -/
def IsInk (word : List Char) : Prop := word ≠ [] ∧ ∀ c ∈ word, isBlank c = false

theorem IsWord.isInk {word : List Char} (h : IsWord word) : IsInk word := by
  refine ⟨?_, fun c hc => not_isBlank_of_isWordChar (h.2 c hc)⟩
  obtain ⟨c, more, rfl, -⟩ := h.exists_cons
  exact List.cons_ne_nil _ _

theorem wordsFrom_ink {word : List Char} (h : ∀ c ∈ word, isBlank c = false) (current rest : List Char) :
    wordsFrom current (word ++ rest) = wordsFrom (word.reverse ++ current) rest := by
  induction word generalizing current with
  | nil => rfl
  | cons c word ih =>
    have hc : isBlank c = false := h c (List.mem_cons_self ..)
    rw [List.cons_append, wordsFrom]
    simp only [hc, Bool.false_eq_true, if_false]
    rw [ih fun d hd => h d (List.mem_cons_of_mem _ hd)]
    simp

theorem wordsFrom_gap {gap : List Char} (h : ∀ c ∈ gap, isBlank c = true) (rest : List Char) :
    wordsFrom [] (gap ++ rest) = wordsFrom [] rest := by
  induction gap with
  | nil => rfl
  | cons c gap ih =>
    rw [List.cons_append, wordsFrom]
    simp only [h c (List.mem_cons_self ..), List.isEmpty_nil, if_true]
    exact ih fun d hd => h d (List.mem_cons_of_mem _ hd)

theorem wordsFrom_break {word gap : List Char} (hw : IsInk word) (hn : gap ≠ []) (hg : ∀ c ∈ gap, isBlank c = true)
    (rest : List Char) : wordsFrom [] (word ++ (gap ++ rest)) = word :: wordsFrom [] rest := by
  cases gap with
  | nil => exact absurd rfl hn
  | cons c gap =>
    have hc : isBlank c = true := hg c (List.mem_cons_self ..)
    have hempty : word.reverse.isEmpty = false := by simpa using hw.1
    rw [wordsFrom_ink hw.2, List.append_nil, List.cons_append, wordsFrom]
    simp only [hc, hempty, Bool.false_eq_true, if_true, if_false, List.reverse_reverse]
    rw [wordsFrom_gap fun d hd => hg d (List.mem_cons_of_mem _ hd)]

theorem isInk_of_mem_words {text word : List Char} (h : word ∈ words text) : IsInk word := by
  have hfrom : ∀ current : List Char, (∀ c ∈ current, isBlank c = false) → word ∈ wordsFrom current text →
      IsInk word := by
    clear h
    have hdone : ∀ current : List Char, (∀ c ∈ current, isBlank c = false) → current.isEmpty = false →
        IsInk current.reverse := by
      intro current hc hn
      exact ⟨by simpa using hn, fun c hm => hc c (List.mem_reverse.mp hm)⟩
    induction text with
    | nil =>
      intro current hc hm
      rw [wordsFrom] at hm
      split at hm
      · cases hm
      · rename_i hn
        rw [List.mem_singleton.mp hm]
        exact hdone current hc (by simpa using hn)
    | cons c rest ih =>
      intro current hc hm
      have hnil : ∀ d ∈ ([] : List Char), isBlank d = false := by simp
      rw [wordsFrom] at hm
      split at hm
      · split at hm
        · exact ih [] hnil hm
        · rename_i hn
          rcases List.mem_cons.mp hm with rfl | hm
          · exact hdone current hc (by simpa using hn)
          · exact ih [] hnil hm
      · rename_i hb
        refine ih (c :: current) (fun d hd => ?_) hm
        rcases List.mem_cons.mp hd with rfl | hd
        · simpa using hb
        · exact hc d hd
  exact hfrom [] (by simp) h

end Text

namespace Feel

open Rulebook.Text (isBlank isWordChar skipBlank firstInk leadingWord words IsInk)

/-! ## Words with blanks between them -/

/-- Words one after the other, with at least one blank between any two of them. -/
inductive Spaced : List (List Char) → List Char → Prop where
  | one (word : List Char) : Spaced [word] word
  | cons (word : List Char) {gap text : List Char} {more : List (List Char)} (ne : gap ≠ [])
      (blank : ∀ c ∈ gap, isBlank c = true) (rest : Spaced more text) : Spaced (word :: more) (word ++ (gap ++ text))

variable {ws : List (List Char)} {text read rest : List Char}

theorem Spaced.ne_nil (h : Spaced ws text) : ws ≠ [] := by
  cases h with
  | one => exact List.cons_ne_nil _ _
  | cons => exact List.cons_ne_nil _ _

theorem Spaced.eq_of_one {word : List Char} (h : Spaced [word] text) : text = word := by
  cases h with
  | one => rfl
  | cons _ _ _ rest => exact absurd rfl rest.ne_nil

/-- What holds of blanks and of the characters of some words holds of all characters where they are spaced. -/
theorem Spaced.forall_mem {p : Char → Prop} (h : Spaced ws text) (hw : ∀ word ∈ ws, ∀ c ∈ word, p c)
    (hb : ∀ c, isBlank c = true → p c) : ∀ c ∈ text, p c := by
  induction h with
  | one word => exact hw word (List.mem_cons_self ..)
  | cons word _ hgap _ ih =>
    intro c hc
    rcases List.mem_append.mp hc with hc | hc
    · exact hw word (List.mem_cons_self ..) c hc
    · rcases List.mem_append.mp hc with hc | hc
      · exact hb c (hgap c hc)
      · exact ih (fun w hm => hw w (List.mem_cons_of_mem _ hm)) c hc

/-- Words with blanks between them, and any blanks behind, are cut into these words. -/
theorem words_of_spaced (h : Spaced ws text) (hw : ∀ word ∈ ws, IsInk word) {tail : List Char}
    (ht : ∀ c ∈ tail, isBlank c = true) : words (text ++ tail) = ws := by
  unfold words
  induction h with
  | one word =>
    have hword := hw word (List.mem_cons_self ..)
    cases tail with
    | nil =>
      have hempty : word.reverse.isEmpty = false := by simpa using hword.1
      rw [Text.wordsFrom_ink hword.2, List.append_nil, Text.wordsFrom]
      simp only [hempty, Bool.false_eq_true, if_false, List.reverse_reverse]
    | cons c tail =>
      have hbreak := Text.wordsFrom_break hword (List.cons_ne_nil c tail) ht []
      rwa [List.append_nil] at hbreak
  | cons word hn hb _ ih =>
    rw [List.append_assoc, List.append_assoc, Text.wordsFrom_break (hw word (List.mem_cons_self ..)) hn hb,
      ih fun w hm => hw w (List.mem_cons_of_mem _ hm)]

theorem words_of_spaced_self (h : Spaced ws text) (hw : ∀ word ∈ ws, IsInk word) : words text = ws := by
  have hnil : ∀ c ∈ ([] : List Char), isBlank c = true := by simp
  have hwords := words_of_spaced h hw hnil
  rwa [List.append_nil] at hwords

theorem Spaced.skipBlank_append (h : Spaced ws text) (hw : ∀ word ∈ ws, IsInk word) (rest : List Char) :
    skipBlank (text ++ rest) = text ++ rest := by
  have hstart : ∀ {word : List Char}, IsInk word → ∀ more : List Char, skipBlank (word ++ more) = word ++ more := by
    intro word hword more
    cases word with
    | nil => exact absurd rfl hword.1
    | cons c tail => exact Text.skipBlank_cons (hword.2 c (List.mem_cons_self ..)) _
  cases h with
  | one => exact hstart (hw _ (List.mem_cons_self ..)) rest
  | cons word hn hb hrest =>
    rw [List.append_assoc]
    exact hstart (hw word (List.mem_cons_self ..)) _

/-- Words with blanks between them start with the first of them, and no word goes on behind it. -/
theorem Spaced.exists_first (h : Spaced ws read) :
    ∃ word rest, ws.head? = some word ∧ read = word ++ rest ∧ rest.head?.any isWordChar = false := by
  cases h with
  | one => exact ⟨read, [], rfl, (List.append_nil _).symm, rfl⟩
  | cons word ne blank =>
    obtain ⟨d, gap, rfl⟩ := List.exists_cons_of_ne_nil ne
    exact ⟨word, _, rfl, rfl, Text.not_isWordChar_of_isBlank (blank d (List.mem_cons_self ..))⟩

theorem Spaced.head?_eq (h : Spaced ws read) (hw : ∀ word ∈ ws, ∀ c ∈ word, isWordChar c = true)
    (hr : rest.head?.any isWordChar = false) : ws.head? = some (leadingWord (read ++ rest)) := by
  obtain ⟨word, left, hfirst, rfl, hleft⟩ := h.exists_first
  rw [List.append_assoc, Text.leadingWord_append (hw word (List.mem_of_head? hfirst)) (Text.head?_append hleft hr), hfirst]

/-- A word that begins within words with blanks between them is one of these words. -/
theorem Spaced.exists_word {front : List Char} (h : Spaced ws read) (hw : ∀ word ∈ ws, ∀ c ∈ word, isWordChar c = true)
    (hs : read = front ++ rest) (hf : front.getLast?.any isWordChar = false) (hr : rest.head?.any isWordChar = true) :
    ∃ word ∈ ws, ∃ left, rest = word ++ left ∧ left.head?.any isWordChar = false := by
  -- a part of a word before the place would end with a word character
  have hstart : ∀ {word more front : List Char}, front.getLast?.any isWordChar = false → word = front ++ more →
      (∀ c ∈ word, isWordChar c = true) → front = [] := by
    intro word more front hf he hall
    cases hl : front.getLast? with
    | none => exact List.getLast?_eq_none_iff.mp hl
    | some c =>
      rw [hl] at hf
      cases hf.symm.trans (hall c (he ▸ List.mem_append_left _ (List.mem_of_getLast? hl)))
  induction h generalizing front with
  | one word =>
    obtain rfl := hstart hf hs (hw word (List.mem_cons_self ..))
    exact ⟨word, List.mem_cons_self .., [], by simpa using hs.symm, rfl⟩
  | @cons word gap text more hn hb _ ih =>
    have hlater : ∀ {front' : List Char}, front'.getLast?.any isWordChar = false → text = front' ++ rest →
        ∃ w ∈ word :: more, ∃ left, rest = w ++ left ∧ left.head?.any isWordChar = false := by
      intro front' hf' htext
      obtain ⟨w, hm, hleft⟩ := ih (fun w hm => hw w (List.mem_cons_of_mem _ hm)) htext hf'
      exact ⟨w, List.mem_cons_of_mem _ hm, hleft⟩
    rcases List.append_eq_append_iff.mp hs with ⟨behind, rfl, hbehind⟩ | ⟨inner, hword, rfl⟩
    · rcases List.append_eq_append_iff.mp hbehind with ⟨front', rfl, htext⟩ | ⟨gap', rfl, hrest⟩
      · refine hlater ?_ htext
        cases hl : front'.getLast? with
        | none => rfl
        | some c => simpa [List.getLast?_append, hl] using hf
      · cases gap' with
        | nil =>
          have hnil : ([] : List Char).getLast?.any isWordChar = false := rfl
          exact hlater hnil hrest.symm
        | cons c gap' =>
          rw [hrest] at hr
          cases hr.symm.trans (Text.not_isWordChar_of_isBlank (hb c (by simp)))
    · obtain rfl := hstart hf hword (hw word (List.mem_cons_self ..))
      obtain ⟨c, gap, rfl⟩ := List.exists_cons_of_ne_nil hn
      exact ⟨word, List.mem_cons_self .., c :: gap ++ text, by rw [hword]; rfl,
        Text.not_isWordChar_of_isBlank (hb c (List.mem_cons_self ..))⟩

theorem Spaced.getLast?_eq {other : List Char} (h : Spaced ws read) (h' : Spaced ws other)
    (hw : ∀ word ∈ ws, word ≠ []) : other.getLast? = read.getLast? := by
  induction h generalizing other with
  | one word => rw [h'.eq_of_one]
  | @cons word gap text more _ _ hs ih =>
    cases h' with
    | one => exact absurd rfl hs.ne_nil
    | @cons _ gap' text' _ _ _ hs' =>
      have hmore : ∀ w ∈ more, w ≠ [] := fun w hm => hw w (List.mem_cons_of_mem _ hm)
      have hlast := ih hs' hmore
      obtain ⟨c, hc⟩ : ∃ c, text.getLast? = some c := by
        obtain ⟨first, rest, hfirst, rfl, -⟩ := hs.exists_first
        exact Option.isSome_iff_exists.mp (by simp [List.getLast?_isSome, hmore first (List.mem_of_head? hfirst)])
      simp [List.getLast?_append, hlast, hc]

/-! ## Reading them -/

theorem afterWord?_self (word rest : List Char) : afterWord? word (word ++ rest) = some rest := by
  induction word with
  | nil => cases rest <;> rfl
  | cons c word ih =>
    rw [List.cons_append, afterWord?, if_pos rfl]
    exact ih

/-- What is read for the words of a name are these words with blanks between them. -/
theorem exists_spaced (hn : ws ≠ []) (h : afterWords? ws text = some rest) :
    ∃ read, text = read ++ rest ∧ Spaced ws read := by
  induction ws generalizing text with
  | nil => exact absurd rfl hn
  | cons word more ih =>
    cases more with
    | nil => exact ⟨word, (afterWord?_append h).symm, .one word⟩
    | cons next more =>
      rw [afterWords?_cons_cons] at h
      obtain ⟨left, hl, h⟩ := Option.bind_eq_some_iff.mp h
      have htext := afterWord?_append hl
      cases left with
      | nil => cases h
      | cons c left =>
        simp only at h
        split at h
        · rename_i hc
          obtain ⟨read, hread, hs⟩ := ih (List.cons_ne_nil _ _) h
          have hgap : ∀ d ∈ c :: left.takeWhile isBlank, isBlank d = true :=
            List.forall_mem_cons.mpr ⟨hc, List.all_eq_true.mp List.all_takeWhile⟩
          refine ⟨word ++ (c :: left.takeWhile isBlank ++ read), ?_, .cons word (List.cons_ne_nil _ _) hgap hs⟩
          rw [← htext, List.append_assoc, List.append_assoc, ← hread, List.cons_append, Text.takeWhile_append_skip]
        · cases h

theorem afterWords?_spaced (h : Spaced ws read) (hw : ∀ word ∈ ws, IsInk word) (rest : List Char) :
    afterWords? ws (read ++ rest) = some rest := by
  induction h with
  | one word => exact afterWord?_self word rest
  | @cons word gap text more hn hb hs ih =>
    have hmore : ∀ w ∈ more, IsInk w := fun w hm => hw w (List.mem_cons_of_mem _ hm)
    have hskip := hs.skipBlank_append hmore rest
    obtain ⟨next, more', rfl⟩ := List.exists_cons_of_ne_nil hs.ne_nil
    cases gap with
    | nil => exact absurd rfl hn
    | cons c gap =>
      have hgap : skipBlank (gap ++ (text ++ rest)) = skipBlank (text ++ rest) :=
        List.dropWhile_append_of_pos fun d hd => hb d (List.mem_cons_of_mem _ hd)
      rw [afterWords?_cons_cons, List.append_assoc, List.append_assoc, afterWord?_self]
      simp only [Option.bind_some, List.cons_append, hb c (List.mem_cons_self ..), if_true, hgap, hskip]
      exact ih hmore

theorem afterWords?_eq_some_iff (hn : ws ≠ []) (hw : ∀ word ∈ ws, IsInk word) :
    afterWords? ws text = some rest ↔ ∃ read, text = read ++ rest ∧ Spaced ws read := by
  constructor
  · exact exists_spaced hn
  · rintro ⟨read, rfl, hs⟩
    exact afterWords?_spaced hs hw rest

/-- Where a phrase is called its words are read, no word character follows, and the next ink is an
    opening bracket. -/
theorem Phrase.after?_iff {phrase : Phrase} : phrase.after? text = some rest ↔
    afterWords? phrase.words text = some rest ∧ rest.head?.any isWordChar = false ∧ firstInk rest = some '(' := by
  unfold Phrase.after?
  cases afterWords? phrase.words text with
  | none => simp
  | some left =>
    simp only [Option.some.injEq]
    constructor
    · intro h
      split at h
      · cases h
      · split at h
        · rename_i hc ho
          obtain rfl := Option.some.inj h
          exact ⟨rfl, by simpa using hc, ho⟩
        · cases h
    · rintro ⟨rfl, hc, ho⟩
      simp [hc, ho]

/-- A phrase is called where its words stand with blanks between them, no word character follows, and
    the next ink is an opening bracket. -/
theorem Phrase.after?_eq_some_iff {phrase : Phrase} (hn : phrase.words ≠ []) (hw : ∀ word ∈ phrase.words, IsInk word) :
    phrase.after? text = some rest ↔
      (∃ read, text = read ++ rest ∧ Spaced phrase.words read) ∧ rest.head?.any isWordChar = false ∧
        firstInk rest = some '(' := by
  rw [Phrase.after?_iff, afterWords?_eq_some_iff hn hw]

theorem exists_of_find? {phrases : List Phrase} {identifier : List Char}
    (h : Phrase.find? phrases text = some (identifier, rest)) :
    ∃ phrase ∈ phrases, phrase.after? text = some rest ∧ phrase.identifier = identifier := by
  obtain ⟨phrase, hm, hp⟩ := List.exists_of_findSome?_eq_some h
  obtain ⟨left, hl, he⟩ := Option.map_eq_some_iff.mp hp
  obtain ⟨rfl, rfl⟩ := Prod.mk.inj he
  exact ⟨phrase, hm, hl, rfl⟩

/-- Behind a name that is found no word goes on. -/
theorem head?_of_find? {phrases : List Phrase} {identifier : List Char}
    (h : Phrase.find? phrases text = some (identifier, rest)) : rest.head?.any isWordChar = false := by
  obtain ⟨phrase, -, hp, -⟩ := exists_of_find? h
  exact (Phrase.after?_iff.mp hp).2.1

/-! ## The phrases of a registry -/

theorem mem_ofRegistry_iff {registry : Registry} {phrase : Phrase} : phrase ∈ Phrase.ofRegistry registry ↔
    (∃ extension ∈ registry.toList, extension.name.toList.any isBlank = true ∧
      phrase = .ofName extension.name extension.identifier) ∨ phrase = .ofName "date and time" "timestamp" := by
  simp only [Phrase.ofRegistry, Phrase.standard, List.mem_mergeSort, List.mem_append, List.mem_map, List.mem_filter,
    List.mem_singleton, and_assoc, eq_comm (b := phrase)]

theorem isInk_of_mem_ofRegistry {registry : Registry} {phrase : Phrase} (h : phrase ∈ Phrase.ofRegistry registry) :
    ∀ word ∈ phrase.words, IsInk word := by
  rcases mem_ofRegistry_iff.mp h with ⟨extension, -, -, rfl⟩ | rfl
  · exact fun word => Text.isInk_of_mem_words
  · exact fun word => Text.isInk_of_mem_words

end Feel

end Rulebook
