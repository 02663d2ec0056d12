/-
  Rulebook.Proofs.Feel.Named — which name is called at a position.

  A name of several words is called at a position where its words stand in order with blanks
  between them, up to a position where no word goes on and the next ink is an opening
  bracket (`CalledAt`). No word holds a bracket or a blank, so the text before that bracket
  gives the words back: of names that differ in their words at most one is called, also if
  one begins with the words of another. What is found is therefore the same in any order
  of the names, and the order by the number of words decides nothing.
  - `Phrase.after?_drop_iff`: where a phrase is called, by positions.
  - `eq_of_called`: what is called at a position has these words and no others, and ends there.
  - `Phrase.find?_iff_of_agree`: what is found where no two phrases disagree.
  - `find?_account`: what is found at a position of a text, that it is the only name called
    there, and that no order of the names matters.
-/

import Rulebook.Proofs.Feel.Parts

namespace Rulebook.Feel

open Rulebook.Text (isBlank isWordChar firstInk IsInk)

/-- The names of several words that rules may call, each with what is written for it. -/
inductive Known (registry : Registry) : String → String → Prop where
  | standard : Known registry "date and time" "timestamp"
  | extension {extension : Extension} (mem : extension ∈ registry.toList)
      (blank : extension.name.toList.any isBlank = true) : Known registry extension.name extension.identifier

/-- The names of a registry that hold blanks consist of words of word characters, and no two names have the same. -/
structure Unambiguous (registry : Registry) : Prop where
  words : ∀ extension ∈ registry.toList, extension.name.toList.any isBlank = true →
    Text.words extension.name.toList ≠ [] ∧
      ∀ word ∈ Text.words extension.name.toList, ∀ c ∈ word, isWordChar c = true
  distinct : ∀ a ∈ registry.toList, ∀ b ∈ registry.toList, a.name.toList.any isBlank = true →
    b.name.toList.any isBlank = true → Text.words a.name.toList = Text.words b.name.toList → a = b
  apart : ∀ extension ∈ registry.toList, extension.name.toList.any isBlank = true →
    Text.words extension.name.toList ≠ Text.words "date and time".toList

/-- Words stand in a text from one position up to another, in order and with blanks between them; no word goes on
    there, and the next ink is an opening bracket. -/
structure CalledAt (ws : List (List Char)) (text : List Char) (start next : Nat) : Prop where
  ordered : start ≤ next
  within : next ≤ text.length
  spaced : Spaced ws ((text.take next).drop start)
  whole : text[next]?.any isWordChar = false
  opens : firstInk (text.drop next) = some '('

variable {registry : Registry} {phrases : List Phrase} {ws ws' : List (List Char)} {text rest rest' identifier : List Char}
  {start next : Nat}

/-! ## Positions -/

theorem slice_append_drop (h : start ≤ next) (hw : next ≤ text.length) :
    (text.take next).drop start ++ text.drop next = text.drop start := by
  have hlength : start ≤ (text.take next).length := by rwa [List.length_take_of_le hw]
  rw [← List.drop_append_of_le_length hlength, List.take_append_drop]

theorem ne_nil_of_spaced {read : List Char} (h : Spaced ws read) (hw : ∀ word ∈ ws, IsInk word) : read ≠ [] := by
  rintro rfl
  exact h.ne_nil (words_of_spaced_self h hw).symm

/-- A phrase is called at a position where its words stand up to another. -/
theorem Phrase.after?_drop_iff {phrase : Phrase} (hn : phrase.words ≠ []) (hw : ∀ word ∈ phrase.words, IsInk word) :
    phrase.after? (text.drop start) = some rest ↔
      ∃ next, CalledAt phrase.words text start next ∧ rest = text.drop next := by
  rw [Phrase.after?_eq_some_iff hn hw]
  constructor
  · rintro ⟨⟨read, hread, hs⟩, hwhole, hopens⟩
    have hnext : text.drop (start + read.length) = rest := by
      rw [← List.drop_drop, hread, List.drop_left]
    have hstart : start + read.length ≤ text.length := by
      have hlength := congrArg List.length hread
      have hpos := List.length_pos_iff.mpr (ne_nil_of_spaced hs hw)
      simp only [List.length_drop, List.length_append] at hlength
      omega
    have hslice : (text.take (start + read.length)).drop start = read := by
      have happend := slice_append_drop (Nat.le_add_right start read.length) hstart
      rw [hnext, hread] at happend
      exact List.append_cancel_right happend
    refine ⟨_, ⟨Nat.le_add_right .., hstart, by rwa [hslice], ?_, by rwa [hnext]⟩, hnext.symm⟩
    rwa [← List.head?_drop, hnext]
  · rintro ⟨next, h, rfl⟩
    refine ⟨⟨_, (slice_append_drop h.ordered h.within).symm, h.spaced⟩, ?_, h.opens⟩
    rw [List.head?_drop]
    exact h.whole

/-! ## One name at a position -/

/-- At least one word, each of which has characters, and all of them word characters. -/
def AreWords (ws : List (List Char)) : Prop := ws ≠ [] ∧ ∀ word ∈ ws, word ≠ [] ∧ ∀ c ∈ word, isWordChar c = true

theorem AreWords.isInk (h : AreWords ws) : ∀ word ∈ ws, IsInk word := fun word hm =>
  ⟨(h.2 word hm).1, fun c hc => Text.not_isBlank_of_isWordChar ((h.2 word hm).2 c hc)⟩

/-- Up to the bracket of its call, the text at a position gives back the words that are called there. -/
theorem CalledAt.exists_opening (h : CalledAt ws text start next) (hw : AreWords ws) :
    ∃ front more, text.drop start = front ++ '(' :: more ∧ '(' ∉ front ∧ Text.words front = ws := by
  obtain ⟨gap, more, hopen, hgap⟩ := Text.exists_of_firstInk h.opens
  refine ⟨_, more, ?_, ?_, words_of_spaced h.spaced hw.isInk hgap⟩
  · rw [← slice_append_drop h.ordered h.within, hopen, List.append_assoc]
  · have hread := h.spaced.forall_mem (p := (· ≠ '('))
      (fun word hm c hc => Text.ne_of_class ((hw.2 word hm).2 c hc) (by decide)) fun c hc => Text.ne_of_class hc (by decide)
    intro hm
    rcases List.mem_append.mp hm with hm | hm
    · exact hread _ hm rfl
    · exact Text.ne_of_class (hgap _ hm) (by decide) rfl

/-- What is called at a position has one list of words and ends at one place. -/
theorem eq_of_called {next' : Nat} (h : CalledAt ws text start next) (h' : CalledAt ws' text start next')
    (hw : AreWords ws) (hw' : AreWords ws') : ws = ws' ∧ next = next' := by
  obtain ⟨front, more, htext, hfront, rfl⟩ := h.exists_opening hw
  obtain ⟨front', more', htext', hfront', rfl⟩ := h'.exists_opening hw'
  obtain ⟨rfl, -⟩ := Text.split_unique hfront hfront' (htext.symm.trans htext')
  refine ⟨rfl, ?_⟩
  -- the same words are read from the same text, so the same is left of it
  have hread := afterWords?_spaced h.spaced hw.isInk (text.drop next)
  have hread' := afterWords?_spaced h'.spaced hw.isInk (text.drop next')
  rw [slice_append_drop h.ordered h.within] at hread
  rw [slice_append_drop h'.ordered h'.within, hread] at hread'
  have hlength := congrArg List.length (Option.some.inj hread')
  have hnext := h.within
  have hnext' := h'.within
  simp only [List.length_drop] at hlength
  omega

/-- Where phrases that are called agree on what they write and leave, what is found is what any of them gives. -/
theorem Phrase.find?_iff_of_agree
    (agree : ∀ a ∈ phrases, ∀ b ∈ phrases, ∀ left left', a.after? text = some left → b.after? text = some left' →
      a.identifier = b.identifier ∧ left = left') :
    Phrase.find? phrases text = some (identifier, rest) ↔
      ∃ phrase ∈ phrases, phrase.after? text = some rest ∧ phrase.identifier = identifier := by
  constructor
  · exact exists_of_find?
  · rintro ⟨phrase, hm, hafter, rfl⟩
    cases hf : Phrase.find? phrases text with
    | none =>
      have hnone := List.findSome?_eq_none_iff.mp hf phrase hm
      rw [hafter] at hnone
      cases hnone
    | some found =>
      obtain ⟨identifier, left⟩ := found
      obtain ⟨other, ho, hother, rfl⟩ := exists_of_find? hf
      obtain ⟨hsame, rfl⟩ := agree phrase hm other ho rest left hafter hother
      rw [hsame]

/-! ## The names of a registry -/

theorem mem_ofRegistry_iff_known {phrase : Phrase} :
    phrase ∈ Phrase.ofRegistry registry ↔ ∃ name known, Known registry name known ∧ phrase = .ofName name known := by
  rw [mem_ofRegistry_iff]
  constructor
  · rintro (⟨extension, hm, hb, rfl⟩ | rfl)
    · exact ⟨_, _, .extension hm hb, rfl⟩
    · exact ⟨_, _, .standard, rfl⟩
  · rintro ⟨name, known, hname, rfl⟩
    cases hname with
    | standard => exact Or.inr rfl
    | extension hm hb => exact Or.inl ⟨_, hm, hb, rfl⟩

theorem Unambiguous.areWords (h : Unambiguous registry) {name known : String} (hname : Known registry name known) :
    AreWords (Text.words name.toList) := by
  cases hname with
  | standard => exact ⟨by decide, by decide⟩
  | extension hm hb =>
    obtain ⟨hne, hwords⟩ := h.words _ hm hb
    exact ⟨hne, fun word hword => ⟨(Text.isInk_of_mem_words hword).1, hwords word hword⟩⟩

theorem Unambiguous.name_eq (h : Unambiguous registry) {name known name' known' : String}
    (hname : Known registry name known) (hname' : Known registry name' known')
    (hwords : Text.words name.toList = Text.words name'.toList) : name = name' ∧ known = known' := by
  cases hname with
  | standard =>
    cases hname' with
    | standard => exact ⟨rfl, rfl⟩
    | extension hm hb => exact absurd hwords.symm (h.apart _ hm hb)
  | extension hm hb =>
    cases hname' with
    | standard => exact absurd hwords (h.apart _ hm hb)
    | extension hm' hb' =>
      obtain rfl := h.distinct _ hm _ hm' hb hb' hwords
      exact ⟨rfl, rfl⟩

theorem Unambiguous.eq_of_called (h : Unambiguous registry) {name known name' known' : String} {next' : Nat}
    (hname : Known registry name known) (hname' : Known registry name' known')
    (hcalled : CalledAt (Text.words name.toList) text start next)
    (hcalled' : CalledAt (Text.words name'.toList) text start next') : name = name' ∧ known = known' ∧ next = next' := by
  obtain ⟨hwords, hnext⟩ := Feel.eq_of_called hcalled hcalled' (h.areWords hname) (h.areWords hname')
  obtain ⟨hsame, hknown⟩ := h.name_eq hname hname' hwords
  exact ⟨hsame, hknown, hnext⟩

/-- Phrases that are called at one position agree on what they write and leave. -/
theorem Unambiguous.agree (h : Unambiguous registry) (text : List Char) (start : Nat) :
    ∀ a ∈ Phrase.ofRegistry registry, ∀ b ∈ Phrase.ofRegistry registry, ∀ left left',
      a.after? (text.drop start) = some left → b.after? (text.drop start) = some left' →
        a.identifier = b.identifier ∧ left = left' := by
  intro a ha b hb left left' hleft hleft'
  obtain ⟨name, known, hname, rfl⟩ := mem_ofRegistry_iff_known.mp ha
  obtain ⟨name', known', hname', rfl⟩ := mem_ofRegistry_iff_known.mp hb
  have hwords := h.areWords hname
  have hwords' := h.areWords hname'
  obtain ⟨next, hcalled, rfl⟩ := (Phrase.after?_drop_iff hwords.1 hwords.isInk).mp hleft
  obtain ⟨next', hcalled', rfl⟩ := (Phrase.after?_drop_iff hwords'.1 hwords'.isInk).mp hleft'
  obtain ⟨-, rfl, rfl⟩ := h.eq_of_called hname hname' hcalled hcalled'
  exact ⟨rfl, rfl⟩

/-- At a position of a text the name is found whose words stand there in order, with blanks between them, no word going
    on behind them and an opening bracket as the next ink. No other name is called there, so the order in which the
    names are tried does not matter. -/
theorem find?_account (h : Unambiguous registry) (text : List Char) (start : Nat) :
    (∀ identifier rest, Phrase.find? (Phrase.ofRegistry registry) (text.drop start) = some (identifier, rest) ↔
        ∃ name known next, Known registry name known ∧ CalledAt (Text.words name.toList) text start next ∧
          identifier = known.toList ∧ rest = text.drop next) ∧
      (∀ name known next name' known' next', Known registry name known → CalledAt (Text.words name.toList) text start next →
        Known registry name' known' → CalledAt (Text.words name'.toList) text start next' →
          name = name' ∧ known = known' ∧ next = next') ∧
      ∀ table, table.Perm (Phrase.ofRegistry registry) →
        Phrase.find? table (text.drop start) = Phrase.find? (Phrase.ofRegistry registry) (text.drop start) := by
  have hagree := h.agree text start
  refine ⟨fun identifier rest => ?_, fun _ _ _ _ _ _ hname hcalled hname' hcalled' => ?_, fun table hperm => ?_⟩
  · rw [Phrase.find?_iff_of_agree hagree]
    constructor
    · rintro ⟨phrase, hm, hafter, rfl⟩
      obtain ⟨name, known, hname, rfl⟩ := mem_ofRegistry_iff_known.mp hm
      obtain ⟨next, hcalled, rfl⟩ := (Phrase.after?_drop_iff (h.areWords hname).1 (h.areWords hname).isInk).mp hafter
      exact ⟨name, known, next, hname, hcalled, rfl, rfl⟩
    · rintro ⟨name, known, next, hname, hcalled, rfl, rfl⟩
      have hafter : (Phrase.ofName name known).after? (text.drop start) = some (text.drop next) :=
        (Phrase.after?_drop_iff (h.areWords hname).1 (h.areWords hname).isInk).mpr ⟨next, hcalled, rfl⟩
      exact ⟨.ofName name known, mem_ofRegistry_iff_known.mpr ⟨name, known, hname, rfl⟩, hafter, rfl⟩
  · exact h.eq_of_called hname hname' hcalled hcalled'
  · refine Option.ext fun found => ?_
    obtain ⟨identifier, rest⟩ := found
    rw [Phrase.find?_iff_of_agree hagree, Phrase.find?_iff_of_agree]
    · simp only [hperm.mem_iff]
    · exact fun a ha b hb => hagree a (hperm.mem_iff.mp ha) b (hperm.mem_iff.mp hb)

theorem unambiguous_builtin : Unambiguous .builtin where
  words := by decide +kernel
  distinct := by
    have hnodup : (Registry.builtin.toList.map fun extension => Text.words extension.name.toList).Nodup := by
      decide +kernel
    exact fun a ha b hb _ _ hwords => List.inj_on_of_nodup_map hnodup ha hb hwords
  apart := by decide +kernel

def presented : List Char := "x or is  vp valid (y)".toList

theorem find?_account_presented :
    Unambiguous .builtin ∧ CalledAt (Text.words "is vp valid".toList) presented 5 17 ∧
      Phrase.find? (Phrase.ofRegistry .builtin) (presented.drop 5) = some ("is_vp_valid".toList, " (y)".toList) := by
  have hcalled : CalledAt (Text.words "is vp valid".toList) presented 5 17 := by
    refine ⟨by decide, by decide, ?_, by decide, by decide⟩
    have hspaced : Spaced ["is".toList, "vp".toList, "valid".toList]
        ("is".toList ++ ("  ".toList ++ ("vp".toList ++ (" ".toList ++ "valid".toList)))) :=
      .cons _ (by decide) (by decide) (.cons _ (by decide) (by decide) (.one _))
    exact hspaced
  have hknown : Known .builtin "is vp valid" "is_vp_valid" := by
    obtain ⟨extension, hm, hname⟩ : ∃ extension ∈ Registry.builtin.toList, extension.name = "is vp valid" := by
      rw [builtin_toList]
      exact ⟨_, List.mem_of_getElem? (show Verification.extensions[3]? = some _ from rfl), rfl⟩
    have hidentifier : extension.identifier = "is_vp_valid" := by
      rw [Extension.identifier, hname]
      decide
    rw [← hname, ← hidentifier]
    exact .extension hm (by rw [hname]; decide)
  exact ⟨unambiguous_builtin, hcalled,
    ((find?_account unambiguous_builtin presented 5).1 _ _).mpr ⟨_, _, 17, hknown, hcalled, rfl, by decide⟩⟩

end Rulebook.Feel
