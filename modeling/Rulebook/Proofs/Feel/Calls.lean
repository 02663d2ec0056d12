/-
  Rulebook.Proofs.Feel.Calls — which names of several words a rule calls.

  In front of a word only a phrase that starts with this very word can be found, and
  only if a blank follows the word (`find?_eq_none`). The names of several words that
  the built-in registry gives to rules are the four of its extensions and the one of the
  language (`phrases_builtin`); each is found where it is called (`find?_extension`,
  `find?_timestamp`).
-/

import Rulebook.Extension.Verification
import Rulebook.Proofs.Feel.Reading

namespace Rulebook.Feel

open Rulebook.Text (isBlank isWordChar skipBlank not_isBlank_of_isWordChar)

/-! ## In front of a word -/

/-- What a word leaves of a text that starts with another word: the rest of the text if the two are
    the same, and more of the other word if they are not. -/
theorem afterWord?_word {w word rest left : List Char} (hw : ∀ c ∈ w, isWordChar c = true)
    (hword : ∀ c ∈ word, isWordChar c = true) (hr : rest.head?.any isWordChar = false)
    (h : afterWord? w (word ++ rest) = some left) :
    (w = word ∧ left = rest) ∨ ∃ c more, left = c :: more ∧ isWordChar c = true := by
  rcases List.append_eq_append_iff.mp (afterWord?_append h) with ⟨more, hm, hl⟩ | ⟨more, hm, hl⟩
  · cases more with
    | nil => exact Or.inl ⟨by simpa using hm.symm, by simpa using hl⟩
    | cons c more => exact Or.inr ⟨c, more ++ rest, hl, hword c (by simp [hm])⟩
  · cases more with
    | nil => exact Or.inl ⟨by simpa using hm, by simpa using hl.symm⟩
    | cons c more =>
      have hc : isWordChar c = true := hw c (by simp [hm])
      simp [hl, hc] at hr

theorem afterWords?_cons_cons (w v : List Char) (words : List (List Char)) (text : List Char) :
    afterWords? (w :: v :: words) text = (afterWord? w text).bind fun left =>
      match left with
      | [] => none
      | c :: rest => if isBlank c then afterWords? (v :: words) (skipBlank rest) else none := by
  rw [afterWords?]
  · rfl
  · simp

/-- A name of two words or more, all of word characters. -/
def Phrase.IsSpelled (phrase : Phrase) : Prop :=
  2 ≤ phrase.words.length ∧ ∀ w ∈ phrase.words, ∀ c ∈ w, isWordChar c = true

instance (phrase : Phrase) : Decidable phrase.IsSpelled := inferInstanceAs (Decidable (_ ∧ _))

theorem Phrase.after?_eq_none {phrase : Phrase} (hp : phrase.IsSpelled) {word rest : List Char}
    (hword : ∀ c ∈ word, isWordChar c = true) (hr : rest.head?.any isWordChar = false)
    (h : phrase.words.head? ≠ some word ∨ rest.head?.any isBlank = false) : phrase.after? (word ++ rest) = none := by
  obtain ⟨hl, hw⟩ := hp
  obtain ⟨w, v, more, hwords⟩ : ∃ w v more, phrase.words = w :: v :: more := by
    match phrase.words, hl with
    | w :: v :: more, _ => exact ⟨w, v, more, rfl⟩
  rw [hwords] at hw h
  have hnone : afterWords? (w :: v :: more) (word ++ rest) = none := by
    rw [afterWords?_cons_cons]
    cases ha : afterWord? w (word ++ rest) with
    | none => rfl
    | some left =>
      rcases afterWord?_word (hw w (List.mem_cons_self ..)) hword hr ha with ⟨rfl, rfl⟩ | ⟨c, tail, rfl, hc⟩
      · cases left with
        | nil => rfl
        | cons c tail =>
          have hb : isBlank c = false := by simpa using h
          simp [hb]
      · simp [not_isBlank_of_isWordChar hc]
  simp [Phrase.after?, hwords, hnone]

/-- No phrase is found in front of a word that is the first of none, or that no blank follows. -/
theorem find?_eq_none {phrases : List Phrase} (hp : ∀ phrase ∈ phrases, phrase.IsSpelled) {word rest : List Char}
    (hword : ∀ c ∈ word, isWordChar c = true) (hr : rest.head?.any isWordChar = false)
    (h : (∀ phrase ∈ phrases, phrase.words.head? ≠ some word) ∨ rest.head?.any isBlank = false) :
    Phrase.find? phrases (word ++ rest) = none := by
  unfold Phrase.find?
  rw [List.findSome?_eq_none_iff]
  intro phrase hm
  rw [Phrase.after?_eq_none (hp phrase hm) hword hr (h.imp (fun h => h phrase hm) id)]
  rfl

/-! ## The built-in names -/

def builtinPhrases : List Phrase := [
  .ofName "has allowed changes" "has_allowed_changes", .ofName "is proof valid" "is_proof_valid",
  .ofName "is report valid" "is_report_valid", .ofName "is vp valid" "is_vp_valid",
  .ofName "date and time" "timestamp"]

theorem phrases_builtin : Phrase.ofRegistry .builtin = builtinPhrases := by cbv

theorem isSpelled_builtin : ∀ phrase ∈ builtinPhrases, phrase.IsSpelled := by decide

theorem isWord_builtin : ∀ phrase ∈ builtinPhrases, phrase.words ≠ [] ∧ ∀ word ∈ phrase.words, Text.IsWord word := by
  decide

theorem builtin_toList : Registry.builtin.toList = Verification.extensions := by cbv

theorem find?_extension {extension : Extension} (h : extension ∈ Registry.builtin.toList) (rest : List Char) :
    Phrase.find? (Phrase.ofRegistry .builtin) (extension.name.toList ++ '(' :: rest) =
      some (extension.identifier.toList, '(' :: rest) := by
  rw [builtin_toList] at h
  rw [phrases_builtin]
  simp only [Verification.extensions, List.mem_cons, List.not_mem_nil, or_false] at h
  rcases h with rfl | rfl | rfl | rfl <;> rfl

theorem find?_timestamp (rest : List Char) :
    Phrase.find? (Phrase.ofRegistry .builtin) ("date and time".toList ++ '(' :: rest) =
      some ("timestamp".toList, '(' :: rest) := by
  rw [phrases_builtin]
  rfl

end Rulebook.Feel
