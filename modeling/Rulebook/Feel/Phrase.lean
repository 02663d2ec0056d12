/-
  Rulebook.Feel.Phrase — function names of several words.

  A rule may call a function by a name with blanks in it. Such a name is found where its
  words stand in order with blanks between them, no word character follows the last of
  them, and the next character that is no blank opens the arguments. Names of more words
  are tried first, names of as many words in the order of the registry, and the names
  of the language last.
-/

import Rulebook.Extension.Registry
import Rulebook.Text.Blank
import Rulebook.Text.Word

namespace Rulebook.Feel

open Rulebook.Text (isBlank skipBlank firstInk isWordChar)

/-- A name of several words, and the identifier that is written for it. -/
structure Phrase where
  words : List (List Char)
  identifier : List Char
  deriving DecidableEq, Repr

def Phrase.ofName (name identifier : String) : Phrase := ⟨Text.words name.toList, identifier.toList⟩

/-- The names of several words that the language itself has. -/
def Phrase.standard : List Phrase := [.ofName "date and time" "timestamp"]

/-- The phrases of a registry: its names that hold a blank, and those of the language. -/
def Phrase.ofRegistry (registry : Registry) : List Phrase :=
  let named := registry.toList.filter fun extension => extension.name.toList.any isBlank
  let phrases := named.map fun extension => Phrase.ofName extension.name extension.identifier
  (phrases ++ Phrase.standard).mergeSort fun a b => decide (b.words.length ≤ a.words.length)

def afterWord? : List Char → List Char → Option (List Char)
  | [], text => some text
  | _ :: _, [] => none
  | w :: word, c :: rest => if w = c then afterWord? word rest else none

def afterWords? : List (List Char) → List Char → Option (List Char)
  | [], text => some text
  | [word], text => afterWord? word text
  | word :: words, text => do
    match ← afterWord? word text with
    | [] => none
    | c :: rest => if isBlank c then afterWords? words (skipBlank rest) else none

/-- What follows a phrase at the front of a text, if it is called there. -/
def Phrase.after? (phrase : Phrase) (text : List Char) : Option (List Char) :=
  match afterWords? phrase.words text with
  | none => none
  | some rest =>
    if rest.head?.any isWordChar then none
    else if firstInk rest = some '(' then some rest
    else none

/-- The first phrase that is called at the front of a text: its identifier, and what follows it. -/
def Phrase.find? (phrases : List Phrase) (text : List Char) : Option (List Char × List Char) :=
  phrases.findSome? fun phrase => (phrase.after? text).map fun rest => (phrase.identifier, rest)

theorem afterWord?_append {word text rest : List Char} (h : afterWord? word text = some rest) :
    word ++ rest = text := by
  fun_induction afterWord? word text with
  | case1 => simpa using h.symm
  | case2 => cases h
  | case3 => simp_all
  | case4 => cases h

theorem afterWords?_suffix {words : List (List Char)} {text rest : List Char}
    (h : afterWords? words text = some rest) : rest <:+ text := by
  fun_induction afterWords? words text with
  | case1 => cases h; exact List.suffix_refl _
  | case2 word text => exact ⟨word, afterWord?_append h⟩
  | case3 word words text hne ih =>
    obtain ⟨left, hl, h⟩ := Option.bind_eq_some_iff.1 h
    have hw := afterWord?_append hl
    match left, hl, h, hw with
    | c :: more, hl, h, hw =>
      simp only at h
      split at h
      · have hs : skipBlank more <:+ text :=
          (List.dropWhile_suffix _).trans ⟨word ++ [c], by simpa using hw⟩
        exact (ih _ h).trans hs
      · cases h

theorem Phrase.after?_length_lt {phrase : Phrase} {c : Char} {text rest : List Char} (hc : isWordChar c = true)
    (h : phrase.after? (c :: text) = some rest) : rest.length ≤ text.length := by
  unfold Phrase.after? at h
  split at h
  · cases h
  · rename_i hw
    split at h
    · cases h
    · rename_i hn
      split at h
      · cases h
        have hs := afterWords?_suffix hw
        rcases Nat.lt_or_ge text.length rest.length with hl | hl
        · have he := hs.eq_of_length_le (Nat.succ_le_of_lt hl)
          rw [he] at hn
          simp [hc] at hn
        · exact hl
      · cases h

theorem Phrase.find?_length_le {phrases : List Phrase} {c : Char} {text identifier rest : List Char}
    (hc : isWordChar c = true) (h : Phrase.find? phrases (c :: text) = some (identifier, rest)) :
    rest.length ≤ text.length := by
  obtain ⟨phrase, -, hp⟩ := List.exists_of_findSome?_eq_some h
  obtain ⟨left, hl, he⟩ := Option.map_eq_some_iff.1 hp
  simp only [Prod.mk.injEq] at he
  obtain ⟨-, rfl⟩ := he
  exact Phrase.after?_length_lt hc hl

end Rulebook.Feel
