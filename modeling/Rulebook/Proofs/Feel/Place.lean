/-
  Rulebook.Proofs.Feel.Place — which brackets are indices, and what becomes of an index.

  A bracket is an index behind a closing bracket and behind a word that no list follows
  (`opensIndex_closing`, `opensIndex_word`), and what stands before a sign does not count
  behind ink (`opensIndex_before_sign`). What an index is lowered to is decided by what
  stands between its outer blanks (`lowered_eq_ok_iff`): a number from 1 is lowered by
  one (`lowered_digits`), a text that starts with a quote stays (`lowered_key`), and a
  text with a character that no number has is lowered where it is evaluated
  (`lowered_other`).
-/

import Rulebook.Feel.Index
import Rulebook.Proofs.Text

namespace Rulebook.Feel

open Rulebook.Text

/-! ## Which brackets are indices -/

theorem opensIndex_closing {c : Char} (h : c = ')' ∨ c = ']') (out : List Char) : opensIndex (c :: out) = true := by
  have hb : isBlank c = false := by rcases h with rfl | rfl <;> decide
  simp [opensIndex, skipBlank_cons hb, h]

theorem opensIndex_sign {c : Char} (hb : isBlank c = false) (hc : c ≠ ')' ∧ c ≠ ']') (hw : isWordChar c = false)
    (out : List Char) : opensIndex (c :: out) = false := by
  simp [opensIndex, skipBlank_cons hb, hc, hw]

theorem opensIndex_blank {c : Char} (hb : isBlank c = true) (out : List Char) :
    opensIndex (c :: out) = opensIndex out := by
  unfold opensIndex
  rw [show skipBlank (c :: out) = skipBlank out by simp [skipBlank, hb]]

theorem opensIndex_gap {gap : List Char} (hg : ∀ c ∈ gap, isBlank c = true) (out : List Char) :
    opensIndex (gap ++ out) = opensIndex out := by
  unfold opensIndex
  rw [skipBlank_gap hg]

/-- Behind a word a bracket is an index, unless a list may follow the word. -/
theorem opensIndex_word {word out : List Char} (hn : word ≠ []) (hw : ∀ c ∈ word, isWordChar c = true)
    (ho : out.head?.any isWordChar = false) :
    opensIndex (word.reverse ++ out) = !listWords.contains word := by
  have hlead : (word.reverse ++ out).takeWhile isWordChar = word.reverse := by
    rw [List.takeWhile_append_of_pos fun c hc => hw c (List.mem_reverse.mp hc)]
    cases out with
    | nil => simp
    | cons c rest => simp_all
  cases hr : word.reverse ++ out with
  | nil => simp_all
  | cons c rest =>
    have hc : isWordChar c = true := by
      cases hrev : word.reverse with
      | nil => simp_all
      | cons d more =>
        have : d = c := by simp_all
        exact hw c (List.mem_reverse.mp (by simp [hrev, this]))
    have hne : ¬(c = ')' ∨ c = ']') := by
      rintro (h | h)
      · exact ne_of_class hc (by decide) h
      · exact ne_of_class hc (by decide) h
    rw [hr] at hlead
    simp only [opensIndex, skipBlank_cons (not_isBlank_of_isWordChar hc), if_neg hne, hc, if_true, hlead,
      List.reverse_reverse]

/-- Where ink stands behind a character that is part of no word, nothing before the character counts. -/
theorem opensIndex_before_sign {c : Char} (hw : isWordChar c = false) (text out : List Char) :
    opensIndex (text ++ c :: out) = if skipBlank text = [] then opensIndex (c :: out) else opensIndex text := by
  unfold opensIndex
  rw [skipBlank, List.dropWhile_append, ← skipBlank]
  cases hs : skipBlank text with
  | nil => rfl
  | cons d more =>
    have hlead : leadingWord (d :: more ++ c :: out) = leadingWord (d :: more) := (word_before_sign hw (d :: more) out).1
    simp only [leadingWord, List.cons_append] at hlead
    simp [hlead]

/-! ## What becomes of an index -/

/-- Between its outer blanks, what starts with a quote stays, a number from 1 is lowered by one, and what is no
    number is lowered where it is evaluated. -/
theorem lowered_eq_ok_iff {index low : List Char} {position : Nat} : lowered index position = .ok low ↔
    (trim index).head? = some '"' ∧ low = trim index ∨
      (∃ n, readInt64 (trim index) = .ok n ∧ 1 ≤ n ∧ low = decimal (n - 1)) ∨
      (trim index).head? ≠ some '"' ∧ (∀ n, readInt64 (trim index) ≠ .ok n) ∧
        low = '(' :: (trim index ++ ") - 1".toList) := by
  have hnumber : ∀ n, readInt64 (trim index) = .ok n → (trim index).head? ≠ some '"' := by
    intro n hn hq
    rcases isDigit_of_readInt64 hn '"' (List.mem_of_head? hq) with hd | hd | hd <;> cases hd
  unfold lowered
  simp only
  by_cases hq : (trim index).head? = some '"'
  · have hnone : ∀ n, readInt64 (trim index) ≠ .ok n := fun n hn => hnumber n hn hq
    simp [hq, hnone, eq_comm]
  · rw [if_neg hq]
    cases readInt64 (trim index) with
    | error fault => simp [hq, eq_comm]
    | ok n =>
      by_cases hone : 1 ≤ n
      · simp [hq, hone, eq_comm]
      · simp [hq, hone]

theorem lowered_anywhere {index low : List Char} {position : Nat} (h : lowered index position = .ok low) (other : Nat) :
    lowered index other = .ok low :=
  lowered_eq_ok_iff.mpr (lowered_eq_ok_iff.mp h)

theorem lowered_digits {digits : List Char} {n : Nat} (hd : IsNumeral digits n) (h : 1 ≤ n)
    (hn : n ≤ 9223372036854775807) (position : Nat) : lowered digits position = .ok (numeral (n - 1)) := by
  have htrim : trim digits = digits := trim_ink fun c hc =>
    not_isBlank_of_isWordChar (isWordChar_of_isDigit (hd.2.1 c hc))
  have hread : readInt64 digits = .ok n :=
    readInt64_eq_ok_iff.mpr ⟨⟨digits, n, hd, Or.inl ⟨Or.inl rfl, rfl⟩⟩, by omega, by omega⟩
  have hdec : decimal ((n : Int) - 1) = numeral (n - 1) := by
    unfold decimal
    rw [if_neg (by omega)]
    congr 1
    omega
  rw [← htrim] at hread
  exact lowered_eq_ok_iff.mpr (Or.inr (Or.inl ⟨n, hread, by omega, hdec.symm⟩))

theorem lowered_numeral {n : Nat} (h : 1 ≤ n) (hn : n ≤ 9223372036854775807) (position : Nat) :
    lowered (numeral n) position = .ok (numeral (n - 1)) :=
  lowered_digits (isNumeral_numeral n) h hn position

theorem lowered_key {index : List Char} (ht : trim index = index) (hq : index.head? = some '"') (position : Nat) :
    lowered index position = .ok index := by
  exact lowered_eq_ok_iff.mpr (Or.inl ⟨by rwa [ht], ht.symm⟩)

theorem lowered_other {index : List Char} (ht : trim index = index) (hq : index.head? ≠ some '"') {c : Char}
    (hc : c ∈ index) (hd : c.isDigit = false) (hp : c ≠ '+') (hm : c ≠ '-') (position : Nat) :
    lowered index position = .ok ('(' :: (index ++ ") - 1".toList)) := by
  refine lowered_eq_ok_iff.mpr (Or.inr (Or.inr ⟨by rwa [ht], fun n hn => ?_, by rw [ht]⟩))
  rw [ht] at hn
  rcases isDigit_of_readInt64 hn c hc with h | h | h
  · cases hd.symm.trans h
  · exact hp h
  · exact hm h

end Rulebook.Feel
