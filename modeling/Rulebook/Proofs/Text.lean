/-
  Rulebook.Proofs.Text — words, blanks and numbers in a text.

  A text is cut in one way at the first or the last place of a character (`split_unique`,
  `split_unique_last`). A word character is no blank, so the word that a text starts with
  is found whatever else follows it (`leadingWord_append`, `afterWord_append`), and what
  follows a character of no word adds nothing to it (`word_before_sign`). The first
  ink of a text stands behind blanks (`exists_of_firstInk`). A text between two characters
  of ink stays as it is when it is trimmed (`trim_eq_self`). A numeral is read as its
  number (`readInt64_numeral`), and nothing is read as a number that has another character
  than digits and a sign (`isDigit_of_readInt64`); the texts that are read are the ones
  that write an integer within the bounds (`readInt64_eq_ok_iff`).
-/

import Mathlib
import Rulebook.Text.Blank
import Rulebook.Text.Digits
import Rulebook.Text.Word

namespace Rulebook.Text

instance decidableForallMem (p : Char → Prop) [DecidablePred p] (text : List Char) : Decidable (∀ c ∈ text, p c) :=
  List.decidableBAll p text

theorem ne_of_class {p : Char → Bool} {c d : Char} (hc : p c = true) (hd : p d = false) : c ≠ d := by
  rintro rfl
  rw [hc] at hd
  cases hd

/-- A text is cut in one way at the first place of a character. -/
theorem split_unique {c : Char} {front front' back back' : List Char} (hf : c ∉ front) (hf' : c ∉ front')
    (h : front ++ c :: back = front' ++ c :: back') : front = front' ∧ back = back' := by
  induction front generalizing front' with
  | nil =>
    cases front' with
    | nil => exact ⟨rfl, (List.cons.inj h).2⟩
    | cons d rest =>
      obtain ⟨rfl, -⟩ := List.cons.inj h
      exact absurd (List.mem_cons_self ..) hf'
  | cons d front ih =>
    cases front' with
    | nil =>
      obtain ⟨rfl, -⟩ := List.cons.inj h
      exact absurd (List.mem_cons_self ..) hf
    | cons d' front' =>
      obtain ⟨rfl, htail⟩ := List.cons.inj h
      have hfront := fun hm => hf (List.mem_cons_of_mem d hm)
      have hfront' := fun hm => hf' (List.mem_cons_of_mem d hm)
      obtain ⟨rfl, hback⟩ := ih hfront hfront' htail
      exact ⟨rfl, hback⟩

theorem split_unique_last {c : Char} {front front' back back' : List Char} (hb : c ∉ back) (hb' : c ∉ back')
    (h : front ++ c :: back = front' ++ c :: back') : front = front' ∧ back = back' := by
  have hr := congrArg List.reverse h
  simp only [List.reverse_append, List.reverse_cons, List.append_assoc, List.singleton_append] at hr
  obtain ⟨hback, hfront⟩ := split_unique (mt List.mem_reverse.mp hb) (mt List.mem_reverse.mp hb') hr
  exact ⟨List.reverse_inj.mp hfront, List.reverse_inj.mp hback⟩

/-- A text is cut in one way at a character if it has no other like it. -/
theorem split_unique_only {c : Char} {front front' back back' : List Char} (hf : c ∉ front) (hb : c ∉ back)
    (h : front ++ c :: back = front' ++ c :: back') : front = front' ∧ back = back' := by
  have hcount := congrArg (List.count c) h
  simp only [List.count_append, List.count_cons_self, List.count_eq_zero_of_not_mem hf,
    List.count_eq_zero_of_not_mem hb] at hcount
  have hf' : c ∉ front' := List.count_eq_zero.mp (by omega)
  exact split_unique hf hf' h

/-- A cut of a text leaves a character of it on the one side or on the other. -/
theorem split_beside {c : Char} {xs ys before rest : List Char} (h : xs ++ c :: ys = before ++ rest) :
    (∃ left, xs = before ++ left ∧ rest = left ++ c :: ys) ∨ ∃ more, before = xs ++ c :: more ∧ ys = more ++ rest := by
  rcases List.append_eq_append_iff.mp h with ⟨more, rfl, hrest⟩ | ⟨left, hxs, hrest⟩
  · cases more with
    | nil => exact Or.inl ⟨[], by simp, hrest.symm⟩
    | cons d more =>
      obtain ⟨rfl, hys⟩ := List.cons.inj hrest
      exact Or.inr ⟨more, rfl, hys⟩
  · exact Or.inl ⟨left, hxs, hrest⟩

/-- What stands at the front of a text and has not the character ends before it. -/
theorem split_before {c : Char} {front rest text after : List Char} (hf : c ∉ front)
    (h : front ++ rest = text ++ c :: after) : ∃ left, text = front ++ left ∧ rest = left ++ c :: after := by
  rcases split_beside h.symm with hleft | ⟨more, rfl, -⟩
  · exact hleft
  · exact absurd (List.mem_append_right _ (List.mem_cons_self ..)) hf

/-- Of two cuts of a text, the second is not before the first, or there is something between them. -/
theorem split_within {xs ys before rest : List Char} (h : xs ++ ys = before ++ rest) :
    (∃ more, before = xs ++ more ∧ ys = more ++ rest) ∨ ∃ left, left ≠ [] ∧ xs = before ++ left ∧ rest = left ++ ys := by
  rcases List.append_eq_append_iff.mp h with hmore | ⟨left, rfl, rfl⟩
  · exact Or.inl hmore
  · by_cases hn : left = []
    · subst hn
      exact Or.inl ⟨[], by simp, rfl⟩
    · exact Or.inr ⟨left, hn, rfl, rfl⟩

/-! ## Words -/

theorem isWordChar_toNat {c : Char} (h : isWordChar c = true) : 48 ≤ c.toNat ∧ c.toNat ≤ 122 := by
  simp only [isWordChar, Char.isAlphanum, Char.isAlpha, Char.isUpper, Char.isLower, Char.isDigit, Bool.or_eq_true,
    Bool.and_eq_true, decide_eq_true_eq, beq_iff_eq] at h
  rcases h with ((h | h) | h) | rfl
  · exact ⟨Nat.le_trans (by decide) h.1, Nat.le_trans h.2 (by decide)⟩
  · exact ⟨Nat.le_trans (by decide) h.1, h.2⟩
  · exact ⟨h.1, Nat.le_trans h.2 (by decide)⟩
  · decide

theorem not_isBlank_of_isWordChar {c : Char} (h : isWordChar c = true) : isBlank c = false := by
  have := isWordChar_toNat h
  simp only [isBlank, Bool.or_eq_false_iff, Bool.and_eq_false_iff, decide_eq_false_iff_not, beq_eq_false_iff_ne]
  omega

/-- What starts a word is part of no number. -/
theorem isWordChar_of_isDigit {c : Char} (h : c.isDigit = true) : isWordChar c = true := by
  simp [isWordChar, Char.isAlphanum, h]

theorem not_isDigit_of_isWordStart {c : Char} (h : isWordStart c = true) : c.isDigit = false ∧ c ≠ '+' ∧ c ≠ '-' := by
  refine ⟨?_, ne_of_class h (by decide), ne_of_class h (by decide)⟩
  · simp only [isWordStart, Char.isAlpha, Char.isUpper, Char.isLower, Bool.or_eq_true, Bool.and_eq_true,
      decide_eq_true_eq, beq_iff_eq] at h
    simp only [Char.isDigit, Bool.and_eq_false_iff, decide_eq_false_iff_not]
    rcases h with (h | h) | rfl
    · exact Or.inr fun hd => absurd (UInt32.le_trans h.1 hd) (by decide)
    · exact Or.inr fun hd => absurd (UInt32.le_trans h.1 hd) (by decide)
    · decide

theorem leadingWord_append {word rest : List Char} (hw : ∀ c ∈ word, isWordChar c = true)
    (hr : rest.head?.any isWordChar = false) : leadingWord (word ++ rest) = word := by
  unfold leadingWord
  rw [List.takeWhile_append_of_pos hw]
  cases rest with
  | nil => simp
  | cons c rest => simp_all

theorem head?_of_leadingWord_ne_nil {text : List Char} (h : leadingWord text ≠ []) : text.head?.any isWordChar = true := by
  cases text with
  | nil => exact absurd rfl h
  | cons c rest =>
    cases hw : isWordChar c with
    | true => exact hw
    | false => exact absurd (by simp [leadingWord, hw]) h

theorem afterWord_append {word rest : List Char} (hw : ∀ c ∈ word, isWordChar c = true)
    (hr : rest.head?.any isWordChar = false) : afterWord (word ++ rest) = rest := by
  unfold afterWord
  rw [List.dropWhile_append_of_pos hw]
  cases rest with
  | nil => simp
  | cons c rest => simp_all

/-- A text is cut in one way behind the word that it starts with. -/
theorem word_unique {word word' rest rest' : List Char} (hw : ∀ c ∈ word, isWordChar c = true)
    (hr : rest.head?.any isWordChar = false) (hw' : ∀ c ∈ word', isWordChar c = true)
    (hr' : rest'.head?.any isWordChar = false) (he : word ++ rest = word' ++ rest') : word = word' ∧ rest = rest' := by
  have hword := congrArg leadingWord he
  have hrest := congrArg afterWord he
  rw [leadingWord_append hw hr, leadingWord_append hw' hr'] at hword
  rw [afterWord_append hw hr, afterWord_append hw' hr'] at hrest
  exact ⟨hword, hrest⟩

theorem head?_afterWord (text : List Char) : (afterWord text).head?.any isWordChar = false := by
  have h := List.head?_dropWhile_not isWordChar text
  unfold afterWord
  cases hd : (text.dropWhile isWordChar).head? with
  | none => rfl
  | some c => simpa [hd] using h

/-- A word ends before a character of no word. -/
theorem word_before_sign {c : Char} (hw : isWordChar c = false) (text rest : List Char) :
    leadingWord (text ++ c :: rest) = leadingWord text ∧ afterWord (text ++ c :: rest) = afterWord text ++ c :: rest := by
  induction text with
  | nil => simp [leadingWord, afterWord, hw]
  | cons d text ih =>
    unfold leadingWord afterWord at ih ⊢
    by_cases hd : isWordChar d = true
    · simp [hd, ih]
    · simp [hd]

theorem head?_append {text rest : List Char} (ht : text.head?.any isWordChar = false)
    (hr : rest.head?.any isWordChar = false) : (text ++ rest).head?.any isWordChar = false := by
  cases text with
  | nil => exact hr
  | cons c text => exact ht

theorem head?_before_sign {c : Char} (hw : isWordChar c = false) (text rest : List Char) :
    (text ++ c :: rest).head?.any isWordChar = text.head?.any isWordChar := by
  cases text with
  | nil => exact hw
  | cons d text => rfl

/-- A text that is one name: what starts a name, and what goes on in it. -/
def IsWord (text : List Char) : Prop := text.head?.any isWordStart = true ∧ ∀ c ∈ text, isWordChar c = true

instance (text : List Char) : Decidable (IsWord text) := inferInstanceAs (Decidable (_ ∧ _))

theorem IsWord.exists_cons {word : List Char} (h : IsWord word) :
    ∃ c more, word = c :: more ∧ isWordStart c = true ∧ ∀ d ∈ more, isWordChar d = true := by
  cases word with
  | nil => cases h.1
  | cons c more => exact ⟨c, more, rfl, h.1, fun d hd => h.2 d (List.mem_cons_of_mem _ hd)⟩

/-! ## Blanks -/

theorem skipBlank_cons {c : Char} (h : isBlank c = false) (rest : List Char) : skipBlank (c :: rest) = c :: rest := by
  simp [skipBlank, h]

theorem skipBlank_eq_self {text : List Char} (h : text.head?.any isBlank = false) : skipBlank text = text := by
  cases text with
  | nil => rfl
  | cons c rest => exact skipBlank_cons h rest

theorem skipBlank_gap {gap : List Char} (hg : ∀ c ∈ gap, isBlank c = true) (rest : List Char) :
    skipBlank (gap ++ rest) = skipBlank rest :=
  List.dropWhile_append_of_pos hg

theorem head?_skipBlank (text : List Char) : (skipBlank text).head?.any isBlank = false := by
  have h := List.head?_dropWhile_not isBlank text
  unfold skipBlank
  cases hd : (text.dropWhile isBlank).head? with
  | none => rfl
  | some c => simpa [hd] using h

/-- The first ink of a text is what stands behind its leading blanks. -/
theorem exists_of_skipBlank {c : Char} {text rest : List Char} (h : skipBlank text = c :: rest) :
    ∃ gap, text = gap ++ c :: rest ∧ ∀ d ∈ gap, isBlank d = true := by
  refine ⟨text.takeWhile isBlank, ?_, List.all_eq_true.mp List.all_takeWhile⟩
  rw [← h, takeWhile_append_skip]

theorem exists_of_firstInk {c : Char} {text : List Char} (h : firstInk text = some c) :
    ∃ gap rest, text = gap ++ c :: rest ∧ ∀ d ∈ gap, isBlank d = true := by
  obtain ⟨rest, hrest⟩ := List.head?_eq_some_iff.mp h
  obtain ⟨gap, hgap⟩ := exists_of_skipBlank hrest
  exact ⟨gap, rest, hgap⟩

theorem firstInk_ne_of_notMem {c : Char} {text : List Char} (h : c ∉ text) : firstInk text ≠ some c := by
  intro hf
  obtain ⟨gap, rest, rfl, -⟩ := exists_of_firstInk hf
  exact h (by simp)

theorem not_isWordChar_of_isBlank {c : Char} (h : isBlank c = true) : isWordChar c = false := by
  cases hw : isWordChar c with
  | false => rfl
  | true => cases h.symm.trans (not_isBlank_of_isWordChar hw)

theorem not_isWordStart_of_isBlank {c : Char} (h : isBlank c = true) : isWordStart c = false := by
  cases hw : isWordStart c with
  | false => rfl
  | true => cases (not_isWordChar_of_isBlank h).symm.trans (isWordChar_of_isWordStart hw)

theorem head?_gap {gap rest : List Char} (hg : ∀ c ∈ gap, isBlank c = true) (hr : rest.head?.any isWordChar = false) :
    (gap ++ rest).head?.any isWordChar = false := by
  cases gap with
  | nil => exact hr
  | cons c gap => exact not_isWordChar_of_isBlank (hg c (List.mem_cons_self ..))

/-- In reverse, what stands before the place behind blanks starts with one. -/
theorem any_head?_behind_gap {gap : List Char} (hn : gap ≠ []) (hg : ∀ c ∈ gap, isBlank c = true) (before : List Char) :
    (gap.reverse ++ before).head?.any isBlank = true := by
  obtain ⟨c, more, hrev⟩ := List.exists_cons_of_ne_nil (List.reverse_ne_nil_iff.mpr hn)
  rw [hrev]
  exact hg c (List.mem_reverse.mp (hrev ▸ List.mem_cons_self ..))

theorem skipBlank_before_ink {c : Char} (hc : isBlank c = false) (text rest : List Char) :
    skipBlank (text ++ c :: rest) = skipBlank text ++ c :: rest := by
  rw [skipBlank, List.dropWhile_append, ← skipBlank, ← skipBlank]
  cases hs : skipBlank text with
  | nil => exact skipBlank_cons hc rest
  | cons d more => rfl

theorem firstInk_before_ink {c d : Char} (hc : isBlank c = false) (hne : c ≠ d) (text rest : List Char) :
    firstInk (text ++ c :: rest) = some d ↔ firstInk text = some d := by
  rw [firstInk, skipBlank_before_ink hc, firstInk]
  cases skipBlank text with
  | nil => exact iff_of_false (fun he => hne (Option.some.inj he)) nofun
  | cons e more => rfl

theorem firstInk_gap {gap : List Char} {c : Char} (hg : ∀ d ∈ gap, isBlank d = true) (hc : isBlank c = false)
    (rest : List Char) : firstInk (gap ++ c :: rest) = some c := by
  rw [firstInk, skipBlank_gap hg, skipBlank_cons hc]
  rfl

/-! ## Trimming -/

theorem trim_eq_self {text : List Char} (hh : text.head?.any isBlank = false) (hl : text.getLast?.any isBlank = false) :
    trim text = text := by
  have hlast : text.reverse.head?.any isBlank = false := by rwa [List.head?_reverse]
  rw [trim, trimEnd, skipBlank_eq_self hh, skipBlank_eq_self hlast, List.reverse_reverse]

/-- No ink is trimmed, nor what stands before it. -/
theorem trimEnd_append {text rest : List Char} {c : Char} (hl : text.getLast? = some c) (hc : isBlank c = false) :
    trimEnd (text ++ rest) = text ++ trimEnd rest := by
  obtain ⟨front, rfl⟩ := List.getLast?_eq_some_iff.mp hl
  have hself : skipBlank (front ++ [c]).reverse = (front ++ [c]).reverse :=
    skipBlank_eq_self (by rw [List.head?_reverse, hl]; exact hc)
  rw [trimEnd, trimEnd, List.reverse_append, skipBlank, List.dropWhile_append, ← skipBlank, ← skipBlank, hself]
  split
  · rename_i hn
    rw [List.isEmpty_iff.mp hn]
    simp
  · simp

theorem trimEnd_gap {gap : List Char} (hg : ∀ c ∈ gap, isBlank c = true) (rest : List Char) :
    trimEnd (gap ++ rest) = if trimEnd rest = [] then [] else gap ++ trimEnd rest := by
  have hnone : skipBlank gap.reverse = [] := by
    have hskip := skipBlank_gap (fun c hc => hg c (List.mem_reverse.mp hc)) []
    rwa [List.append_nil] at hskip
  rw [trimEnd, trimEnd, List.reverse_append, skipBlank, List.dropWhile_append, ← skipBlank, ← skipBlank, hnone]
  simp only [List.reverse_eq_nil_iff, List.isEmpty_iff]
  split
  · rfl
  · simp

theorem exists_trim (text : List Char) : ∃ lead tail, text = lead ++ (trim text ++ tail) ∧
    (∀ c ∈ lead, isBlank c = true) ∧ ∀ c ∈ tail, isBlank c = true := by
  have hlead := takeWhile_append_skip text
  have htail := takeWhile_append_skip (skipBlank text).reverse
  refine ⟨text.takeWhile isBlank, ((skipBlank text).reverse.takeWhile isBlank).reverse, ?_, ?_, ?_⟩
  · have hskip : trim text ++ ((skipBlank text).reverse.takeWhile isBlank).reverse = skipBlank text := by
      rw [trim, trimEnd, ← List.reverse_append, htail, List.reverse_reverse]
    rw [hskip, hlead]
  · exact List.all_eq_true.mp List.all_takeWhile
  · intro c hc
    exact List.all_eq_true.mp List.all_takeWhile c (List.mem_reverse.mp hc)

/-- Around ink that stands in a text, what is trimmed stands before it and behind it. -/
theorem exists_trim_around {c : Char} (hc : isBlank c = false) (front rest : List Char) :
    ∃ lead front' behind tail, front = lead ++ front' ∧ c :: rest = behind ++ tail ∧
      trim (front ++ c :: rest) = front' ++ behind ∧ (∀ d ∈ lead, isBlank d = true) ∧ ∀ d ∈ tail, isBlank d = true := by
  obtain ⟨lead, tail, htext, hlead, htail⟩ := exists_trim (front ++ c :: rest)
  generalize trim (front ++ c :: rest) = ink at htext ⊢
  rcases split_beside htext with ⟨front', rfl, hrest⟩ | ⟨more, rfl, -⟩
  · rcases split_beside hrest.symm with ⟨more, rfl, rfl⟩ | ⟨behind, rfl, rfl⟩
    · cases hc.symm.trans (htail c (by simp))
    · exact ⟨lead, front', c :: behind, tail, rfl, rfl, rfl, hlead, htail⟩
  · cases hc.symm.trans (hlead c (by simp))

/-- Ink between blanks is what is left when they are trimmed. -/
theorem trim_gaps {lead text tail : List Char} (hlead : ∀ c ∈ lead, isBlank c = true)
    (htail : ∀ c ∈ tail, isBlank c = true) (h : ∀ c ∈ text, isBlank c = false) : trim (lead ++ (text ++ tail)) = text := by
  have hhead : skipBlank (lead ++ (text ++ tail)) = skipBlank (text ++ tail) := skipBlank_gap hlead _
  cases hl : text.getLast? with
  | none =>
    obtain rfl := List.getLast?_eq_none_iff.mp hl
    have hgap := skipBlank_gap htail []
    rw [List.append_nil] at hgap
    rw [trim, hhead, List.nil_append, hgap]
    rfl
  | some c =>
    have hgap := trimEnd_gap htail []
    rw [List.append_nil] at hgap
    have hstart : (text ++ tail).head?.any isBlank = false := by
      cases text with
      | nil => cases hl
      | cons d text => exact h d (List.mem_cons_self ..)
    rw [trim, hhead, skipBlank_eq_self hstart, trimEnd_append hl (h c (List.mem_of_getLast? hl)), hgap]
    exact List.append_nil _

theorem trim_ink {text : List Char} (h : ∀ c ∈ text, isBlank c = false) : trim text = text := by
  have hnone : ∀ c ∈ ([] : List Char), isBlank c = true := by simp
  simpa using trim_gaps hnone hnone h

theorem head?_trim {c : Char} {text : List Char} (h : firstInk text = some c) : (trim text).head? = some c := by
  obtain ⟨rest, hrest⟩ := List.head?_eq_some_iff.mp h
  have hc : isBlank c = false := by
    have hstart := head?_skipBlank text
    rw [hrest] at hstart
    exact hstart
  rw [trim, hrest, ← List.singleton_append, trimEnd_append rfl hc]
  rfl

/-! ## Reading numbers -/

theorem isDigit_of_mem_numeral {n : Nat} {c : Char} (h : c ∈ numeral n) : c.isDigit = true :=
  Nat.isDigit_of_mem_toDigits (by omega) (by omega) h

theorem isDigit_of_mem_decimal {n : Int} {c : Char} (h : c ∈ decimal n) : c.isDigit = true ∨ c = '-' := by
  unfold decimal at h
  split at h
  · rcases List.mem_cons.mp h with rfl | h
    · exact Or.inr rfl
    · exact Or.inl (isDigit_of_mem_numeral h)
  · exact Or.inl (isDigit_of_mem_numeral h)

theorem numeral_ne_nil (n : Nat) : numeral n ≠ [] := Nat.toDigits_ne_nil

theorem numeral_injective {n m : Nat} (h : numeral n = numeral m) : n = m := by
  have hread := congrArg (Nat.ofDigitChars 10 · 0) h
  simpa [numeral] using hread

theorem isDigit_of_magnitude {limit n m : Nat} {beyond : DigitFault} {text : List Char}
    (h : magnitude limit beyond n text = .ok m) : ∀ c ∈ text, c.isDigit = true := by
  induction text generalizing n with
  | nil => intro c hc; cases hc
  | cons d rest ih =>
    rw [magnitude] at h
    split at h
    · rename_i hd
      simp only at h
      split at h
      · cases h
      · intro c hc
        rcases List.mem_cons.mp hc with rfl | hc
        · exact hd
        · exact ih h c hc
    · cases h

theorem isDigit_of_readInt64 {text : List Char} {n : Int} (h : readInt64 text = .ok n) :
    ∀ c ∈ text, c.isDigit = true ∨ c = '+' ∨ c = '-' := by
  have hmap : ∀ {limit : Nat} {beyond : DigitFault} {rest : List Char} {f : Nat → Int},
      (magnitude limit beyond 0 rest).map f = .ok n → ∀ c ∈ rest, c.isDigit = true := by
    intro limit beyond rest f hm
    cases hg : magnitude limit beyond 0 rest with
    | error fault => rw [hg] at hm; cases hm
    | ok m => exact isDigit_of_magnitude hg
  unfold readInt64 readSigned at h
  split at h
  · cases h
  · cases h
  · cases h
  · intro c hc
    rcases List.mem_cons.mp hc with rfl | hc
    · exact Or.inr (Or.inl rfl)
    · exact Or.inl (hmap h c hc)
  · intro c hc
    rcases List.mem_cons.mp hc with rfl | hc
    · exact Or.inr (Or.inr rfl)
    · exact Or.inl (hmap h c hc)
  · intro c hc
    exact Or.inl (hmap h c hc)

theorem readInt64_numeral {n : Nat} (h : n ≤ 9223372036854775807) : readInt64 (numeral n) = .ok n := by
  have hm := magnitude_numeral 9223372036854775807 n .tooLarge h
  cases hn : numeral n with
  | nil => exact absurd hn (numeral_ne_nil n)
  | cons c rest =>
    have hd : c.isDigit = true := isDigit_of_mem_numeral (n := n) (by simp [hn])
    have hp : c ≠ '+' := ne_of_class hd (by decide)
    have hs : c ≠ '-' := ne_of_class hd (by decide)
    unfold readInt64 readSigned
    split <;> simp_all [Except.map]

/-! ## Which texts are integers -/

/-- A text of decimal digits that writes a number. -/
def IsNumeral (text : List Char) (n : Nat) : Prop :=
  text ≠ [] ∧ (∀ c ∈ text, c.isDigit = true) ∧ Nat.ofDigitChars 10 text 0 = n

/-- A text of decimal digits, with one sign before them or none, that writes an integer. -/
def IsInteger (text : List Char) (n : Int) : Prop :=
  ∃ digits m, IsNumeral digits m ∧ ((text = digits ∨ text = '+' :: digits) ∧ n = m ∨ text = '-' :: digits ∧ n = -m)

theorem le_ofDigitChars (digits : List Char) (n : Nat) : n ≤ Nat.ofDigitChars 10 digits n := by
  induction digits generalizing n with
  | nil => exact Nat.le_refl _
  | cons c digits ih =>
    rw [Nat.ofDigitChars_cons]
    exact Nat.le_trans (by omega) (ih _)

/-- What digits are read as, from a number within the limit on. -/
theorem magnitude_eq_ok_iff {limit n m : Nat} {beyond : DigitFault} {text : List Char} (h : n ≤ limit) :
    magnitude limit beyond n text = .ok m ↔
      (∀ c ∈ text, c.isDigit = true) ∧ Nat.ofDigitChars 10 text n = m ∧ m ≤ limit := by
  induction text generalizing n with
  | nil =>
    simp only [magnitude, Except.ok.injEq, List.not_mem_nil, false_implies, implies_true, true_and]
    exact ⟨fun he => ⟨he, he ▸ h⟩, And.left⟩
  | cons c text ih =>
    rw [magnitude, Nat.ofDigitChars_cons, List.forall_mem_cons]
    by_cases hc : c.isDigit = true
    · rw [if_pos hc]
      have hle := le_ofDigitChars text (10 * n + (c.toNat - '0'.toNat))
      by_cases hbeyond : limit < 10 * n + (c.toNat - '0'.toNat)
      · rw [if_pos hbeyond]
        refine iff_of_false (fun he => ?_) ?_
        · cases he
        · rintro ⟨-, rfl, hlimit⟩
          omega
      · rw [if_neg hbeyond, ih (by omega), and_iff_right hc]
    · rw [if_neg hc]
      refine iff_of_false (fun he => ?_) fun hall => hc hall.1.1
      cases he

theorem magnitude_map_eq_ok_iff {limit : Nat} {beyond : DigitFault} {text : List Char} {f : Nat → Int} {n : Int}
    (hn : text ≠ []) :
    (magnitude limit beyond 0 text).map f = .ok n ↔ ∃ m, IsNumeral text m ∧ m ≤ limit ∧ f m = n := by
  have hread : ∀ m, magnitude limit beyond 0 text = .ok m ↔ IsNumeral text m ∧ m ≤ limit := by
    intro m
    rw [magnitude_eq_ok_iff (Nat.zero_le _)]
    simp only [IsNumeral, hn, ne_eq, not_false_eq_true, true_and, and_assoc]
  simp only [← and_assoc, ← hread]
  cases magnitude limit beyond 0 text <;> simp [Except.map]

theorem IsNumeral.head?_ne {text : List Char} {m : Nat} (h : IsNumeral text m) {c : Char} (hc : c.isDigit = false)
    (rest : List Char) : text ≠ c :: rest := by
  rintro rfl
  cases hc.symm.trans (h.2.1 c (List.mem_cons_self ..))

theorem isNumeral_numeral (n : Nat) : IsNumeral (numeral n) n :=
  ⟨numeral_ne_nil n, fun _ => isDigit_of_mem_numeral, Nat.ofDigitChars_toDigits (by omega) (by omega)⟩

theorem isInteger_plus {rest : List Char} {n : Int} : IsInteger ('+' :: rest) n ↔ ∃ m, IsNumeral rest m ∧ n = m := by
  constructor
  · rintro ⟨digits, m, hd, ⟨he | he, hn⟩ | ⟨he, -⟩⟩
    · exact absurd he.symm (hd.head?_ne rfl rest)
    · obtain ⟨-, rfl⟩ := List.cons.inj he
      exact ⟨m, hd, hn⟩
    · cases he
  · rintro ⟨m, hd, hn⟩
    exact ⟨rest, m, hd, Or.inl ⟨Or.inr rfl, hn⟩⟩

theorem isInteger_minus {rest : List Char} {n : Int} : IsInteger ('-' :: rest) n ↔ ∃ m, IsNumeral rest m ∧ n = -m := by
  constructor
  · rintro ⟨digits, m, hd, ⟨he | he, -⟩ | ⟨he, hn⟩⟩
    · exact absurd he.symm (hd.head?_ne rfl rest)
    · cases he
    · obtain ⟨-, rfl⟩ := List.cons.inj he
      exact ⟨m, hd, hn⟩
  · rintro ⟨m, hd, hn⟩
    exact ⟨rest, m, hd, Or.inr ⟨rfl, hn⟩⟩

theorem isInteger_unsigned {text : List Char} {n : Int} (hp : ∀ rest, text ≠ '+' :: rest)
    (hm : ∀ rest, text ≠ '-' :: rest) : IsInteger text n ↔ ∃ m, IsNumeral text m ∧ n = m := by
  constructor
  · rintro ⟨digits, m, hd, ⟨rfl | he, hn⟩ | ⟨he, -⟩⟩
    · exact ⟨m, hd, hn⟩
    · exact absurd he (hp _)
    · exact absurd he (hm _)
  · rintro ⟨m, hd, hn⟩
    exact ⟨text, m, hd, Or.inl ⟨Or.inl rfl, hn⟩⟩

theorem IsInteger.unique {text : List Char} {n m : Int} (h : IsInteger text n) (h' : IsInteger text m) : n = m := by
  have hnumeral : ∀ {digits : List Char} {a b : Nat}, IsNumeral digits a → IsNumeral digits b → a = b :=
    fun ha hb => ha.2.2.symm.trans hb.2.2
  by_cases hp : ∃ rest, text = '+' :: rest
  · obtain ⟨rest, rfl⟩ := hp
    obtain ⟨a, ha, rfl⟩ := isInteger_plus.mp h
    obtain ⟨b, hb, rfl⟩ := isInteger_plus.mp h'
    rw [hnumeral ha hb]
  by_cases hm : ∃ rest, text = '-' :: rest
  · obtain ⟨rest, rfl⟩ := hm
    obtain ⟨a, ha, rfl⟩ := isInteger_minus.mp h
    obtain ⟨b, hb, rfl⟩ := isInteger_minus.mp h'
    rw [hnumeral ha hb]
  · obtain ⟨a, ha, rfl⟩ := (isInteger_unsigned (not_exists.mp hp) (not_exists.mp hm)).mp h
    obtain ⟨b, hb, rfl⟩ := (isInteger_unsigned (not_exists.mp hp) (not_exists.mp hm)).mp h'
    rw [hnumeral ha hb]

theorem IsInteger.mem {text : List Char} {n : Int} (h : IsInteger text n) {c : Char} (hc : c ∈ text) :
    c.isDigit = true ∨ c = '+' ∨ c = '-' := by
  obtain ⟨digits, m, hd, ⟨rfl | rfl, -⟩ | ⟨rfl, -⟩⟩ := h
  · exact Or.inl (hd.2.1 c hc)
  · exact (List.mem_cons.mp hc).elim (fun he => Or.inr (Or.inl he)) fun hm => Or.inl (hd.2.1 c hm)
  · exact (List.mem_cons.mp hc).elim (fun he => Or.inr (Or.inr he)) fun hm => Or.inl (hd.2.1 c hm)

/-- What is read as an integer of 64 bits is one that decimal digits and at most one sign write. -/
theorem readInt64_eq_ok_iff {text : List Char} {n : Int} : readInt64 text = .ok n ↔
    IsInteger text n ∧ -9223372036854775808 ≤ n ∧ n ≤ 9223372036854775807 := by
  have hup : ∀ digits : List Char, digits ≠ [] → ((magnitude 9223372036854775807 .tooLarge 0 digits).map Int.ofNat = .ok n ↔
      (∃ m, IsNumeral digits m ∧ n = m) ∧ -9223372036854775808 ≤ n ∧ n ≤ 9223372036854775807) := by
    intro digits hn
    rw [magnitude_map_eq_ok_iff hn]
    constructor
    · rintro ⟨m, hd, hle, rfl⟩
      exact ⟨⟨m, hd, rfl⟩, by simp only [Int.ofNat_eq_natCast]; omega⟩
    · rintro ⟨⟨m, hd, rfl⟩, -, hle⟩
      exact ⟨m, hd, by omega, rfl⟩
  have hdown : ∀ digits : List Char, digits ≠ [] →
      ((magnitude 9223372036854775808 .tooSmall 0 digits).map (fun m => -Int.ofNat m) = .ok n ↔
        (∃ m, IsNumeral digits m ∧ n = -m) ∧ -9223372036854775808 ≤ n ∧ n ≤ 9223372036854775807) := by
    intro digits hn
    rw [magnitude_map_eq_ok_iff hn]
    constructor
    · rintro ⟨m, hd, hle, rfl⟩
      exact ⟨⟨m, hd, rfl⟩, by simp only [Int.ofNat_eq_natCast]; omega⟩
    · rintro ⟨⟨m, hd, rfl⟩, hle, -⟩
      exact ⟨m, hd, by omega, rfl⟩
  have hempty : ¬∃ m, IsNumeral [] m := fun ⟨m, hd⟩ => hd.1 rfl
  unfold readInt64 readSigned
  split
  · rw [isInteger_unsigned (by simp) (by simp)]
    exact iff_of_false nofun fun ⟨⟨m, hd, _⟩, _⟩ => hempty ⟨m, hd⟩
  · rw [isInteger_plus]
    exact iff_of_false nofun fun ⟨⟨m, hd, _⟩, _⟩ => hempty ⟨m, hd⟩
  · rw [isInteger_minus]
    exact iff_of_false nofun fun ⟨⟨m, hd, _⟩, _⟩ => hempty ⟨m, hd⟩
  · rename_i rest hne
    rw [isInteger_plus]
    exact hup rest fun he => hne (he ▸ rfl)
  · rename_i rest hne
    rw [isInteger_minus]
    exact hdown rest fun he => hne (he ▸ rfl)
  · rename_i hn _ _ hp hm
    rw [isInteger_unsigned (fun rest he => hp rest he) fun rest he => hm rest he]
    exact hup text hn

/-! ## Digits on a number of places -/

section Padded

variable {width n : Nat} {c : Char} {digits : List Char}

theorem length_digitsPadded (hwidth : 0 < width) (h : n < 10 ^ width) : (digitsPadded 10 width n).length = width := by
  have hle : (Nat.toDigits 10 n).length ≤ width := (Nat.length_toDigits_le_iff (by decide) hwidth).mpr h
  rw [digitsPadded, List.length_append, List.length_replicate, Nat.sub_add_cancel hle]

theorem le_length_digitsPadded (width n : Nat) : width ≤ (digitsPadded 10 width n).length := by
  rw [digitsPadded, List.length_append, List.length_replicate]
  omega

theorem isDigit_of_mem_digitsPadded (h : c ∈ digitsPadded 10 width n) : c.isDigit = true := by
  rcases List.mem_append.mp h with hzero | hdigit
  · rw [List.eq_of_mem_replicate hzero]
    decide
  · exact Nat.isDigit_of_mem_toDigits (by decide) (by decide) hdigit

theorem ofDigitChars_digitsPadded (width n : Nat) : Nat.ofDigitChars 10 (digitsPadded 10 width n) 0 = n := by
  rw [digitsPadded, Nat.ofDigitChars_append, Nat.ofDigitChars_replicate_zero, Nat.mul_zero, Nat.ofDigitChars_ten_toDigits]

theorem le_nine_of_isDigit (h : c.isDigit = true) : c.toNat - '0'.toNat ≤ 9 := by
  simp only [Char.isDigit, Bool.and_eq_true, decide_eq_true_eq, UInt32.le_iff_toNat_le] at h
  have hnine : c.toNat ≤ 57 := h.2
  have hzero : '0'.toNat = 48 := rfl
  omega

theorem ofDigitChars_lt (h : ∀ c ∈ digits, c.isDigit = true) (n : Nat) :
    Nat.ofDigitChars 10 digits n < (n + 1) * 10 ^ digits.length := by
  induction digits generalizing n with
  | nil => simp
  | cons c digits ih =>
    obtain ⟨hc, hdigits⟩ := List.forall_mem_cons.mp h
    have hnine := le_nine_of_isDigit hc
    rw [Nat.ofDigitChars_cons, List.length_cons, Nat.pow_succ']
    calc Nat.ofDigitChars 10 digits (10 * n + (c.toNat - '0'.toNat))
        < (10 * n + (c.toNat - '0'.toNat) + 1) * 10 ^ digits.length := ih hdigits _
      _ ≤ ((n + 1) * 10) * 10 ^ digits.length := Nat.mul_le_mul_right _ (by omega)
      _ = (n + 1) * (10 * 10 ^ digits.length) := Nat.mul_assoc ..

end Padded

end Rulebook.Text
