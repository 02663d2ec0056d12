/-
  Rulebook.Proofs.Feel.Behind — which brackets of a rule open an index.

  The rewriting looks at what it has written to tell an index from a list. What stands in
  the rule says the same (`OpensIndex`): a bracket opens an index behind a closing bracket
  and behind a word, unless the word is one that a list may follow or an operator that is
  written as a sign. Only the brackets behind the clock are not written, so a word right
  behind them is written as the rest of a longer one, and takes an index.

  A call of the clock is read in one go, so no place between two parts cuts it (`Uncut`),
  which is carried over each kind of part.
  - `opensIndex_append_word`, `opensIndex_append_sign`, `opensIndex_append_blank`: what
    ends a text decides.
  - `opensIndex_behind`: what stands before an opening bracket does not count behind it.
-/

import Rulebook.Proofs.Feel.Brackets

namespace Rulebook.Feel

open Rulebook.Text (isBlank isWordStart isWordChar skipBlank firstInk leadingWord afterWord)

/-! ## In the rule -/

/-- A call of the clock: its name, and brackets with nothing but blanks before and between them. -/
def IsClockCall (call : List Char) : Prop :=
  ∃ gap inner, call = "now".toList ++ (gap ++ '(' :: (inner ++ [')'])) ∧ (∀ c ∈ gap, isBlank c = true) ∧
    ∀ c ∈ inner, isBlank c = true

/-- A text ends with a call of the clock that goes on from nothing. -/
def EndsInClock (text : List Char) : Prop :=
  ∃ lead call, text = lead ++ call ∧ IsClockCall call ∧ continues lead.getLast? = false

/-- A word behind a text takes an index: it is no operator, unless it is a member, and no word that a list may
    follow, unless it stands right behind the clock. -/
def TakesIndex (lead word : List Char) : Prop :=
  (word = "and".toList ∨ word = "or".toList → lead.getLast? = some '.') ∧ (word ∈ listWords → EndsInClock lead)

def OpensIndex (text : List Char) : Prop :=
  match skipBlank text.reverse with
  | [] => False
  | c :: rest =>
    (c = ')' ∨ c = ']') ∨
      isWordChar c = true ∧ TakesIndex (afterWord (c :: rest)).reverse (leadingWord (c :: rest)).reverse

variable {text lead word call front read rest : List Char} {c : Char}

theorem not_opensIndex_nil : ¬OpensIndex [] := id

theorem opensIndex_append_blank (hb : isBlank c = true) : OpensIndex (text ++ [c]) ↔ OpensIndex text := by
  have hskip : skipBlank (text ++ [c]).reverse = skipBlank text.reverse := by simp [skipBlank, hb]
  unfold OpensIndex
  rw [hskip]

/-- Behind ink that ends no word a bracket opens an index if the ink is a closing bracket. -/
theorem opensIndex_append_sign (hb : isBlank c = false) (hw : isWordChar c = false) :
    OpensIndex (text ++ [c]) ↔ c = ')' ∨ c = ']' := by
  have hskip : skipBlank (text ++ [c]).reverse = c :: text.reverse := by simp [skipBlank, hb]
  unfold OpensIndex
  rw [hskip]
  simp [hw]

theorem opensIndex_append_word (hn : word ≠ []) (hw : ∀ d ∈ word, isWordChar d = true)
    (hl : lead.getLast?.any isWordChar = false) : OpensIndex (lead ++ word) ↔ TakesIndex lead word := by
  have hhead : lead.reverse.head?.any isWordChar = false := by rwa [List.head?_reverse]
  have hrev : ∀ d ∈ word.reverse, isWordChar d = true := fun d hd => hw d (List.mem_reverse.mp hd)
  have hleading := Text.leadingWord_append hrev hhead
  have hafter := Text.afterWord_append hrev hhead
  cases hr : word.reverse with
  | nil => exact absurd (List.reverse_eq_nil_iff.mp hr) hn
  | cons d more =>
    have hd : isWordChar d = true := hrev d (by simp [hr])
    have hskip : skipBlank (lead ++ word).reverse = d :: (more ++ lead.reverse) := by
      rw [List.reverse_append, hr]
      exact Text.skipBlank_cons (Text.not_isBlank_of_isWordChar hd) _
    have hclose : ¬(d = ')' ∨ d = ']') := by
      rintro (rfl | rfl)
      · cases hd
      · cases hd
    rw [hr, List.cons_append] at hleading hafter
    unfold OpensIndex
    rw [hskip]
    simp only [hleading, hafter, hd, hclose, false_or, true_and, List.reverse_reverse, ← hr]

/-! ## The clock -/

theorem IsClockCall.notMem (h : IsClockCall call) (hb : isBlank c = false)
    (hc : c ∉ ['n', 'o', 'w', '(', ')']) : c ∉ call := by
  obtain ⟨gap, inner, rfl, hgap, hinner⟩ := h
  intro hm
  simp only [List.mem_append, List.mem_cons, List.not_mem_nil, or_false, not_or] at hm hc
  rcases hm with hm | hm | hm | hm | hm
  · have : c = 'n' ∨ c = 'o' ∨ c = 'w' := by simpa using hm
    rcases this with h | h | h
    · exact hc.1 h
    · exact hc.2.1 h
    · exact hc.2.2.1 h
  · rw [hgap c hm] at hb
    cases hb
  · exact hc.2.2.2.1 hm
  · rw [hinner c hm] at hb
    cases hb
  · exact hc.2.2.2.2 hm

theorem IsClockCall.unquoted (h : IsClockCall call) : Unquoted call := by
  rintro c hc rfl
  exact h.notMem (by decide) (by decide) hc

theorem IsClockCall.getLast? (h : IsClockCall call) : call.getLast? = some ')' := by
  obtain ⟨gap, inner, rfl, -⟩ := h
  simp [List.getLast?_append, List.getLast?_cons]

theorem IsClockCall.head? (h : IsClockCall call) : call.head? = some 'n' := by
  obtain ⟨gap, inner, rfl, -⟩ := h
  rfl

theorem IsClockCall.notMem_tail (h : IsClockCall (c :: rest)) : 'n' ∉ rest := by
  obtain ⟨gap, inner, hcall, hgap, hinner⟩ := h
  obtain ⟨-, rfl⟩ := List.cons.inj hcall
  intro hm
  have hm : 'n' ∈ ['o', 'w'] ++ (gap ++ '(' :: (inner ++ [')'])) := hm
  simp only [List.mem_append, List.mem_cons, List.not_mem_nil, or_false] at hm
  rcases hm with (hm | hm) | hm | hm | hm | hm
  · cases hm
  · cases hm
  · cases hgap _ hm
  · cases hm
  · cases hinner _ hm
  · cases hm

theorem EndsInClock.getLast? (h : EndsInClock text) : text.getLast? = some ')' := by
  obtain ⟨lead, call, rfl, hcall, -⟩ := h
  simp [List.getLast?_append, hcall.getLast?]

/-! ## Behind an opening bracket -/

/-- What stands before an opening bracket does not count behind it. -/
theorem endsInClock_behind : EndsInClock (front ++ '[' :: lead) ↔ EndsInClock lead := by
  constructor
  · rintro ⟨lead', call, he, hcall, hc⟩
    rcases Text.split_beside he with ⟨left, -, rfl⟩ | ⟨more, rfl, rfl⟩
    · exact absurd (by simp) (hcall.notMem (c := '[') (by decide) (by decide))
    · refine ⟨more, call, rfl, hcall, ?_⟩
      cases more with
      | nil => rfl
      | cons e more => simpa [List.getLast?_append, List.getLast?_cons] using hc
  · rintro ⟨lead', call, rfl, hcall, hc⟩
    refine ⟨front ++ '[' :: lead', call, by simp, hcall, ?_⟩
    cases lead' with
    | nil => simp [continues]; decide
    | cons e more => simpa [List.getLast?_append, List.getLast?_cons] using hc

theorem takesIndex_behind : TakesIndex (front ++ '[' :: lead) word ↔ TakesIndex lead word := by
  have hlast : (front ++ '[' :: lead).getLast? = some '.' ↔ lead.getLast? = some '.' := by
    cases lead with
    | nil => simp
    | cons e more => simp [List.getLast?_append, List.getLast?_cons]
  unfold TakesIndex
  rw [hlast, endsInClock_behind]

theorem opensIndex_behind : OpensIndex (front ++ '[' :: text) ↔ OpensIndex text := by
  have hrev : (front ++ '[' :: text).reverse = text.reverse ++ '[' :: front.reverse := by simp
  unfold OpensIndex
  rw [hrev, skipBlank, List.dropWhile_append, ← skipBlank]
  cases hs : skipBlank text.reverse with
  | nil =>
    have hb : isBlank '[' = false := by decide
    have hw : isWordChar '[' = false := by decide
    simp [hb, hw]
  | cons d more =>
    obtain ⟨hleading, hafter⟩ := Text.word_before_sign (c := '[') (by decide) (d :: more) front.reverse
    have hlead : (afterWord (d :: more) ++ '[' :: front.reverse).reverse = front ++ '[' :: (afterWord (d :: more)).reverse := by
      simp
    simp only [List.isEmpty_cons, Bool.false_eq_true, if_false, List.cons_append] at hleading hafter ⊢
    rw [hleading, hafter, hlead, takesIndex_behind]

/-! ## Calls that are not cut -/

/-- No call of the clock goes on from the front of a text into the rest of it. -/
def Uncut (front rest : List Char) : Prop :=
  ∀ lead part call tail, front = lead ++ part → part ≠ [] → part ++ rest = call ++ tail → IsClockCall call →
    continues lead.getLast? = false → call.length ≤ part.length

theorem Uncut.nil (rest : List Char) : Uncut [] rest := by
  intro lead part call tail hf hn
  exact absurd (List.append_eq_nil_iff.mp hf.symm).2 hn

/-- What is read next cuts no call if no call that begins in it goes on behind it. -/
theorem Uncut.append (h : Uncut front (read ++ rest))
    (hr : ∀ lead part call tail, read = lead ++ part → part ≠ [] → part ++ rest = call ++ tail → IsClockCall call →
      continues (front ++ lead).getLast? = false → call.length ≤ part.length) : Uncut (front ++ read) rest := by
  intro lead part call tail hf hn hp hcall hc
  rcases List.append_eq_append_iff.mp hf with ⟨more, rfl, hread⟩ | ⟨more, rfl, rfl⟩
  · exact hr more part call tail hread hn hp hcall hc
  · by_cases hm : more = []
    · subst hm
      exact hr [] read call tail rfl hn hp hcall (by simpa using hc)
    · have hle := h lead more call tail rfl hm (by rw [← List.append_assoc, hp]) hcall hc
      rw [List.length_append]
      omega

theorem Uncut.sign (h : Uncut front (read ++ c :: rest)) (hb : isBlank c = false) (hc : c ∉ ['n', 'o', 'w', '(', ')']) :
    Uncut (front ++ (read ++ [c])) rest := by
  have h' : Uncut front (read ++ [c] ++ rest) := by simpa using h
  refine h'.append fun lead part call tail hread hn hp hcall _ => ?_
  rcases List.append_eq_append_iff.mp hp with ⟨more, rfl, -⟩ | ⟨more, rfl, -⟩
  · have hlast : (lead ++ part).getLast? = some c := by rw [← hread]; simp
    have hm : c ∈ part := by
      rw [List.getLast?_append] at hlast
      cases hl : part.getLast? with
      | none => exact absurd (List.getLast?_eq_none_iff.mp hl) hn
      | some d =>
        obtain rfl : d = c := by simpa [hl] using hlast
        exact List.mem_of_getLast? hl
    exact absurd (List.mem_append_left _ hm) (hcall.notMem hb hc)
  · simp

theorem Uncut.char (h : Uncut front (c :: rest)) (hw : isWordChar c = false) : Uncut (front ++ [c]) rest := by
  have h' : Uncut front ([c] ++ rest) := h
  refine h'.append fun lead part call tail hread hn hp hcall _ => ?_
  obtain ⟨gap, inner, rfl, -⟩ := hcall
  cases lead with
  | nil =>
    obtain rfl : [c] = part := hread
    obtain ⟨rfl, -⟩ := List.cons.inj hp
    cases hw
  | cons d lead =>
    obtain ⟨-, hnil⟩ := List.cons.inj hread
    exact absurd (List.append_eq_nil_iff.mp hnil.symm).2 hn

theorem emptyCall?_blank {gap inner : List Char} (hg : ∀ d ∈ gap, isBlank d = true) (hi : ∀ d ∈ inner, isBlank d = true)
    (rest : List Char) : emptyCall? (gap ++ '(' :: (inner ++ ')' :: rest)) = some rest := by
  have hopen : skipBlank (gap ++ '(' :: (inner ++ ')' :: rest)) = '(' :: (inner ++ ')' :: rest) := by
    rw [skipBlank, List.dropWhile_append_of_pos hg]
    exact Text.skipBlank_cons (by decide) _
  have hclose : skipBlank (inner ++ ')' :: rest) = ')' :: rest := by
    rw [skipBlank, List.dropWhile_append_of_pos hi]
    exact Text.skipBlank_cons (by decide) _
  simp [emptyCall?, hopen, hclose]

theorem isClockCall_of_emptyCall (h : emptyCall? (call ++ rest) = some rest) : IsClockCall ("now".toList ++ call) := by
  obtain ⟨gap, inner, hcall, hgap, hinner⟩ := exists_of_emptyCall h
  refine ⟨gap, inner, congrArg ("now".toList ++ ·) (List.append_cancel_right (hcall.trans ?_)), hgap, hinner⟩
  simp

theorem IsClockCall.exists_append (h : IsClockCall call) (rest : List Char) :
    ∃ more, call ++ rest = "now".toList ++ more ∧ more.head?.any isWordChar = false ∧ emptyCall? more = some rest := by
  obtain ⟨gap, inner, rfl, hgap, hinner⟩ := h
  refine ⟨gap ++ '(' :: (inner ++ ')' :: rest), by simp, ?_, emptyCall?_blank hgap hinner rest⟩
  cases gap with
  | nil => rfl
  | cons d gap =>
    have hd : isBlank d = true := hgap d (List.mem_cons_self ..)
    cases hw : isWordChar d with
    | false => simp [hw]
    | true =>
      rw [Text.not_isBlank_of_isWordChar hw] at hd
      cases hd

theorem IsClockCall.eq_now {left : List Char} (h : IsClockCall call) (hw : ∀ d ∈ word, isWordChar d = true)
    (hr : rest.head?.any isWordChar = false) (he : word ++ rest = call ++ left) :
    word = "now".toList ∧ emptyCall? rest = some left := by
  obtain ⟨more, hmore, hhead, hempty⟩ := h.exists_append left
  obtain ⟨rfl, rfl⟩ := Text.word_unique hw hr (by decide) hhead (he.trans hmore)
  exact ⟨rfl, hempty⟩

/-- A word cuts no call unless it is the clock and its brackets follow. -/
theorem Uncut.whole (h : Uncut front (word ++ rest)) (hw : ∀ d ∈ word, isWordChar d = true)
    (hr : rest.head?.any isWordChar = false)
    (hnow : word = "now".toList → continues front.getLast? = false → emptyCall? rest = none) :
    Uncut (front ++ word) rest := by
  refine h.append fun lead part call tail hread hn hp hcall hc => ?_
  cases hl : lead.getLast? with
  | some d =>
    have hd : isWordChar d = true := hw d (by rw [hread]; exact List.mem_append_left _ (List.mem_of_getLast? hl))
    simp [continues, List.getLast?_append, hl, hd] at hc
  | none =>
    obtain rfl := List.getLast?_eq_none_iff.mp hl
    obtain rfl : word = part := hread
    obtain ⟨hword, hempty⟩ := hcall.eq_now hw hr hp
    rw [List.append_nil] at hc
    cases (hnow hword hc).symm.trans hempty

/-- A call that is read to its end is not cut. -/
theorem Uncut.clock (h : Uncut front (call ++ rest)) (hcall : IsClockCall call) : Uncut (front ++ call) rest := by
  refine h.append fun lead part call' tail hread hn hp hcall' _ => ?_
  cases lead with
  | nil =>
    obtain rfl : call = part := hread
    obtain ⟨more, hmore, -, hempty⟩ := hcall.exists_append rest
    obtain ⟨more', hmore', -, hempty'⟩ := hcall'.exists_append tail
    obtain rfl : more = more' := List.append_cancel_left (hmore.symm.trans (hp.trans hmore'))
    obtain rfl : rest = tail := Option.some.inj (hempty.symm.trans hempty')
    exact Nat.le_of_eq (congrArg List.length (List.append_cancel_right hp)).symm
  | cons d lead =>
    obtain ⟨c, part, rfl⟩ := List.exists_cons_of_ne_nil hn
    have hc := congrArg List.head? hp
    rw [List.head?_append, List.head?_append, hcall'.head?] at hc
    obtain rfl : c = 'n' := Option.some.inj hc
    rw [hread, List.cons_append] at hcall
    exact absurd (by simp) hcall.notMem_tail

/-- A text that ends with a letter other than the last of the clock's name cuts no call if no word goes on. -/
theorem Uncut.letter (h : Uncut front (read ++ rest)) (hl : read.getLast? = some c) (hc : isWordChar c = true)
    (hw : c ≠ 'w') (hr : rest.head?.any isWordChar = false) : Uncut (front ++ read) rest := by
  refine h.append fun lead part call tail hread hn hp hcall _ => ?_
  have hlast : part.getLast? = some c := by
    rw [hread, List.getLast?_append] at hl
    cases hpart : part.getLast? with
    | none => exact absurd (List.getLast?_eq_none_iff.mp hpart) hn
    | some d => simpa [hpart] using hl
  rcases List.append_eq_append_iff.mp hp with ⟨more, hcut, rfl⟩ | ⟨more, rfl, -⟩
  · obtain ⟨gap, inner, rfl, hgap, hinner⟩ := hcall
    match part, hn, hlast, hcut with
    | [d], _, _, hcut =>
      obtain ⟨-, rfl⟩ := List.cons.inj hcut
      cases hr
    | [d, e], _, _, hcut =>
      obtain ⟨-, hcut⟩ := List.cons.inj hcut
      obtain ⟨-, rfl⟩ := List.cons.inj hcut
      cases hr
    | [d, e, f], _, hlast, hcut =>
      obtain ⟨-, hcut⟩ := List.cons.inj hcut
      obtain ⟨-, hcut⟩ := List.cons.inj hcut
      obtain ⟨rfl, -⟩ := List.cons.inj hcut
      exact absurd (Option.some.inj hlast).symm hw
    | d :: e :: f :: g :: part, _, hlast, hcut =>
      -- behind its name a call holds no letter
      obtain ⟨-, hcut⟩ := List.cons.inj hcut
      obtain ⟨-, hcut⟩ := List.cons.inj hcut
      obtain ⟨-, hcut⟩ := List.cons.inj hcut
      have hm : c ∈ gap ++ '(' :: (inner ++ [')']) := by
        rw [show gap ++ '(' :: (inner ++ [')']) = g :: part ++ more from hcut]
        exact List.mem_append_left _ (List.mem_of_getLast? (by simpa using hlast))
      simp only [List.mem_append, List.mem_cons, List.not_mem_nil, or_false] at hm
      rcases hm with hm | rfl | hm | rfl
      · cases (Text.not_isBlank_of_isWordChar hc).symm.trans (hgap c hm)
      · cases hc
      · cases (Text.not_isBlank_of_isWordChar hc).symm.trans (hinner c hm)
      · cases hc
  · simp

end Rulebook.Feel
