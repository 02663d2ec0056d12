/-
  Rulebook.Proofs.Feel.Blamed — the place that a refusal names.

  A literal without an end is named by the place of its quote in the rule (`UnclosedAt`).
  It is blamed only where no index is below one, for every index is closed before it.

  Of the indices below one it is the one that is closed first that is blamed (`Blamed`). The
  content of an index is rewritten as a text of its own, so its bracket is counted from the
  content of the innermost index around it (`Around`), and from the front of the rule only
  if no index is around it.

  The induction is along the places where no word goes on. What stands in front of a blamed
  index changes neither which one it is nor what it is counted from (`Blamed.flat`,
  `Blamed.behind`), and brackets around it move what it is counted from (`Blamed.within`).
  - `unclosed_of_scan`, `blamed_of_scan`: what a fault of the scan says of the text.
  - `Blamed.unique`, `UnclosedAt.unique`: a text has one blamed index and one open literal at most.
  - `translate_blames`: just which fault a rule is refused with.
  - `nested_position`: inside of an index the position is not the one in the rule.
-/

import Mathlib.Order.Bounds.Basic
import Rulebook.Proofs.Feel.Parts
import Rulebook.Proofs.Feel.Refusal

namespace Rulebook.Feel

open Rulebook.Text (trim IsInteger)

variable {phrases : List Phrase} {before out text inner after content rest read lead left : List Char}
  {place start : Nat} {n : Int}

/-! ## Literals -/

/-- A literal that is never closed starts at a place of a text: outside of others, and with every later quote escaped. -/
def UnclosedAt (text : List Char) (place : Nat) : Prop :=
  ∃ before rest, CutsAt text before ('"' :: rest) ∧ before.length = place ∧
    ∀ content left, rest = content ++ '"' :: left → ∃ done, (Mode.inside ['"']).after content = .escaped done

theorem isUnclosed_iff_exists : IsUnclosed text ↔ ∃ place, UnclosedAt text place := by
  constructor
  · rintro ⟨before, rest, hcut, hescaped⟩
    exact ⟨_, before, rest, hcut, rfl, hescaped⟩
  · rintro ⟨-, before, rest, hcut, -, hescaped⟩
    exact ⟨before, rest, hcut, hescaped⟩

theorem UnclosedAt.le {other : Nat} (h : UnclosedAt text place) (ho : UnclosedAt text other) : other ≤ place := by
  obtain ⟨before, rest, ⟨htext, hbefore⟩, rfl, hescaped⟩ := h
  obtain ⟨before', rest', ⟨htext', houtside⟩, rfl, -⟩ := ho
  rcases Text.split_beside (htext.symm.trans htext') with ⟨more, rfl, -⟩ | ⟨more, rfl, hmore⟩
  · simp
  · -- at the later quote a reader stands behind a backslash, so it is not outside of literals
    obtain ⟨done, hmode⟩ := hescaped more rest' hmore
    rw [Mode.after_append, hbefore] at houtside
    cases hmode.symm.trans houtside

theorem UnclosedAt.unique {other : Nat} (h : UnclosedAt text place) (ho : UnclosedAt text other) : place = other :=
  Nat.le_antisymm (ho.le h) (h.le ho)

theorem UnclosedAt.behind (h : UnclosedAt rest place) (hclosed : Mode.outside.after read = .outside) :
    UnclosedAt (read ++ rest) (read.length + place) := by
  obtain ⟨before, left, ⟨rfl, hbefore⟩, rfl, hescaped⟩ := h
  refine ⟨read ++ before, left, ⟨(List.append_assoc ..).symm, ?_⟩, List.length_append, hescaped⟩
  rw [Mode.after_append, hclosed, hbefore]

theorem ne_outside_of_unclosed (h : literal? (content ++ left) = none) (done : List Char) :
    (Mode.inside done).after content ≠ .outside := by
  cases hl : literal? content with
  | none => exact not_closed_of_literal?_eq_none hl done
  | some found =>
    obtain ⟨read, more⟩ := found
    rw [← literal?_append hl, List.append_assoc, literal?_front hl] at h
    cases h

theorem unclosedAt_quote (h : literal? rest = none) : UnclosedAt ('"' :: rest) 0 := by
  refine ⟨[], rest, ⟨rfl, rfl⟩, rfl, ?_⟩
  rintro content left rfl
  have hopen := ne_outside_of_unclosed h ['"']
  have hquote : literal? ((content ++ ['"']) ++ left) = none := by rwa [List.append_assoc]
  have hclose := ne_outside_of_unclosed hquote ['"']
  rw [Mode.after_append] at hclose
  cases hm : (Mode.inside ['"']).after content with
  | outside => exact absurd hm hopen
  | inside done => rw [hm] at hclose; exact absurd rfl hclose
  | escaped done => exact ⟨done, rfl⟩

/-- Behind the quote of a literal that is never closed there is no index. -/
theorem not_indexAt_quote (h : literal? rest = none) : ¬IndexAt lead ('"' :: rest) before inner after := by
  intro hat
  have hsplit := hat.split
  cases before with
  | nil => cases hsplit
  | cons c before =>
    obtain ⟨rfl, rfl⟩ := List.cons.inj hsplit
    exact ne_outside_of_unclosed h ['"'] hat.outside

/-- Where the scan blames a literal, it is the one that is never closed, and no index is below one. -/
theorem unclosed_of_scan (hp : ∀ phrase ∈ phrases, phrase.IsApart) (h : Trail before out text) {position : Nat}
    (hs : scan phrases before out text = .error (.unclosedLiteral position)) :
    (∃ place, UnclosedAt text place ∧ position = before.length + place) ∧ ¬HasBelowOne phrases before.reverse text := by
  induction h using Trail.induct hp with
  | done before out =>
    rw [scan] at hs
    cases hs
  | part before out read written rest _ _ passes closed flat ih =>
    rw [passes] at hs
    obtain ⟨⟨place, hplace, rfl⟩, hnone⟩ := ih hs
    refine ⟨⟨_, hplace.behind closed, ?_⟩, ?_⟩
    · simp only [List.length_append, List.length_reverse]
      omega
    · rw [hasBelowOne_flat closed flat]
      simpa using hnone
  | index before out inner rest _ opens opening matched _ hbehind =>
    rw [scan_index opens (bracket?_of_closes matched _)] at hs
    rcases index_error hs with hr | ⟨written, hr, hl | ⟨low, hl, hs⟩⟩
    · exact absurd (after_of_closes matched) (after_of_unclosed hp (Trail.start inner) hr)
    · obtain ⟨n, -, -, -, hfault⟩ := lowered_eq_error_iff.mp hl
      cases hfault
    · obtain ⟨⟨place, hplace, rfl⟩, hnone⟩ := hbehind low hs
      have hclosed : Mode.outside.after ('[' :: (inner ++ [']'])) = .outside := after_index matched []
      have hcut : '[' :: (inner ++ ']' :: rest) = '[' :: (inner ++ [']']) ++ rest := by simp
      refine ⟨⟨('[' :: (inner ++ [']'])).length + place, ?_, ?_⟩, ?_⟩
      · rw [hcut]
        exact hplace.behind hclosed
      · simp only [List.length_append, List.length_reverse, List.length_cons, List.length_nil]
        omega
      · rw [hasBelowOne_index opening matched]
        rintro (hbelow | hinside | hlater)
        · exact not_belowOne_of_lowered hr hl hbelow
        · exact not_hasBelowOne_of_rewrite hp hr hinside
        · exact hnone (by simpa using hlater)
  | unclosed before out rest _ hl =>
    rw [scan_unclosed hl] at hs
    obtain rfl := Fault.unclosedLiteral.inj (Except.error.inj hs)
    refine ⟨⟨0, unclosedAt_quote hl, rfl⟩, ?_⟩
    rintro ⟨before, inner, after, hat, -⟩
    exact not_indexAt_quote hl hat

/-! ## Indices -/

/-- Behind `lead`, the content of an index that begins at `start` holds a place. -/
def Around (lead text : List Char) (place start : Nat) : Prop :=
  ∃ before inner after, IndexAt lead text before inner after ∧ start = (lead ++ before).length + 1 ∧
    start ≤ place ∧ place < start + inner.length

/-- A text is rewritten to the integer `n` of 64 bits, which is below one, with blanks around it or none. -/
def BelowOneAs (phrases : List Phrase) (inner : List Char) (n : Int) : Prop :=
  ∃ written, rewrite phrases inner = .ok written ∧ IsInteger (trim written) n ∧ -9223372036854775808 ≤ n ∧ n < 1

/-- An index that is blamed. It is a number below one, no other that is below one is closed before it, and it is
    counted from `start`: where the content of the innermost index around it begins, or at the front. -/
structure Blamed (phrases : List Phrase) (lead text before inner after : List Char) (n : Int) (start : Nat) : Prop where
  index : IndexAt lead text before inner after
  number : BelowOneAs phrases inner n
  first : ∀ before' inner' after', IndexAt lead text before' inner' after' → BelowOne phrases inner' →
    after'.length ≤ after.length
  counted : IsGreatest {s | s = 0 ∨ Around lead text (lead ++ before).length s} start

theorem BelowOneAs.belowOne (h : BelowOneAs phrases inner n) : BelowOne phrases inner := by
  obtain ⟨written, hn⟩ := h
  exact ⟨written, n, hn⟩

theorem IndexAt.length (h : IndexAt lead text before inner after) :
    text.length = before.length + inner.length + after.length + 2 := by
  rw [h.split]
  simp only [List.length_append, List.length_cons]
  omega

theorem Around.bounds (h : Around lead text place start) :
    lead.length < start ∧ start ≤ place ∧ place < lead.length + text.length := by
  obtain ⟨before, inner, after, hat, rfl, hle, hless⟩ := h
  have hlength := hat.length
  simp only [List.length_append] at hle hless ⊢
  omega

theorem around_flat (hclosed : Mode.outside.after read = .outside) (hflat : IsFlat lead read rest) :
    Around lead (read ++ rest) place start ↔ Around (lead ++ read) rest place start := by
  constructor
  · rintro ⟨before, inner, after, hat, hstart⟩
    obtain ⟨more, rfl, hrest⟩ := (indexAt_flat hclosed hflat).mp hat
    rw [← List.append_assoc] at hstart
    exact ⟨more, inner, after, hrest, hstart⟩
  · rintro ⟨more, inner, after, hat, hstart⟩
    rw [List.append_assoc] at hstart
    exact ⟨_, inner, after, (indexAt_flat hclosed hflat).mpr ⟨more, rfl, hat⟩, hstart⟩

/-- Around a place are the index that a text begins with, those inside its brackets or those behind them. -/
theorem around_index (hopens : OpensIndex lead) (hmatched : closes .outside 0 content = true) :
    Around lead ('[' :: (content ++ ']' :: rest)) place start ↔
      (start = lead.length + 1 ∧ start ≤ place ∧ place < start + content.length) ∨
      (∃ p s, place = lead.length + 1 + p ∧ start = lead.length + 1 + s ∧ Around [] content p s) ∨
      Around (lead ++ '[' :: (content ++ [']'])) rest place start := by
  have hcut : ∀ more : List Char, lead ++ '[' :: (content ++ ']' :: more) = lead ++ '[' :: (content ++ [']']) ++ more := by
    simp
  constructor
  · rintro ⟨before, inner, after, hat, rfl, hle, hless⟩
    rcases (indexAt_index hopens hmatched).mp hat with ⟨rfl, rfl, -⟩ | ⟨more, left, rfl, -, hmore⟩ | ⟨more, rfl, hmore⟩
    · rw [List.append_nil] at hle hless ⊢
      exact Or.inl ⟨rfl, hle, hless⟩
    · rw [List.length_append, List.length_cons] at hle hless ⊢
      exact Or.inr (Or.inl ⟨place - (lead.length + 1), more.length + 1, by omega, by omega, more, inner, left, hmore, rfl,
        by omega, by omega⟩)
    · exact Or.inr (Or.inr ⟨more, inner, after, hmore, by rw [hcut], hle, hless⟩)
  · rintro (⟨rfl, hle, hless⟩ | ⟨p, s, rfl, rfl, more, inner, left, hmore, rfl, hle, hless⟩ |
      ⟨more, inner, after, hmore, rfl, hle, hless⟩)
    · exact ⟨[], content, rest, (indexAt_index hopens hmatched).mpr (Or.inl ⟨rfl, rfl, rfl⟩), by simp, hle, hless⟩
    · rw [List.nil_append] at hle hless ⊢
      refine ⟨_, inner, _, (indexAt_index hopens hmatched).mpr (Or.inr (Or.inl ⟨more, left, rfl, rfl, hmore⟩)), ?_,
        by omega, by omega⟩
      rw [List.length_append, List.length_cons]
      omega
    · rw [← hcut] at hle hless ⊢
      exact ⟨_, inner, after, (indexAt_index hopens hmatched).mpr (Or.inr (Or.inr ⟨more, rfl, hmore⟩)), rfl, hle, hless⟩

theorem Blamed.flat (hclosed : Mode.outside.after read = .outside) (hflat : IsFlat lead read rest)
    (h : Blamed phrases (lead ++ read) rest before inner after n start) :
    Blamed phrases lead (read ++ rest) (read ++ before) inner after n start where
  index := (indexAt_flat hclosed hflat).mpr ⟨before, rfl, h.index⟩
  number := h.number
  first := by
    intro before' inner' after' hat hbelow
    obtain ⟨more, -, hrest⟩ := (indexAt_flat hclosed hflat).mp hat
    exact h.first more inner' after' hrest hbelow
  counted := by
    have hcounted := h.counted
    simp only [← around_flat hclosed hflat, List.append_assoc] at hcounted
    exact hcounted

theorem Blamed.here (hopens : OpensIndex lead) (hmatched : closes .outside 0 inner = true)
    (hnumber : BelowOneAs phrases inner n) (hinside : ¬HasBelowOne phrases [] inner) :
    Blamed phrases lead ('[' :: (inner ++ ']' :: rest)) [] inner rest n 0 where
  index := (indexAt_index hopens hmatched).mpr (Or.inl ⟨rfl, rfl, rfl⟩)
  number := hnumber
  first := by
    intro before' inner' after' hat hbelow
    rcases (indexAt_index hopens hmatched).mp hat with ⟨-, -, rfl⟩ | ⟨more, left, -, -, hat⟩ | ⟨more, -, hat⟩
    · exact Nat.le_refl _
    · exact absurd ⟨more, inner', left, hat, hbelow⟩ hinside
    · have hlength := hat.length
      omega
  counted := by
    rw [List.append_nil]
    refine ⟨Or.inl rfl, ?_⟩
    rintro s (rfl | haround)
    · exact Nat.le_refl _
    · obtain ⟨hlead, hle, -⟩ := haround.bounds
      omega

/-- The brackets of an index are around what is blamed inside of them. -/
theorem Blamed.within (hopens : OpensIndex lead) (hmatched : closes .outside 0 content = true)
    (h : Blamed phrases [] content before inner after n start) :
    Blamed phrases lead ('[' :: (content ++ ']' :: rest)) ('[' :: before) inner (after ++ ']' :: rest) n
      (lead.length + 1 + start) where
  index := (indexAt_index hopens hmatched).mpr (Or.inr (Or.inl ⟨before, after, rfl, rfl, h.index⟩))
  number := h.number
  first := by
    intro before' inner' after' hat hbelow
    rw [List.length_append, List.length_cons]
    rcases (indexAt_index hopens hmatched).mp hat with ⟨-, -, rfl⟩ | ⟨more, left, -, rfl, hmore⟩ | ⟨more, -, hmore⟩
    · omega
    · rw [List.length_append, List.length_cons, Nat.add_le_add_iff_right]
      exact h.first more inner' left hmore hbelow
    · have hlength := hmore.length
      omega
  counted := by
    have hlength := h.index.length
    have hplace : (lead ++ '[' :: before).length = lead.length + 1 + before.length := by
      rw [List.length_append, List.length_cons]
      omega
    rw [hplace]
    refine ⟨Or.inr ((around_index hopens hmatched).mpr ?_), ?_⟩
    · rcases h.counted.1 with rfl | hinner
      · exact Or.inl ⟨rfl, by omega, by omega⟩
      · exact Or.inr (Or.inl ⟨_, start, rfl, rfl, hinner⟩)
    · rintro s (rfl | haround)
      · exact Nat.zero_le _
      · rcases (around_index hopens hmatched).mp haround with ⟨rfl, -, -⟩ | ⟨p, s, hp, rfl, hinner⟩ | hrest
        · exact Nat.le_add_right _ _
        · obtain rfl := Nat.add_left_cancel hp
          exact Nat.add_le_add_left (h.counted.2 (Or.inr hinner)) _
        · obtain ⟨hlead, hle, -⟩ := hrest.bounds
          simp only [List.length_append, List.length_cons] at hlead
          omega

/-- An index and what is inside its brackets are not around what is behind them. -/
theorem Blamed.behind (hopens : OpensIndex lead) (hmatched : closes .outside 0 content = true)
    (hcontent : ¬BelowOne phrases content) (hinside : ¬HasBelowOne phrases [] content)
    (h : Blamed phrases (lead ++ '[' :: (content ++ [']'])) rest before inner after n start) :
    Blamed phrases lead ('[' :: (content ++ ']' :: rest)) ('[' :: (content ++ ']' :: before)) inner after n start where
  index := (indexAt_index hopens hmatched).mpr (Or.inr (Or.inr ⟨before, rfl, h.index⟩))
  number := h.number
  first := by
    intro before' inner' after' hat hbelow
    rcases (indexAt_index hopens hmatched).mp hat with ⟨-, rfl, -⟩ | ⟨more, left, -, -, hat⟩ | ⟨more, -, hat⟩
    · exact absurd hbelow hcontent
    · exact absurd ⟨more, inner', left, hat, hbelow⟩ hinside
    · exact h.first more inner' after' hat hbelow
  counted := by
    have hcut : lead ++ '[' :: (content ++ ']' :: before) = lead ++ '[' :: (content ++ [']']) ++ before := by simp
    have hplace : (lead ++ '[' :: (content ++ [']']) ++ before).length = lead.length + content.length + 2 + before.length := by
      simp only [List.length_append, List.length_cons, List.length_nil]
      omega
    have haround : ∀ s, Around lead ('[' :: (content ++ ']' :: rest)) (lead ++ '[' :: (content ++ [']']) ++ before).length s ↔
        Around (lead ++ '[' :: (content ++ [']'])) rest (lead ++ '[' :: (content ++ [']']) ++ before).length s := by
      intro s
      rw [around_index hopens hmatched]
      refine ⟨?_, fun hrest => Or.inr (Or.inr hrest)⟩
      rintro (⟨rfl, -, hless⟩ | ⟨p, s, hp, -, hinner⟩ | hrest)
      · omega
      · obtain ⟨-, -, hless⟩ := hinner.bounds
        rw [List.length_nil] at hless
        omega
      · exact hrest
    rw [hcut]
    simp only [haround]
    exact h.counted

/-- Where the scan blames an index, it is the first to be closed of those below one, and what it is counted from is
    where the content of the innermost index around it begins. -/
theorem blamed_of_scan (hp : ∀ phrase ∈ phrases, phrase.IsApart) (h : Trail before out text) {position : Nat}
    (hs : scan phrases before out text = .error (.indexBelowOne n position)) :
    ∃ more inner after start, Blamed phrases before.reverse text more inner after n start ∧
      (before.reverse ++ more).length = start + position := by
  induction h using Trail.induct hp generalizing position with
  | done before out =>
    rw [scan] at hs
    cases hs
  | part before out read written rest _ _ passes closed flat ih =>
    rw [passes] at hs
    obtain ⟨more, inner, after, start, hblamed, hplace⟩ := ih hs
    rw [List.reverse_append, List.reverse_reverse] at hblamed hplace
    rw [List.append_assoc] at hplace
    exact ⟨_, inner, after, start, hblamed.flat closed flat, hplace⟩
  | index before out content rest _ opens opening matched hcontent hbehind =>
    rw [scan_index opens (bracket?_of_closes matched _)] at hs
    rcases index_error hs with hr | ⟨written, hr, hl | ⟨low, hl, hs⟩⟩
    · obtain ⟨more, inner, after, start, hblamed, hplace⟩ := hcontent hr
      refine ⟨_, inner, _, _, hblamed.within opening matched, ?_⟩
      simp only [List.reverse_nil, List.nil_append] at hplace
      simp only [List.length_append, List.length_cons, List.length_reverse]
      omega
    · obtain ⟨m, hint, hlow, hless, hfault⟩ := lowered_eq_error_iff.mp hl
      obtain ⟨rfl, rfl⟩ := Fault.indexBelowOne.inj hfault
      refine ⟨[], content, rest, 0, .here opening matched ⟨written, hr, hint, hlow, hless⟩
        (not_hasBelowOne_of_rewrite hp hr), ?_⟩
      simp
    · obtain ⟨more, inner, after, start, hblamed, hplace⟩ := hbehind low hs
      have hreverse : (('[' :: content ++ [']']).reverse ++ before).reverse = before.reverse ++ '[' :: (content ++ [']']) := by
        simp
      rw [hreverse] at hblamed hplace
      refine ⟨_, inner, after, start, hblamed.behind opening matched (not_belowOne_of_lowered hr hl)
        (not_hasBelowOne_of_rewrite hp hr), ?_⟩
      rw [← hplace]
      simp
  | unclosed before out rest _ hl =>
    rw [scan_unclosed hl] at hs
    cases hs

/-! ## One fault only -/

section Unique

variable {before' inner' after' : List Char} {n' : Int} {start' : Nat}

theorem IndexAt.before_le (h : IndexAt lead text before inner after) (h' : IndexAt lead text before' inner' after')
    (hl : after.length = after'.length) : before'.length ≤ before.length := by
  have htext : (before ++ '[' :: inner) ++ ']' :: after = (before' ++ '[' :: inner') ++ ']' :: after' := by
    have := h.split.symm.trans h'.split
    simpa using this
  obtain ⟨hfront, -⟩ := List.append_inj' htext (by simp [hl])
  rcases Text.split_beside hfront with ⟨more, rfl, -⟩ | ⟨more, rfl, rfl⟩
  · simp
  · -- the later bracket is inside the earlier ones, so it is closed inside of them
    have houtside := h'.outside
    rw [Mode.after_append, h.outside] at houtside
    have hself : inner' ++ [']'] = inner' ++ [']'] := rfl
    obtain ⟨tail, htail⟩ := closes_within h.matched houtside h'.matched hself
    have hlength := congrArg List.length htail
    rw [List.length_append, List.length_cons] at hlength
    omega

theorem IndexAt.unique (h : IndexAt lead text before inner after) (h' : IndexAt lead text before' inner' after')
    (hl : after.length = after'.length) : before = before' ∧ inner = inner' := by
  have hbefore : before.length = before'.length := Nat.le_antisymm (h'.before_le h hl.symm) (h.before_le h' hl)
  obtain ⟨rfl, hrest⟩ := List.append_inj (h.split.symm.trans h'.split) hbefore
  obtain ⟨rfl, -⟩ := List.append_inj' (List.cons.inj hrest).2 (by simp [hl])
  exact ⟨rfl, rfl⟩

theorem BelowOneAs.unique (h : BelowOneAs phrases inner n) (h' : BelowOneAs phrases inner n') : n = n' := by
  obtain ⟨written, hr, hint, -⟩ := h
  obtain ⟨written', hr', hint', -⟩ := h'
  obtain rfl := Except.ok.inj (hr.symm.trans hr')
  exact hint.unique hint'

theorem Blamed.unique (h : Blamed phrases lead text before inner after n start)
    (h' : Blamed phrases lead text before' inner' after' n' start') : before = before' ∧ n = n' ∧ start = start' := by
  have hl : after.length = after'.length :=
    Nat.le_antisymm (h'.first _ _ _ h.index h.number.belowOne) (h.first _ _ _ h'.index h'.number.belowOne)
  obtain ⟨rfl, rfl⟩ := h.index.unique h'.index hl
  exact ⟨rfl, h.number.unique h'.number, h.counted.unique h'.counted⟩

/-- An index is counted from the front exactly if no other is around it. -/
theorem Blamed.start_eq_zero_iff (h : Blamed phrases lead text before inner after n start) :
    start = 0 ↔ ∀ s, ¬Around lead text (lead ++ before).length s := by
  constructor
  · rintro rfl s haround
    have hle := h.counted.2 (Or.inr haround)
    have := haround.bounds.1
    omega
  · intro hnone
    rcases h.counted.1 with hzero | haround
    · exact hzero
    · exact absurd haround (hnone start)

end Unique

/-! ## The built-in registry -/

theorem translate_eq_error {registry : Registry} {rule : String} {fault : Fault} :
    translate registry rule = .error fault ↔ scan (Phrase.ofRegistry registry) [] [] rule.toList = .error fault := by
  rw [translate, rewrite]
  cases scan (Phrase.ofRegistry registry) [] [] rule.toList with
  | error other => simp [Except.map]
  | ok written => simp [Except.map]

theorem isApart_ofRegistry : ∀ phrase ∈ Phrase.ofRegistry .builtin, phrase.IsApart := by
  rw [phrases_builtin]
  exact isApart_builtin

variable {rule : String} {position : Nat}

theorem blamed_of_translate (h : translate .builtin rule = .error (.indexBelowOne n position)) :
    ∃ before inner after start, Blamed (Phrase.ofRegistry .builtin) [] rule.toList before inner after n start ∧
      before.length = start + position :=
  blamed_of_scan isApart_ofRegistry (.start _) (translate_eq_error.mp h)

theorem unclosed_of_translate (h : translate .builtin rule = .error (.unclosedLiteral position)) :
    UnclosedAt rule.toList position ∧ ¬HasBelowOne (Phrase.ofRegistry .builtin) [] rule.toList := by
  obtain ⟨⟨place, hplace, rfl⟩, hnone⟩ := unclosed_of_scan isApart_ofRegistry (.start _) (translate_eq_error.mp h)
  rw [List.length_nil, Nat.zero_add]
  exact ⟨hplace, hnone⟩

theorem exists_fault (h : HasBelowOne (Phrase.ofRegistry .builtin) [] rule.toList ∨ IsUnclosed rule.toList) :
    ∃ fault, translate .builtin rule = .error fault := by
  rw [isUnclosed_iff, or_comm] at h
  obtain ⟨fault, hf⟩ := (scan_eq_error_iff isApart_ofRegistry (.start _)).mpr h
  exact ⟨fault, translate_eq_error.mpr hf⟩

/-- An index that is blamed is what the rule is refused for. -/
theorem Blamed.translate_eq (h : Blamed (Phrase.ofRegistry .builtin) [] rule.toList before inner after n start)
    (hplace : before.length = start + position) : translate .builtin rule = .error (.indexBelowOne n position) := by
  have hbelow : HasBelowOne (Phrase.ofRegistry .builtin) [] rule.toList :=
    ⟨before, inner, after, h.index, h.number.belowOne⟩
  obtain ⟨fault, hf⟩ := exists_fault (Or.inl hbelow)
  cases fault with
  | indexBelowOne m other =>
    obtain ⟨before', inner', after', start', hblamed, hother⟩ := blamed_of_translate hf
    obtain ⟨rfl, rfl, rfl⟩ := h.unique hblamed
    obtain rfl : position = other := by omega
    exact hf
  | unclosedLiteral other => exact absurd hbelow (unclosed_of_translate hf).2

/-- A literal that is never closed is what the rule is refused for if no index is below one. -/
theorem UnclosedAt.translate_eq (h : UnclosedAt rule.toList position)
    (hnone : ¬HasBelowOne (Phrase.ofRegistry .builtin) [] rule.toList) :
    translate .builtin rule = .error (.unclosedLiteral position) := by
  obtain ⟨fault, hf⟩ := exists_fault (Or.inr (isUnclosed_iff_exists.mpr ⟨position, h⟩))
  cases fault with
  | indexBelowOne m other =>
    obtain ⟨before, inner, after, start, hblamed, -⟩ := blamed_of_translate hf
    exact absurd ⟨before, inner, after, hblamed.index, hblamed.number.belowOne⟩ hnone
  | unclosedLiteral other =>
    obtain rfl := h.unique (unclosed_of_translate hf).1
    exact hf

/-- What a rule is refused with. If an index is below one, it is the first of these to be closed, and its bracket is
    counted from the content of the innermost index around it, so the position is the one in the rule exactly if
    no index is around it; if none is below one, it is the literal that is never closed, and its quote is
    counted in the rule. -/
theorem translate_blames (rule : String) :
    (∀ fault, translate .builtin rule = .error fault ↔
      (∃ before inner after n start position,
        Blamed (Phrase.ofRegistry .builtin) [] rule.toList before inner after n start ∧
          before.length = start + position ∧ fault = .indexBelowOne n position) ∨
      ¬HasBelowOne (Phrase.ofRegistry .builtin) [] rule.toList ∧
        ∃ position, UnclosedAt rule.toList position ∧ fault = .unclosedLiteral position) ∧
    ∀ n position, translate .builtin rule = .error (.indexBelowOne n position) →
      ∃ before inner after start, Blamed (Phrase.ofRegistry .builtin) [] rule.toList before inner after n start ∧
        (before.length = position ↔ ∀ s, ¬Around [] rule.toList before.length s) := by
  refine ⟨fun fault => ⟨fun h => ?_, ?_⟩, fun n position h => ?_⟩
  · cases fault with
    | indexBelowOne n position =>
      obtain ⟨before, inner, after, start, hblamed, hplace⟩ := blamed_of_translate h
      exact Or.inl ⟨before, inner, after, n, start, position, hblamed, hplace, rfl⟩
    | unclosedLiteral position =>
      obtain ⟨hplace, hnone⟩ := unclosed_of_translate h
      exact Or.inr ⟨hnone, position, hplace, rfl⟩
  · rintro (⟨before, inner, after, n, start, position, hblamed, hplace, rfl⟩ | ⟨hnone, position, hplace, rfl⟩)
    · exact hblamed.translate_eq hplace
    · exact hplace.translate_eq hnone
  · obtain ⟨before, inner, after, start, hblamed, hplace⟩ := blamed_of_translate h
    have hfront : start = 0 ↔ ∀ s, ¬Around [] rule.toList before.length s := hblamed.start_eq_zero_iff
    refine ⟨before, inner, after, start, hblamed, ?_⟩
    rw [← hfront, hplace]
    omega

/-- The position that is named for an index in the brackets of another. -/
theorem translate_itemOfItem : translate .builtin "m[xs[0]]" = .error (.indexBelowOne 0 2) := by
  have hinner : rewrite builtinPhrases "xs[0]".toList = .error (.indexBelowOne 0 2) := by
    have hname : Passes builtinPhrases [] [] ['x', 's'] ['x', 's'] ('[' :: (['0'] ++ ']' :: [])) := .of_step (by cbv) rfl
    have hdigit : Passes builtinPhrases [] [] ['0'] ['0'] [] := .of_step (by cbv) rfl
    have hindex : rewrite builtinPhrases ['0'] = .ok ['0'] := hdigit.rewrite_eq
    rw [rewrite, show "xs[0]".toList = ['x', 's'] ++ '[' :: (['0'] ++ ']' :: []) from rfl, hname,
      scan_index (by decide) (bracket?_of_closes (by decide) _), hindex]
    rfl
  have hname : Passes builtinPhrases [] [] ['m'] ['m'] ('[' :: ("xs[0]".toList ++ ']' :: [])) := .of_step (by cbv) rfl
  rw [translate_eq_error, phrases_builtin, show "m[xs[0]]".toList = ['m'] ++ '[' :: ("xs[0]".toList ++ ']' :: []) from rfl,
    hname, scan_index (by decide) (bracket?_of_closes (by decide) _), hinner]
  rfl

theorem translate_blames_nested : translate .builtin "m[xs[0]]" = .error (.indexBelowOne 0 2) ∧
    ∃ before inner after start, Blamed (Phrase.ofRegistry .builtin) [] "m[xs[0]]".toList before inner after 0 start ∧
      (before.length = 2 ↔ ∀ s, ¬Around [] "m[xs[0]]".toList before.length s) :=
  ⟨translate_itemOfItem, (translate_blames "m[xs[0]]").2 0 2 translate_itemOfItem⟩

/-- Inside of brackets the position is not the one in the rule: another character stands there. -/
theorem nested_position : translate .builtin "m[xs[0]]" = .error (.indexBelowOne 0 2) ∧
    "m[xs[0]]".toList[2]? = some 'x' ∧ "m[xs[0]]".toList[4]? = some '[' :=
  ⟨translate_itemOfItem, by decide, by decide⟩

end Rulebook.Feel
