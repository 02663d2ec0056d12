/-
  Rulebook.Proofs.Feel.Refusal — the rules that are not rewritten.

  There are two reasons. A literal has no end: a quote outside of literals, and no quote
  behind it but escaped ones (`IsUnclosed`). Or, at any depth, an index brackets a content
  that is rewritten to a number below one (`BelowOne`). What is an index is said of the
  rule itself (`IndexAt`): a bracket outside of literals that opens an index, up to the
  bracket that closes it.

  The induction is along the places where no word goes on. In front of a place a part in
  which no index opens adds none (`indexAt_flat`), and an index adds itself and those inside
  its brackets (`indexAt_index`).
  - `scan_eq_error_iff`: from any such place the scan fails for one of the two reasons.
  - `after_of_unclosed`: the scan blames a literal only if the text leaves one open, so
    the content of an index is never blamed for one.
  - `translate_eq_error_iff`: what this says of the built-in registry.
-/

import Mathlib.Algebra.Order.Ring.Int
import Rulebook.Proofs.Feel.Plain
import Rulebook.Proofs.Feel.Trail

namespace Rulebook.Feel

open Rulebook.Text (isBlank isWordChar trim readInt64 IsInteger)

/-! ## The two reasons -/

/-- A literal starts outside of others, and every quote behind its first one is escaped. -/
def IsUnclosed (text : List Char) : Prop :=
  ∃ before rest, CutsAt text before ('"' :: rest) ∧
    ∀ content left, rest = content ++ '"' :: left → ∃ done, (Mode.inside ['"']).after content = .escaped done

/-- Behind `lead`, a text holds an index: a bracket outside of literals that opens an index, and the bracket
    that closes it. -/
structure IndexAt (lead text before inner after : List Char) : Prop where
  split : text = before ++ '[' :: (inner ++ ']' :: after)
  outside : Mode.outside.after before = .outside
  opens : OpensIndex (lead ++ before)
  matched : closes .outside 0 inner = true

/-- A text is rewritten to an integer of 64 bits below one, with blanks around it or none. -/
def BelowOne (phrases : List Phrase) (inner : List Char) : Prop :=
  ∃ written n, rewrite phrases inner = .ok written ∧ IsInteger (trim written) n ∧ -9223372036854775808 ≤ n ∧ n < 1

/-- Behind `lead`, a text holds an index whose content is a number below one. -/
def HasBelowOne (phrases : List Phrase) (lead text : List Char) : Prop :=
  ∃ before inner after, IndexAt lead text before inner after ∧ BelowOne phrases inner

variable {phrases : List Phrase} {before out text inner after content rest read lead : List Char}

/-! ## Literals without an end -/

/-- A reader does not get out of a literal at a quote that is escaped. -/
theorem after_ne_outside {mode : Mode} (hm : mode ≠ .outside)
    (h : ∀ content left, text = content ++ '"' :: left → ∃ done, mode.after content = .escaped done) :
    mode.after text ≠ .outside := by
  induction text generalizing mode with
  | nil => exact hm
  | cons c text ih =>
    have hnext : mode.next c ≠ .outside := by
      cases mode with
      | outside => exact absurd rfl hm
      | inside done =>
        by_cases hq : c = '"'
        · subst hq
          obtain ⟨done, hescaped⟩ := h [] text rfl
          cases hescaped
        · by_cases hb : c = '\\'
          · simp [Mode.next, hb]
          · simp [Mode.next, hq, hb]
      | escaped done => simp [Mode.next]
    refine ih hnext fun content left he => ?_
    exact h (c :: content) left (by rw [he]; rfl)

/-- A reader that ends inside of a literal has been outside of it until the quote that opens it, or never. -/
theorem exists_opening {mode : Mode} (h : mode.after text ≠ .outside) :
    (∀ content left, text = content ++ left → mode.after content ≠ .outside) ∨
      ∃ before rest, text = before ++ '"' :: rest ∧ mode.after before = .outside ∧
        ∀ content left, rest = content ++ left → (Mode.inside ['"']).after content ≠ .outside := by
  induction text generalizing mode with
  | nil =>
    refine Or.inl fun content left he => ?_
    obtain ⟨rfl, -⟩ := List.append_eq_nil_iff.mp he.symm
    exact h
  | cons c text ih =>
    rcases ih (show (mode.next c).after text ≠ .outside from h) with hinside | ⟨before, rest, rfl, hb, hrest⟩
    · by_cases hm : mode = .outside
      · subst hm
        by_cases hq : c = '"'
        · subst hq
          exact Or.inr ⟨[], text, rfl, rfl, hinside⟩
        · exact absurd (by simp [Mode.next, hq, Mode.after]) (hinside [] text rfl)
      · refine Or.inl fun content left he => ?_
        cases content with
        | nil => exact hm
        | cons d content =>
          obtain ⟨rfl, htext⟩ := List.cons.inj he
          exact hinside content left htext
    · exact Or.inr ⟨c :: before, rest, rfl, hb, hrest⟩

theorem isUnclosed_iff : IsUnclosed text ↔ Mode.outside.after text ≠ .outside := by
  constructor
  · rintro ⟨before, rest, ⟨rfl, hb⟩, hescaped⟩
    rw [Mode.after_append, hb]
    show (Mode.inside ['"']).after rest ≠ .outside
    exact after_ne_outside nofun hescaped
  · intro h
    rcases exists_opening h with hinside | ⟨before, rest, rfl, hb, hrest⟩
    · exact absurd rfl (hinside [] text rfl)
    · refine ⟨before, rest, ⟨rfl, hb⟩, ?_⟩
      rintro content left rfl
      have hclose := hrest (content ++ ['"']) left (by simp)
      rw [Mode.after_append] at hclose
      cases hm : (Mode.inside ['"']).after content with
      | outside => exact absurd hm (hrest content _ rfl)
      | inside done => rw [hm] at hclose; exact absurd rfl hclose
      | escaped done => exact ⟨done, rfl⟩

/-! ## Indices below one -/

theorem after_index (hm : closes .outside 0 inner = true) (rest : List Char) :
    Mode.outside.after ('[' :: (inner ++ ']' :: rest)) = Mode.outside.after rest := by
  show Mode.outside.after (inner ++ ']' :: rest) = _
  rw [Mode.after_append, after_of_closes hm]
  rfl

theorem not_hasBelowOne_nil : ¬HasBelowOne phrases lead [] := by
  rintro ⟨before, inner, after, hat, -⟩
  have hsplit := hat.split
  simp at hsplit

/-- The indices of a part in which none opens and of what follows it are those of what follows it. -/
theorem indexAt_flat (hclosed : Mode.outside.after read = .outside) (hflat : IsFlat lead read rest) :
    IndexAt lead (read ++ rest) before inner after ↔
      ∃ more, before = read ++ more ∧ IndexAt (lead ++ read) rest more inner after := by
  constructor
  · intro hat
    rcases Text.split_within hat.split with ⟨more, rfl, hrest⟩ | ⟨tail, hn, hread, hrest⟩
    · have houtside := hat.outside
      rw [Mode.after_append, hclosed] at houtside
      exact ⟨more, rfl, ⟨hrest, houtside, by rw [List.append_assoc]; exact hat.opens, hat.matched⟩⟩
    · obtain ⟨c, tail, rfl⟩ := List.exists_cons_of_ne_nil hn
      obtain ⟨rfl, htail⟩ := List.cons.inj hrest
      exact absurd hat.opens (hflat before tail inner after hread hat.outside htail.symm hat.matched)
  · rintro ⟨more, rfl, hat⟩
    refine ⟨?_, ?_, ?_, hat.matched⟩
    · rw [hat.split, List.append_assoc]
    · rw [Mode.after_append, hclosed, hat.outside]
    · rw [← List.append_assoc]
      exact hat.opens

/-- Where an index begins, the indices are itself, those inside its brackets and those behind them. -/
theorem indexAt_index (hopens : OpensIndex lead) (hmatched : closes .outside 0 content = true) :
    IndexAt lead ('[' :: (content ++ ']' :: rest)) before inner after ↔
      (before = [] ∧ inner = content ∧ after = rest) ∨
      (∃ more left, before = '[' :: more ∧ after = left ++ ']' :: rest ∧ IndexAt [] content more inner left) ∨
      ∃ more, before = '[' :: (content ++ ']' :: more) ∧
        IndexAt (lead ++ '[' :: (content ++ [']'])) rest more inner after := by
  constructor
  · intro hat
    have hsplit := hat.split
    cases before with
    | nil =>
      obtain ⟨rfl, rfl⟩ := closes_unique hmatched hat.matched (List.cons.inj hsplit).2
      exact Or.inl ⟨rfl, rfl, rfl⟩
    | cons c before =>
      obtain ⟨rfl, hread⟩ := List.cons.inj hsplit
      rcases Text.split_beside hread with ⟨more, hread, hrest⟩ | ⟨more, rfl, hmore⟩
      · -- inside the brackets, so it is closed inside them
        cases more with
        | nil => cases hrest
        | cons c more =>
          obtain ⟨rfl, hmore⟩ := List.cons.inj hrest
          rw [hread] at hmatched
          obtain ⟨left, rfl⟩ := closes_within hmatched hat.outside hat.matched hmore.symm
          have hafter : after = left ++ ']' :: rest := by simpa using hmore
          exact Or.inr (Or.inl ⟨before, left, rfl, hafter,
            ⟨hread, hat.outside, opensIndex_behind.mp hat.opens, hat.matched⟩⟩)
      · -- behind the closing bracket
        have houtside := hat.outside
        rw [after_index hmatched] at houtside
        refine Or.inr (Or.inr ⟨more, rfl, ⟨hmore, houtside, ?_, hat.matched⟩⟩)
        simpa using hat.opens
  · rintro (⟨rfl, rfl, rfl⟩ | ⟨more, left, rfl, rfl, hat⟩ | ⟨more, rfl, hat⟩)
    · exact ⟨rfl, rfl, by rwa [List.append_nil], hmatched⟩
    · refine ⟨?_, hat.outside, ?_, hat.matched⟩
      · rw [hat.split]
        simp
      · exact opensIndex_behind.mpr hat.opens
    · refine ⟨?_, ?_, ?_, hat.matched⟩
      · rw [hat.split]
        simp
      · rw [after_index hmatched, hat.outside]
      · have hopens' := hat.opens
        simpa using hopens'

theorem hasBelowOne_flat (hclosed : Mode.outside.after read = .outside) (hflat : IsFlat lead read rest) :
    HasBelowOne phrases lead (read ++ rest) ↔ HasBelowOne phrases (lead ++ read) rest := by
  constructor
  · rintro ⟨before, inner, after, hat, hbelow⟩
    obtain ⟨more, -, hrest⟩ := (indexAt_flat hclosed hflat).mp hat
    exact ⟨more, inner, after, hrest, hbelow⟩
  · rintro ⟨more, inner, after, hat, hbelow⟩
    exact ⟨read ++ more, inner, after, (indexAt_flat hclosed hflat).mpr ⟨more, rfl, hat⟩, hbelow⟩

theorem hasBelowOne_index (hopens : OpensIndex lead) (hmatched : closes .outside 0 inner = true) :
    HasBelowOne phrases lead ('[' :: (inner ++ ']' :: rest)) ↔
      BelowOne phrases inner ∨ HasBelowOne phrases [] inner ∨ HasBelowOne phrases (lead ++ '[' :: (inner ++ [']'])) rest := by
  constructor
  · rintro ⟨before, other, after, hat, hbelow⟩
    rcases (indexAt_index hopens hmatched).mp hat with ⟨-, rfl, -⟩ | ⟨more, left, -, -, hat⟩ | ⟨more, -, hat⟩
    · exact Or.inl hbelow
    · exact Or.inr (Or.inl ⟨more, other, left, hat, hbelow⟩)
    · exact Or.inr (Or.inr ⟨more, other, after, hat, hbelow⟩)
  · rintro (hbelow | ⟨more, other, left, hat, hbelow⟩ | ⟨more, other, after, hat, hbelow⟩)
    · exact ⟨_, inner, _, (indexAt_index hopens hmatched).mpr (Or.inl ⟨rfl, rfl, rfl⟩), hbelow⟩
    · exact ⟨_, other, _, (indexAt_index hopens hmatched).mpr (Or.inr (Or.inl ⟨more, left, rfl, rfl, hat⟩)), hbelow⟩
    · exact ⟨_, other, after, (indexAt_index hopens hmatched).mpr (Or.inr (Or.inr ⟨more, rfl, hat⟩)), hbelow⟩

/-! ## The scan -/

/-- An index is refused where it is a number below one, and then it is the number that is blamed. -/
theorem lowered_eq_error_iff {index : List Char} {position : Nat} {fault : Fault} :
    lowered index position = .error fault ↔
      ∃ n, IsInteger (trim index) n ∧ -9223372036854775808 ≤ n ∧ n < 1 ∧ fault = .indexBelowOne n position := by
  have hread : ∀ n : Int, n < 1 → (readInt64 (trim index) = .ok n ↔
      IsInteger (trim index) n ∧ -9223372036854775808 ≤ n) := by
    intro n hn
    rw [Text.readInt64_eq_ok_iff]
    exact and_congr_right fun _ => and_iff_left (by omega)
  have hrefuse : lowered index position = .error fault ↔
      ∃ n, readInt64 (trim index) = .ok n ∧ n < 1 ∧ fault = .indexBelowOne n position := by
    simp only [lowered]
    by_cases hq : (trim index).head? = some '"'
    · rw [if_pos hq]
      refine iff_of_false (fun he => ?_) ?_
      · cases he
      · rintro ⟨n, hn, -⟩
        rcases Text.isDigit_of_readInt64 hn '"' (List.mem_of_head? hq) with hd | hd | hd <;> cases hd
    · rw [if_neg hq]
      cases readInt64 (trim index) with
      | error fault => simp
      | ok m =>
        simp only [Except.ok.injEq, exists_eq_left']
        by_cases hm : 1 ≤ m
        · rw [if_pos hm]
          refine iff_of_false (fun he => ?_) fun hless => absurd hm (not_le.mpr hless.1)
          cases he
        · rw [if_neg hm, Except.error.injEq, eq_comm]
          exact (and_iff_right (not_le.mp hm)).symm
  rw [hrefuse]
  refine exists_congr fun n => ?_
  constructor
  · rintro ⟨hn, hless, hf⟩
    obtain ⟨hint, hlow⟩ := (hread n hless).mp hn
    exact ⟨hint, hlow, hless, hf⟩
  · rintro ⟨hint, hlow, hless, hf⟩
    exact ⟨(hread n hless).mpr ⟨hint, hlow⟩, hless, hf⟩

/-- Where the rewriting of an index fails: in its content, in lowering the content, or behind it. -/
theorem index_error {position : Nat} {next : List Char → Except Fault (List Char)} {fault : Fault}
    (h : ((rewrite phrases inner).bind fun index => (lowered index position).bind next) = .error fault) :
    rewrite phrases inner = .error fault ∨ ∃ written, rewrite phrases inner = .ok written ∧
      (lowered written position = .error fault ∨ ∃ low, lowered written position = .ok low ∧ next low = .error fault) := by
  cases hr : rewrite phrases inner with
  | error fault' =>
    rw [hr] at h
    obtain rfl := Except.error.inj h
    exact Or.inl rfl
  | ok written =>
    rw [hr] at h
    refine Or.inr ⟨written, rfl, ?_⟩
    cases hl : lowered written position with
    | error fault' =>
      simp only [Except.bind, hl] at h
      obtain rfl := Except.error.inj h
      exact Or.inl rfl
    | ok low =>
      simp only [Except.bind, hl] at h
      exact Or.inr ⟨low, rfl, h⟩

theorem not_belowOne_of_lowered {written low : List Char} {position : Nat} (hr : rewrite phrases inner = .ok written)
    (hl : lowered written position = .ok low) : ¬BelowOne phrases inner := by
  rintro ⟨other, n, ho, hint, hlow, hless⟩
  obtain rfl := Except.ok.inj (hr.symm.trans ho)
  cases hl.symm.trans (lowered_eq_error_iff.mpr ⟨n, hint, hlow, hless, rfl⟩)

/-- The rewriting of an index fails in its content, where the content is a number below one, or behind it. -/
theorem index_eq_error_iff {position : Nat} {next : List Char → Except Fault (List Char)} {behind : Prop}
    (hcontent : (∃ fault, rewrite phrases inner = .error fault) ↔ HasBelowOne phrases [] inner)
    (hnext : ∀ index, (∃ fault, next index = .error fault) ↔ behind) :
    (∃ fault, ((rewrite phrases inner).bind fun index => (lowered index position).bind next) = .error fault) ↔
      BelowOne phrases inner ∨ HasBelowOne phrases [] inner ∨ behind := by
  cases hr : rewrite phrases inner with
  | error fault => exact iff_of_true ⟨fault, rfl⟩ (Or.inr (Or.inl (hcontent.mp ⟨fault, hr⟩)))
  | ok index =>
    have hnot : ¬HasBelowOne phrases [] inner := by
      rw [← hcontent, hr]
      exact nofun
    have hbelow : BelowOne phrases inner ↔ ∃ fault, lowered index position = .error fault := by
      simp [BelowOne, hr, lowered_eq_error_iff]
    rw [hbelow, or_iff_right hnot]
    cases hl : lowered index position with
    | error fault => exact iff_of_true ⟨fault, by simp [Except.bind, hl]⟩ (Or.inl ⟨fault, rfl⟩)
    | ok low =>
      rw [or_iff_right nofun, ← hnext low]
      simp [Except.bind, hl]

/-- From a place where no word goes on the scan fails for one of the two reasons. -/
theorem scan_eq_error_iff (hp : ∀ phrase ∈ phrases, phrase.IsApart) (h : Trail before out text) :
    (∃ fault, scan phrases before out text = .error fault) ↔
      Mode.outside.after text ≠ .outside ∨ HasBelowOne phrases before.reverse text := by
  induction h using Trail.induct hp with
  | done before out =>
    rw [scan, or_iff_right (fun hmode => hmode rfl)]
    refine iff_of_false ?_ not_hasBelowOne_nil
    rintro ⟨fault, he⟩
    cases he
  | part before out read written rest _ _ passes closed flat ih =>
    have hreverse : (read.reverse ++ before).reverse = before.reverse ++ read := by simp
    rw [passes, Mode.after_append, closed, hasBelowOne_flat closed flat, ← hreverse]
    exact ih
  | index before out inner rest _ opens opening matched hcontent hbehind =>
    rw [List.reverse_nil, or_iff_right fun hmode => hmode (after_of_closes matched)] at hcontent
    rw [scan_index opens (bracket?_of_closes matched _), after_index matched, hasBelowOne_index opening matched, or_left_comm,
      or_left_comm (a := Mode.outside.after rest ≠ .outside)]
    refine index_eq_error_iff hcontent fun written => ?_
    have hreverse : ('[' :: inner ++ [']']).reverse ++ before = (before.reverse ++ '[' :: (inner ++ [']'])).reverse := by
      simp
    rw [hbehind written, hreverse, List.reverse_reverse]
  | unclosed before out rest _ hl =>
    exact iff_of_true ⟨_, scan_unclosed hl⟩ (Or.inl (not_closed_of_literal?_eq_none hl ['"']))

theorem not_hasBelowOne_of_rewrite (hp : ∀ phrase ∈ phrases, phrase.IsApart) {written : List Char}
    (hr : rewrite phrases inner = .ok written) : ¬HasBelowOne phrases [] inner := by
  intro hbelow
  obtain ⟨fault, hf⟩ := (scan_eq_error_iff hp (Trail.start inner)).mpr (Or.inr hbelow)
  cases hr.symm.trans hf

theorem after_of_unclosed (hp : ∀ phrase ∈ phrases, phrase.IsApart) (h : Trail before out text) {position : Nat}
    (hs : scan phrases before out text = .error (.unclosedLiteral position)) : Mode.outside.after text ≠ .outside := by
  induction h using Trail.induct hp with
  | done before out =>
    rw [scan] at hs
    cases hs
  | part before out read written rest _ _ passes closed _ ih =>
    rw [passes] at hs
    rw [Mode.after_append, closed]
    exact ih hs
  | index before out inner rest _ opens _ matched hcontent hbehind =>
    rw [scan_index opens (bracket?_of_closes matched _)] at hs
    rw [after_index matched]
    rcases index_error hs with hr | ⟨written, -, hl | ⟨low, -, hs⟩⟩
    · exact absurd (after_of_closes matched) (hcontent hr)
    · obtain ⟨n, -, -, -, hfault⟩ := lowered_eq_error_iff.mp hl
      cases hfault
    · exact hbehind low hs
  | unclosed before out rest _ hl => exact not_closed_of_literal?_eq_none hl ['"']

/-! ## The built-in registry -/

/-- A rule is refused for a literal without an end or for an index below one, at whatever depth, and for nothing
    else; a literal is blamed only if the rule itself leaves one open, never within the brackets of an index. -/
theorem translate_eq_error_iff (rule : String) :
    ((∃ fault, translate .builtin rule = .error fault) ↔
        IsUnclosed rule.toList ∨ HasBelowOne (Phrase.ofRegistry .builtin) [] rule.toList) ∧
      (∀ position, translate .builtin rule = .error (.unclosedLiteral position) → IsUnclosed rule.toList) ∧
      ∀ before inner after position, IndexAt [] rule.toList before inner after →
        translate .builtin (String.ofList inner) ≠ .error (.unclosedLiteral position) := by
  have hp : ∀ phrase ∈ Phrase.ofRegistry .builtin, phrase.IsApart := by
    rw [phrases_builtin]
    exact isApart_builtin
  have hfault : ∀ (text : String) (fault : Fault), translate .builtin text = .error fault ↔
      scan (Phrase.ofRegistry .builtin) [] [] text.toList = .error fault := by
    intro text fault
    rw [translate, rewrite]
    cases scan (Phrase.ofRegistry .builtin) [] [] text.toList <;> simp [Except.map]
  have hblamed : ∀ (text : String) (position : Nat), translate .builtin text = .error (.unclosedLiteral position) →
      Mode.outside.after text.toList ≠ .outside := by
    intro text position h
    exact after_of_unclosed hp (.start _) ((hfault text _).mp h)
  refine ⟨?_, fun position h => isUnclosed_iff.mpr (hblamed rule position h), ?_⟩
  · simp only [hfault]
    rw [scan_eq_error_iff hp (.start _), isUnclosed_iff, List.reverse_nil]
  · intro before inner after position hat h
    have hopen := hblamed _ position h
    rw [String.toList_ofList] at hopen
    exact hopen (after_of_closes hat.matched)

end Rulebook.Feel
