/-
  Rulebook.Proofs.Feel.Literals — the string literals of a text, and texts that keep them.

  What a literal is does not depend on how rules are rewritten: a reader takes one
  character at a time and knows whether it stands outside of literals, inside of one, or
  behind a backslash in one (`Mode`). A text is `Kept` as another if a reader that starts
  outside is outside again after each of them and has met the same literals, in order.
  - `literal?_reads`: a literal that the scan finds is read to its end, and it is the one met.
  - `kept_lowered`: trimming and lowering an index leave its literals.
  - `exists_emptyCall`, `kept_phrase`: the brackets of the clock and the words of a name hold
    no quote.
-/

import Rulebook.Proofs.Feel.Place
import Rulebook.Proofs.Feel.Spaced

namespace Rulebook.Feel

open Rulebook.Text (isBlank isWordChar trim decimal numeral)

/-! ## Reading literals -/

/-- Where a reader stands, with what it has read of a literal in reverse. -/
inductive Mode where
  | outside
  | inside (done : List Char)
  | escaped (done : List Char)
  deriving DecidableEq, Repr

namespace Mode

def next : Mode → Char → Mode
  | .outside, c => if c = '"' then .inside [c] else .outside
  | .inside done, c => if c = '"' then .outside else if c = '\\' then .escaped (c :: done) else .inside (c :: done)
  | .escaped done, c => .inside (c :: done)

def ended : Mode → Char → List (List Char)
  | .inside done, c => if c = '"' then [(c :: done).reverse] else []
  | _, _ => []

def after (mode : Mode) (text : List Char) : Mode := text.foldl next mode

theorem after_append (mode : Mode) (xs ys : List Char) : mode.after (xs ++ ys) = (mode.after xs).after ys :=
  List.foldl_append

end Mode

def literalsFrom (mode : Mode) : List Char → List (List Char)
  | [] => []
  | c :: rest => mode.ended c ++ literalsFrom (mode.next c) rest

def literals (text : List Char) : List (List Char) := literalsFrom .outside text

theorem literalsFrom_append (mode : Mode) (xs ys : List Char) :
    literalsFrom mode (xs ++ ys) = literalsFrom mode xs ++ literalsFrom (mode.after xs) ys := by
  induction xs generalizing mode with
  | nil => rfl
  | cons c xs ih =>
    simp only [List.cons_append, literalsFrom, ih, List.append_assoc]
    rfl

def Unquoted (text : List Char) : Prop := ∀ c ∈ text, c ≠ '"'

instance (text : List Char) : Decidable (Unquoted text) := inferInstanceAs (Decidable (∀ c ∈ text, c ≠ '"'))

theorem Unquoted.append {xs ys : List Char} (hx : Unquoted xs) (hy : Unquoted ys) : Unquoted (xs ++ ys) := by
  intro c hc
  rcases List.mem_append.mp hc with hc | hc
  · exact hx c hc
  · exact hy c hc

theorem Unquoted.of_blank {text : List Char} (h : ∀ c ∈ text, isBlank c = true) : Unquoted text := by
  intro c hc
  exact Text.ne_of_class (h c hc) (by decide)

theorem Unquoted.of_word {text : List Char} (h : ∀ c ∈ text, isWordChar c = true) : Unquoted text := by
  intro c hc
  exact Text.ne_of_class (h c hc) (by decide)

theorem Unquoted.reads {text : List Char} (h : Unquoted text) :
    Mode.outside.after text = .outside ∧ literals text = [] := by
  induction text with
  | nil => exact ⟨rfl, rfl⟩
  | cons c text ih =>
    have hc : Mode.outside.next c = .outside := by simp [Mode.next, h c (by simp)]
    obtain ⟨ha, hl⟩ := ih fun d hd => h d (by simp [hd])
    refine ⟨?_, ?_⟩
    · show (Mode.outside.next c).after text = .outside
      rw [hc, ha]
    · show literalsFrom (Mode.outside.next c) text = []
      rw [hc]
      exact hl

theorem Unquoted.eq_outside {text : List Char} (h : Unquoted text) {mode : Mode} (ha : mode.after text = .outside) :
    mode = .outside := by
  induction text generalizing mode with
  | nil => exact ha
  | cons c text ih =>
    have hnext : mode.next c = .outside := ih (fun d hd => h d (by simp [hd])) ha
    have hc : c ≠ '"' := h c (by simp)
    cases mode with
    | outside => rfl
    | inside done =>
      simp only [Mode.next, if_neg hc] at hnext
      split at hnext <;> cases hnext
    | escaped done => cases hnext

theorem Mode.next_char {c : Char} (hq : c ≠ '"') (hb : c ≠ '\\') (done : List Char) :
    (Mode.inside done).next c = .inside (c :: done) := by
  simp [Mode.next, hq, hb]

theorem IsContent.reads {content : List Char} (h : IsContent content) (done : List Char) :
    (Mode.inside done).after content = .outside ∧ literalsFrom (.inside done) content = [done.reverse ++ content] := by
  induction h generalizing done with
  | quote => exact ⟨rfl, by simp [literalsFrom, Mode.ended]⟩
  | @escaped c content _ ih =>
    obtain ⟨ha, hl⟩ := ih (c :: '\\' :: done)
    refine ⟨ha, ?_⟩
    show literalsFrom (.inside (c :: '\\' :: done)) content = _
    rw [hl]
    simp
  | @char c content quote escape _ ih =>
    obtain ⟨ha, hl⟩ := ih (c :: done)
    refine ⟨?_, ?_⟩
    · show ((Mode.inside done).next c).after content = .outside
      rw [Mode.next_char quote escape, ha]
    · show (Mode.inside done).ended c ++ literalsFrom ((Mode.inside done).next c) content = _
      rw [Mode.next_char quote escape, hl]
      simp [Mode.ended, quote]

/-- The rest of a literal is read to its end, where the literal has been met. -/
theorem literal?_reads {text content left : List Char} (h : literal? text = some (content, left)) (done : List Char) :
    (Mode.inside done).after content = .outside ∧ literalsFrom (.inside done) content = [done.reverse ++ content] :=
  (isContent_of_literal? h).reads done

theorem IsContent.after_ne_outside {lead tail : List Char} (h : IsContent (lead ++ tail)) (ht : tail ≠ [])
    (done : List Char) : (Mode.inside done).after lead ≠ .outside := by
  generalize hc : lead ++ tail = content at h
  induction h generalizing lead done with
  | quote =>
    cases lead with
    | nil => exact nofun
    | cons c lead => exact absurd (List.append_eq_nil_iff.mp (List.cons.inj hc).2).2 ht
  | escaped c _ ih =>
    cases lead with
    | nil => exact nofun
    | cons d lead =>
      obtain ⟨rfl, hmore⟩ := List.cons.inj hc
      cases lead with
      | nil => exact nofun
      | cons e lead =>
        obtain ⟨rfl, htail⟩ := List.cons.inj hmore
        show (Mode.inside (e :: '\\' :: done)).after lead ≠ .outside
        exact ih _ htail
  | @char c _ quote escape _ ih =>
    cases lead with
    | nil => exact nofun
    | cons d lead =>
      obtain ⟨rfl, hmore⟩ := List.cons.inj hc
      show ((Mode.inside done).next d).after lead ≠ .outside
      rw [Mode.next_char quote escape]
      exact ih _ hmore

/-- A reader in a literal that has no end stays in it. -/
theorem not_closed_of_literal?_eq_none {text : List Char} (h : literal? text = none) (done : List Char) :
    (Mode.inside done).after text ≠ .outside := by
  fun_induction literal? text generalizing done with
  | case1 => exact Mode.noConfusion
  | case2 => cases h
  | case3 => exact Mode.noConfusion
  | case4 d rest hq ih => exact ih (Option.map_eq_none_iff.mp h) (d :: '\\' :: done)
  | case5 c rest hq hb ih =>
    show ((Mode.inside done).next c).after rest ≠ .outside
    rw [Mode.next_char hq hb]
    exact ih (Option.map_eq_none_iff.mp h) (c :: done)

/-! ## Texts that keep their literals -/

variable {text written : List Char}

/-- A text for which another is written that holds the same literals, with none open at the end of either. -/
structure Kept (text written : List Char) : Prop where
  closed : Mode.outside.after text = .outside
  writtenClosed : Mode.outside.after written = .outside
  same : literals written = literals text

theorem Kept.unquoted (ht : Unquoted text) (hw : Unquoted written) : Kept text written where
  closed := ht.reads.1
  writtenClosed := hw.reads.1
  same := by rw [ht.reads.2, hw.reads.2]

theorem Kept.literal {rest content left : List Char} (h : literal? rest = some (content, left)) :
    Kept ('"' :: content) ('"' :: content) := by
  have hclosed : Mode.outside.after ('"' :: content) = .outside := (literal?_reads h ['"']).1
  exact ⟨hclosed, hclosed, rfl⟩

theorem Kept.append {more written' : List Char} (h : Kept text written) (h' : Kept more written') :
    Kept (text ++ more) (written ++ written') where
  closed := by rw [Mode.after_append, h.closed, h'.closed]
  writtenClosed := by rw [Mode.after_append, h.writtenClosed, h'.writtenClosed]
  same := by
    have ht : literals (text ++ more) = literals text ++ literals more := by
      rw [literals, literalsFrom_append, h.closed]
      rfl
    have hw : literals (written ++ written') = literals written ++ literals written' := by
      rw [literals, literalsFrom_append, h.writtenClosed]
      rfl
    rw [ht, hw, h.same, h'.same]

theorem Kept.trans {later : List Char} (h : Kept text written) (h' : Kept written later) : Kept text later where
  closed := h.closed
  writtenClosed := h'.writtenClosed
  same := h'.same.trans h.same

/-- A text is kept between others that have no quotes. -/
theorem Kept.between {lead lead' tail tail' : List Char} (h : Kept text written) (hl : Unquoted lead)
    (hl' : Unquoted lead') (ht : Unquoted tail) (ht' : Unquoted tail') :
    Kept (lead ++ (text ++ tail)) (lead' ++ (written ++ tail')) :=
  (Kept.unquoted hl hl').append (h.append (.unquoted ht ht'))

/-! ## Lowering an index -/

theorem kept_trim (h : Mode.outside.after text = .outside) : Kept text (trim text) := by
  obtain ⟨lead, tail, ht, hl, hr⟩ := Text.exists_trim text
  have hlead : Unquoted lead := .of_blank hl
  have htail : Unquoted tail := .of_blank hr
  have hclosed : Mode.outside.after (trim text) = .outside := by
    rw [ht, Mode.after_append, hlead.reads.1, Mode.after_append] at h
    exact htail.eq_outside h
  have hself : Kept (trim text) (trim text) := ⟨hclosed, hclosed, rfl⟩
  have hnil : Unquoted [] := by decide
  have hkept : Kept (lead ++ (trim text ++ tail)) ([] ++ (trim text ++ [])) := hself.between hlead hnil htail hnil
  rwa [← ht, List.append_nil, List.nil_append] at hkept

theorem unquoted_decimal (n : Int) : Unquoted (decimal n) := by
  intro c hc
  rcases Text.isDigit_of_mem_decimal hc with hd | rfl
  · exact Text.ne_of_class hd (by decide)
  · decide

theorem unquoted_of_readInt64 {n : Int} (h : Text.readInt64 text = .ok n) : Unquoted text := by
  intro c hc
  rcases Text.isDigit_of_readInt64 h c hc with hd | rfl | rfl
  · exact Text.ne_of_class hd (by decide)
  · decide
  · decide

theorem kept_lowered {position : Nat} (h : Mode.outside.after text = .outside)
    (hl : lowered text position = .ok written) : Kept text written := by
  have htrim := kept_trim h
  have hself : Kept (trim text) (trim text) := ⟨htrim.writtenClosed, htrim.writtenClosed, rfl⟩
  refine htrim.trans ?_
  rcases lowered_eq_ok_iff.mp hl with ⟨-, rfl⟩ | ⟨n, hn, -, rfl⟩ | ⟨-, -, rfl⟩
  · exact hself
  · exact .unquoted (unquoted_of_readInt64 hn) (unquoted_decimal (n - 1))
  · have hnil : Unquoted [] := by decide
    have hkept := hself.between hnil (by decide : Unquoted ['(']) hnil (by decide : Unquoted ") - 1".toList)
    rwa [List.append_nil] at hkept

/-! ## Calls -/

variable {phrases : List Phrase} {after : List Char}

theorem exists_emptyCall (h : emptyCall? text = some after) : ∃ read, text = read ++ after ∧ Unquoted read := by
  obtain ⟨gap, inner, htext, hgap, hinner⟩ := exists_of_emptyCall h
  refine ⟨gap ++ '(' :: (inner ++ [')']), by rw [htext]; simp, ?_⟩
  have hcall : Unquoted ('(' :: (inner ++ [')'])) :=
    Unquoted.append (by decide : Unquoted ['(']) ((Unquoted.of_blank hinner).append (by decide : Unquoted [')']))
  exact (Unquoted.of_blank hgap).append hcall

def Phrase.Unquoted (phrase : Phrase) : Prop :=
  (∀ word ∈ phrase.words, Feel.Unquoted word) ∧ Feel.Unquoted phrase.identifier

instance (phrase : Phrase) : Decidable phrase.Unquoted := inferInstanceAs (Decidable (_ ∧ _))

theorem unquoted_builtin : ∀ phrase ∈ builtinPhrases, phrase.Unquoted := by decide

theorem exists_afterWords {words : List (List Char)} (hw : ∀ word ∈ words, Unquoted word)
    (h : afterWords? words text = some after) : ∃ read, text = read ++ after ∧ Unquoted read := by
  by_cases hn : words = []
  · subst hn
    obtain rfl : text = after := by simpa [afterWords?] using h
    exact ⟨[], rfl, by decide⟩
  · obtain ⟨read, hread, hs⟩ := exists_spaced hn h
    exact ⟨read, hread, hs.forall_mem hw fun c hc => Text.ne_of_class hc (by decide)⟩

/-- What is read of a called name is kept as the identifier that is written for it. -/
theorem kept_phrase {identifier : List Char} (hp : ∀ phrase ∈ phrases, phrase.Unquoted)
    (h : Phrase.find? phrases text = some (identifier, after)) :
    ∃ read, text = read ++ after ∧ Kept read identifier := by
  obtain ⟨phrase, hm, ha, rfl⟩ := exists_of_find? h
  obtain ⟨read, hread, hr⟩ := exists_afterWords (hp phrase hm).1 (Phrase.after?_iff.mp ha).1
  exact ⟨read, hread, .unquoted hr (hp phrase hm).2⟩

end Rulebook.Feel
