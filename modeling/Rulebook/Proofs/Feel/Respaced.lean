/-
  Rulebook.Proofs.Feel.Respaced — which blanks stand in a rule does not matter.

  Outside of literals a run of blanks may be any other run: line breaks, tabs, one space or
  many. Two texts that become the same once each such run is one space are rewritten to texts
  that become the same, or both of them are refused (`translate_respaced`).

  Texts that differ in their runs only are related part by part (`Alike`, `alike_iff`), and
  each reader of the rewriting respects the relation: what it finds in one text it finds in
  the other, and what is left is related again. Two runs of the scan are so kept side by
  side. What stands before them is the same or blank in both (`SameFirst`), and what they
  have written says the same of a bracket (`SameIndex`).
  - `Alike.find?`, `Alike.emptyCall?`, `Alike.bracket?`: names, calls and brackets.
  - `alike_lowered`: an index is trimmed and lowered alike.
  - `Part.respaced`: a part of one text is a part of the other, written alike.
  - `Rewritten.respaced`: so is the rest of the text.
-/

import Rulebook.Proofs.Feel.Parts
import Rulebook.Proofs.Feel.Plain
import Rulebook.Proofs.Feel.Trail

namespace Rulebook.Feel

open Rulebook.Text (isBlank isWordChar skipBlank firstInk trim trimEnd readInt64 IsWord)

/-! ## Texts that differ in their blanks -/

/-- A text with each run of blanks outside of literals made one space, read from a mode on. -/
def collapse : Mode → List Char → List Char
  | _, [] => []
  | mode, c :: rest =>
    if mode = .outside ∧ isBlank c = true then
      if rest.head?.any isBlank then collapse mode rest else ' ' :: collapse mode rest
    else c :: collapse (mode.next c) rest

/-- Texts with the same literals and the same ink outside of them, and blanks between the same parts. -/
inductive Alike : List Char → List Char → Prop where
  | nil : Alike [] []
  | unclosed {rest : List Char} (isOpen : literal? rest = none) : Alike ('"' :: rest) ('"' :: rest)
  | literal {content text text' : List Char} (closed : literal? (content ++ text) = some (content, text))
      (later : Alike text text') : Alike ('"' :: (content ++ text)) ('"' :: (content ++ text'))
  | ink {c : Char} {text text' : List Char} (blank : isBlank c = false) (quote : c ≠ '"') (later : Alike text text') :
      Alike (c :: text) (c :: text')
  | gap {gap gap' text text' : List Char} (ne : gap ≠ []) (ne' : gap' ≠ []) (blank : ∀ c ∈ gap, isBlank c = true)
      (blank' : ∀ c ∈ gap', isBlank c = true) (later : Alike text text') : Alike (gap ++ text) (gap' ++ text')

variable {text text' more rest content left gap : List Char} {c : Char}

theorem collapse_inside (done : List Char) (c : Char) (text : List Char) :
    collapse (.inside done) (c :: text) = c :: collapse ((Mode.inside done).next c) text := by
  simp [collapse]

theorem collapse_ink (hb : isBlank c = false) (hq : c ≠ '"') (text : List Char) :
    collapse .outside (c :: text) = c :: collapse .outside text := by
  simp [collapse, hb, Mode.next, hq]

theorem collapse_gap (hn : gap ≠ []) (hg : ∀ c ∈ gap, isBlank c = true) (text : List Char) :
    collapse .outside (gap ++ text) =
      if text.head?.any isBlank then collapse .outside text else ' ' :: collapse .outside text := by
  induction gap with
  | nil => exact absurd rfl hn
  | cons c gap ih =>
    have hc := hg c (List.mem_cons_self ..)
    rw [List.cons_append, collapse, if_pos ⟨rfl, hc⟩]
    cases gap with
    | nil => rfl
    | cons d gap =>
      have hd : isBlank d = true := hg d (by simp)
      rw [if_pos (show ((d :: gap) ++ text).head?.any isBlank = true from hd)]
      exact ih (List.cons_ne_nil _ _) fun e he => hg e (List.mem_cons_of_mem _ he)

theorem IsContent.collapse (h : IsContent content) (rest done : List Char) :
    collapse (.inside done) (content ++ rest) = content ++ collapse .outside rest := by
  induction h generalizing done with
  | quote => rfl
  | @escaped c content _ ih =>
    show '\\' :: c :: Feel.collapse (.inside (c :: '\\' :: done)) (content ++ rest) = _
    rw [ih]
    rfl
  | char quote escape _ ih => rw [List.cons_append, List.cons_append, collapse_inside, Mode.next_char quote escape, ih]

theorem collapse_literal (h : literal? text = some (content, left)) (done : List Char) :
    collapse (.inside done) text = content ++ collapse .outside left := by
  rw [← literal?_append h, (isContent_of_literal? h).collapse]

theorem collapse_unclosed (h : literal? text = none) (done : List Char) : collapse (.inside done) text = text := by
  fun_induction literal? text generalizing done with
  | case1 => rfl
  | case2 => cases h
  | case3 => rfl
  | case4 d after hq ih =>
    have hlater : collapse (.inside (d :: '\\' :: done)) after = after := ih (Option.map_eq_none_iff.mp h) _
    show '\\' :: d :: collapse (.inside (d :: '\\' :: done)) after = _
    rw [hlater]
  | case5 c after hq hb ih =>
    rw [collapse_inside, Mode.next_char hq hb, ih (Option.map_eq_none_iff.mp h)]

/-- Places of two texts at which the same character stands, or blanks, or nothing. -/
def SameFirst (first first' : Option Char) : Prop :=
  first = first' ∨ first.any isBlank = true ∧ first'.any isBlank = true

theorem SameFirst.any_eq {first first' : Option Char} (h : SameFirst first first') {p : Char → Bool}
    (hp : ∀ c, isBlank c = true → p c = false) : first'.any p = first.any p := by
  have hblank : ∀ first : Option Char, first.any isBlank = true → first.any p = false := by
    rintro (_ | c) hc
    · rfl
    · exact hp c hc
  rcases h with rfl | ⟨hb, hb'⟩
  · rfl
  · rw [hblank _ hb, hblank _ hb']

theorem SameFirst.eq_some_iff {first first' : Option Char} (h : SameFirst first first') {c : Char} (hc : isBlank c = false) :
    first' = some c ↔ first = some c := by
  rcases h with rfl | ⟨hb, hb'⟩
  · rfl
  · refine iff_of_false ?_ ?_
    · rintro rfl
      cases hc.symm.trans hb'
    · rintro rfl
      cases hc.symm.trans hb

theorem Alike.head? (h : Alike text text') : SameFirst text.head? text'.head? := by
  cases h with
  | nil => exact Or.inl rfl
  | unclosed => exact Or.inl rfl
  | literal => exact Or.inl rfl
  | ink => exact Or.inl rfl
  | gap ne ne' blank blank' later =>
    obtain ⟨c, gap, rfl⟩ := List.exists_cons_of_ne_nil ne
    obtain ⟨d, gap', rfl⟩ := List.exists_cons_of_ne_nil ne'
    exact Or.inr ⟨blank c (List.mem_cons_self ..), blank' d (List.mem_cons_self ..)⟩

theorem Alike.collapse_eq (h : Alike text text') : collapse .outside text = collapse .outside text' := by
  induction h with
  | nil => rfl
  | unclosed => rfl
  | @literal content text text' closed _ ih =>
    show '"' :: collapse (.inside ['"']) (content ++ text) = '"' :: collapse (.inside ['"']) (content ++ text')
    rw [collapse_literal closed, collapse_literal (literal?_front closed text'), ih]
  | ink blank quote _ ih => rw [collapse_ink blank quote, collapse_ink blank quote, ih]
  | gap ne ne' blank blank' later ih =>
    rw [collapse_gap ne blank, collapse_gap ne' blank', ih]
    rcases later.head? with he | ⟨hb, hb'⟩
    · rw [he]
    · rw [if_pos hb, if_pos hb']

theorem collapse_eq_nil (h : collapse .outside text = []) : text = [] := by
  induction text with
  | nil => rfl
  | cons c text ih =>
    rw [collapse] at h
    split at h
    · split at h
      · rename_i hb
        rw [ih h] at hb
        cases hb
      · cases h
    · cases h

theorem exists_gap (h : text.head?.any isBlank = true) : ∃ gap rest, text = gap ++ rest ∧ gap ≠ [] ∧
    (∀ c ∈ gap, isBlank c = true) ∧ rest.head?.any isBlank = false := by
  refine ⟨text.takeWhile isBlank, skipBlank text, (Text.takeWhile_append_skip text).symm, ?_,
    List.all_eq_true.mp List.all_takeWhile, Text.head?_skipBlank text⟩
  cases text with
  | nil => cases h
  | cons c text => simp [show isBlank c = true from h]

theorem collapse_run (hn : gap ≠ []) (hg : ∀ c ∈ gap, isBlank c = true) (hr : rest.head?.any isBlank = false) :
    collapse .outside (gap ++ rest) = ' ' :: collapse .outside rest := by
  rw [collapse_gap hn hg, hr]
  rfl

theorem collapse_cons (hb : isBlank c = false) (text : List Char) :
    collapse .outside (c :: text) = c :: collapse (Mode.outside.next c) text := by
  simp [collapse, hb]

theorem any_head?_collapse (text : List Char) :
    (collapse .outside text).head?.any isBlank = text.head?.any isBlank := by
  cases hb : text.head?.any isBlank with
  | true =>
    obtain ⟨gap, rest, rfl, hn, hg, hr⟩ := exists_gap hb
    rw [collapse_run hn hg hr]
    rfl
  | false =>
    cases text with
    | nil => rfl
    | cons c text => rw [collapse_cons hb, ← hb]; rfl

/-- Where a literal begins in two texts that are collapsed alike, it ends alike in both or in none. -/
theorem literal?_of_collapse (h : collapse (.inside ['"']) text = collapse (.inside ['"']) text') :
    literal? text = none ∧ text = text' ∨ ∃ content left left', text' = content ++ left' ∧
      literal? text = some (content, left) ∧ collapse .outside left = collapse .outside left' := by
  cases hl : literal? text with
  | none =>
    rw [collapse_unclosed hl] at h
    cases hl' : literal? text' with
    | none =>
      rw [collapse_unclosed hl'] at h
      exact Or.inl ⟨rfl, h⟩
    | some cut =>
      rw [collapse_literal hl'] at h
      rw [h, literal?_front hl'] at hl
      cases hl
  | some cut =>
    obtain ⟨content, left⟩ := cut
    rw [collapse_literal hl] at h
    cases hl' : literal? text' with
    | none =>
      rw [collapse_unclosed hl'] at h
      rw [← h, literal?_front hl] at hl'
      cases hl'
    | some cut' =>
      obtain ⟨content', left'⟩ := cut'
      rw [collapse_literal hl'] at h
      have hsame := literal?_front hl (collapse .outside left)
      rw [h, literal?_front hl'] at hsame
      obtain ⟨rfl, hleft⟩ := Prod.mk.inj (Option.some.inj hsame)
      exact Or.inr ⟨content', left, left', (literal?_append hl').symm, rfl, hleft.symm⟩

theorem alike_of_collapse (h : collapse .outside text = collapse .outside text') : Alike text text' := by
  -- a part may be many characters, so the induction is on how many are left
  induction hlength : text.length using Nat.strongRecOn generalizing text text' with
  | ind n ih =>
    subst hlength
    have hheads := any_head?_collapse text
    rw [h, any_head?_collapse] at hheads
    cases hb : text.head?.any isBlank with
    | true =>
      obtain ⟨gap, rest, rfl, hn, hg, hr⟩ := exists_gap hb
      obtain ⟨gap', rest', rfl, hn', hg', hr'⟩ := exists_gap (hheads.trans hb)
      rw [collapse_run hn hg hr, collapse_run hn' hg' hr'] at h
      have hshorter : rest.length < (gap ++ rest).length := by
        have hpos := List.length_pos_iff.mpr hn
        rw [List.length_append]
        omega
      exact .gap hn hn' hg hg' (ih _ hshorter (List.cons.inj h).2 rfl)
    | false =>
      cases text with
      | nil =>
        obtain rfl := collapse_eq_nil h.symm
        exact .nil
      | cons c text =>
        cases text' with
        | nil => exact absurd (collapse_eq_nil h) (List.cons_ne_nil _ _)
        | cons d text' =>
          rw [collapse_cons hb, collapse_cons (hheads.trans hb)] at h
          obtain ⟨rfl, h⟩ := List.cons.inj h
          by_cases hq : c = '"'
          · subst hq
            rcases literal?_of_collapse h with ⟨hl, rfl⟩ | ⟨content, left, left', rfl, hl, hleft⟩
            · exact .unclosed hl
            · obtain rfl := literal?_append hl
              exact .literal hl (ih _ (by simp only [List.length_cons, List.length_append]; omega) hleft rfl)
          · have hnext : Mode.outside.next c = .outside := by simp [Mode.next, hq]
            rw [hnext] at h
            exact .ink hb hq (ih _ (Nat.lt_succ_self _) h rfl)

theorem alike_iff : Alike text text' ↔ collapse .outside text = collapse .outside text' :=
  ⟨Alike.collapse_eq, alike_of_collapse⟩

theorem Alike.refl (text : List Char) : Alike text text := alike_iff.mpr rfl

theorem Alike.symm (h : Alike text text') : Alike text' text := alike_iff.mpr (alike_iff.mp h).symm

/-- Texts are alike if their parts are, and no literal is open between these. -/
theorem Alike.append {more' : List Char} (h : Alike text text') (hc : Mode.outside.after text = .outside)
    (hm : Alike more more') : Alike (text ++ more) (text' ++ more') := by
  induction h with
  | nil => exact hm
  | unclosed isOpen => exact absurd hc (not_closed_of_literal?_eq_none isOpen ['"'])
  | @literal content text text' closed later ih =>
    have hrest : Mode.outside.after text = .outside := by
      have hread : (Mode.inside ['"']).after (content ++ text) = .outside := hc
      rwa [Mode.after_append, (literal?_reads closed ['"']).1] at hread
    have hlater := Alike.literal (literal?_front closed (text ++ more)) (ih hrest)
    simpa using hlater
  | @ink c text text' blank quote later ih =>
    have hnext : Mode.outside.next c = .outside := by simp [Mode.next, quote]
    have hrest : (Mode.outside.next c).after text = .outside := hc
    rw [hnext] at hrest
    exact .ink blank quote (ih hrest)
  | gap ne ne' blank blank' later ih =>
    rw [Mode.after_append, (Unquoted.of_blank blank).reads.1] at hc
    rw [List.append_assoc, List.append_assoc]
    exact .gap ne ne' blank blank' (ih hc)

/-! ## Parts of alike texts -/

theorem Alike.exists_ink (h : Alike (c :: rest) text') (hb : isBlank c = false) (hq : c ≠ '"') :
    ∃ rest', text' = c :: rest' ∧ Alike rest rest' := by
  generalize hfull : c :: rest = full at h
  cases h with
  | nil => cases hfull
  | unclosed =>
    obtain ⟨rfl, -⟩ := List.cons.inj hfull
    exact absurd rfl hq
  | literal =>
    obtain ⟨rfl, -⟩ := List.cons.inj hfull
    exact absurd rfl hq
  | ink _ _ later =>
    obtain ⟨rfl, rfl⟩ := List.cons.inj hfull
    exact ⟨_, rfl, later⟩
  | gap ne _ blank _ _ =>
    obtain ⟨d, gap, rfl⟩ := List.exists_cons_of_ne_nil ne
    obtain ⟨rfl, -⟩ := List.cons.inj hfull
    cases hb.symm.trans (blank c (List.mem_cons_self ..))

theorem Alike.exists_word {word : List Char} (h : Alike (word ++ rest) text') (hw : ∀ c ∈ word, isWordChar c = true) :
    ∃ rest', text' = word ++ rest' ∧ Alike rest rest' := by
  induction word generalizing text' with
  | nil => exact ⟨text', rfl, h⟩
  | cons c word ih =>
    have hc := hw c (List.mem_cons_self ..)
    obtain ⟨left, rfl, hleft⟩ := h.exists_ink (Text.not_isBlank_of_isWordChar hc) (Text.ne_of_class hc (by decide))
    obtain ⟨rest', rfl, hrest⟩ := ih hleft fun d hd => hw d (List.mem_cons_of_mem _ hd)
    exact ⟨rest', rfl, hrest⟩

theorem Alike.exists_literal (h : Alike ('"' :: (content ++ rest)) text')
    (hl : literal? (content ++ rest) = some (content, rest)) :
    ∃ rest', text' = '"' :: (content ++ rest') ∧ Alike rest rest' := by
  generalize hfull : '"' :: (content ++ rest) = full at h
  cases h with
  | nil => cases hfull
  | unclosed isOpen =>
    obtain ⟨-, rfl⟩ := List.cons.inj hfull
    cases hl.symm.trans isOpen
  | literal closed later =>
    obtain ⟨-, hsame⟩ := List.cons.inj hfull
    rw [hsame, closed] at hl
    obtain ⟨rfl, rfl⟩ := Prod.mk.inj (Option.some.inj hl)
    exact ⟨_, rfl, later⟩
  | ink _ quote _ =>
    obtain ⟨rfl, -⟩ := List.cons.inj hfull
    exact absurd rfl quote
  | gap ne _ blank _ _ =>
    obtain ⟨d, gap, rfl⟩ := List.exists_cons_of_ne_nil ne
    obtain ⟨rfl, -⟩ := List.cons.inj hfull
    cases blank '"' (List.mem_cons_self ..)

theorem Alike.skip (h : Alike text text') : Alike (skipBlank text) (skipBlank text') := by
  induction h with
  | nil => exact .nil
  | unclosed isOpen =>
    rw [Text.skipBlank_cons (by decide)]
    exact .unclosed isOpen
  | literal closed later _ =>
    rw [Text.skipBlank_cons (by decide), Text.skipBlank_cons (by decide)]
    exact .literal closed later
  | ink blank quote later _ =>
    rw [Text.skipBlank_cons blank, Text.skipBlank_cons blank]
    exact .ink blank quote later
  | gap _ _ blank blank' _ ih =>
    rw [Text.skipBlank_gap blank, Text.skipBlank_gap blank']
    exact ih

theorem Alike.firstInk_eq (h : Alike text text') : firstInk text' = firstInk text := by
  rcases h.skip.head? with he | ⟨hb, -⟩
  · exact he.symm
  · cases hb.symm.trans (Text.head?_skipBlank text)

theorem Alike.exists_gap (h : Alike (gap ++ rest) text') (hn : gap ≠ []) (hg : ∀ c ∈ gap, isBlank c = true)
    (hr : rest.head?.any isBlank = false) : ∃ gap' rest', text' = gap' ++ rest' ∧ gap' ≠ [] ∧
      (∀ c ∈ gap', isBlank c = true) ∧ Alike rest rest' := by
  have hskip := h.skip
  rw [Text.skipBlank_gap hg, Text.skipBlank_eq_self hr] at hskip
  have hblank : text'.head?.any isBlank = true := by
    obtain ⟨c, gap, rfl⟩ := List.exists_cons_of_ne_nil hn
    have hc : isBlank c = true := hg c (List.mem_cons_self ..)
    rcases h.head? with he | ⟨-, hb⟩
    · rw [← he]
      exact hc
    · exact hb
  obtain ⟨gap', rest', rfl, hn', hg', hr'⟩ := Feel.exists_gap hblank
  rw [Text.skipBlank_gap hg', Text.skipBlank_eq_self hr'] at hskip
  exact ⟨gap', rest', rfl, hn', hg', hskip⟩

/-! ## Looking ahead -/

theorem Alike.exists_spaced {ws : List (List Char)} {read : List Char} (hs : Spaced ws read)
    (hw : ∀ word ∈ ws, IsWord word) (h : Alike (read ++ rest) text') :
    ∃ read' rest', text' = read' ++ rest' ∧ Spaced ws read' ∧ Alike rest rest' := by
  induction hs generalizing text' with
  | one word =>
    obtain ⟨rest', rfl, hrest⟩ := h.exists_word (hw word (List.mem_cons_self ..)).2
    exact ⟨word, rest', rfl, .one word, hrest⟩
  | @cons word gap words ws ne blank hs ih =>
    have hmore : ∀ w ∈ ws, IsWord w := fun w hm => hw w (List.mem_cons_of_mem _ hm)
    rw [List.append_assoc, List.append_assoc] at h
    obtain ⟨left, rfl, hleft⟩ := h.exists_word (hw word (List.mem_cons_self ..)).2
    have hink : (words ++ rest).head?.any isBlank = false := by
      obtain ⟨first, later, hfirst, rfl, -⟩ := hs.exists_first
      obtain ⟨c, more, rfl, hc, -⟩ := (hmore first (List.mem_of_head? hfirst)).exists_cons
      exact Text.not_isBlank_of_isWordChar (Text.isWordChar_of_isWordStart hc)
    obtain ⟨gap', left', rfl, ne', blank', hleft'⟩ := hleft.exists_gap ne blank hink
    obtain ⟨read', rest', rfl, hread, hrest⟩ := ih hmore hleft'
    exact ⟨word ++ (gap' ++ read'), rest', by simp, .cons word ne' blank' hread, hrest⟩

/-- What is left of two texts: texts that are alike, behind parts with the same end. -/
def LeftAlike (text text' rest rest' : List Char) : Prop :=
  Alike rest rest' ∧ ∃ read read', text = read ++ rest ∧ text' = read' ++ rest' ∧ read'.getLast? = read.getLast?

theorem exists_of_rel {α β : Type} {r : α → β → Prop} {a : α} {found : Option β} (h : Option.Rel r (some a) found) :
    ∃ b, found = some b ∧ r a b := by
  cases h with
  | some hr => exact ⟨_, rfl, hr⟩

theorem eq_none_of_rel {α β : Type} {r : α → β → Prop} {found : Option β} (h : Option.Rel r none found) : found = none := by
  cases h
  rfl

/-- A reader that finds in each of two alike texts what it finds in the other finds it in both or in neither. -/
theorem rel_of_found {reader : List Char → Option (List Char)} (h : Alike text text')
    (hr : ∀ {text text' left : List Char}, Alike text text' → reader text = some left →
      ∃ left', reader text' = some left' ∧ LeftAlike text text' left left') :
    Option.Rel (LeftAlike text text') (reader text) (reader text') := by
  cases hfound : reader text with
  | some left =>
    obtain ⟨left', hfound', hleft⟩ := hr h hfound
    rw [hfound']
    exact .some hleft
  | none =>
    cases hfound' : reader text' with
    | none => exact .none
    | some left' =>
      obtain ⟨left, hleft, -⟩ := hr h.symm hfound'
      cases hfound.symm.trans hleft

theorem Alike.after? {phrase : Phrase} (hp : phrase.words ≠ [] ∧ ∀ word ∈ phrase.words, IsWord word)
    (h : Alike text text') : Option.Rel (LeftAlike text text') (phrase.after? text) (phrase.after? text') := by
  have hink : ∀ word ∈ phrase.words, Text.IsInk word := fun word hm => (hp.2 word hm).isInk
  refine rel_of_found h fun {text text' left} h ha => ?_
  obtain ⟨⟨read, rfl, hs⟩, hwhole, hopen⟩ := (Phrase.after?_eq_some_iff hp.1 hink).mp ha
  obtain ⟨read', left', rfl, hs', hleft⟩ := Alike.exists_spaced hs hp.2 h
  have hlast := hs.getLast?_eq hs' fun word hm => (hink word hm).1
  refine ⟨left', (Phrase.after?_eq_some_iff hp.1 hink).mpr ⟨⟨read', rfl, hs'⟩, ?_, ?_⟩, hleft, read, read', rfl, rfl, hlast⟩
  · rwa [hleft.head?.any_eq fun c => Text.not_isWordChar_of_isBlank]
  · rwa [hleft.firstInk_eq]

/-- A name of several words is called at the front of both texts or of neither. -/
theorem Alike.find? {phrases : List Phrase}
    (hp : ∀ phrase ∈ phrases, phrase.words ≠ [] ∧ ∀ word ∈ phrase.words, IsWord word) (h : Alike text text') :
    Option.Rel (fun found found' => found.1 = found'.1 ∧ LeftAlike text text' found.2 found'.2)
      (Phrase.find? phrases text) (Phrase.find? phrases text') := by
  induction phrases with
  | nil => exact .none
  | cons phrase phrases ih =>
    have hrest := ih fun other hm => hp other (List.mem_cons_of_mem _ hm)
    have hfirst := h.after? (hp phrase (List.mem_cons_self ..))
    unfold Phrase.find? at hrest ⊢
    rw [List.findSome?_cons, List.findSome?_cons]
    generalize phrase.after? text = found at hfirst
    generalize phrase.after? text' = found' at hfirst
    cases hfirst with
    | none => exact hrest
    | some hleft => exact .some ⟨rfl, hleft⟩

theorem Alike.emptyCall? (h : Alike text text') :
    Option.Rel (LeftAlike text text') (emptyCall? text) (emptyCall? text') := by
  refine rel_of_found h fun {text text' after} h hc => ?_
  obtain ⟨gap, inner, hcall, hgap, hinner⟩ := exists_of_emptyCall hc
  have hopen := h.skip
  rw [hcall, Text.skipBlank_gap hgap, Text.skipBlank_cons (by decide)] at hopen
  obtain ⟨left, hleft, hopen⟩ := hopen.exists_ink (by decide) (by decide)
  have hclose := hopen.skip
  rw [Text.skipBlank_gap hinner, Text.skipBlank_cons (by decide)] at hclose
  obtain ⟨after', hafter, hclose⟩ := hclose.exists_ink (by decide) (by decide)
  have hc' : Feel.emptyCall? text' = some after' := by simp [Feel.emptyCall?, hleft, hafter]
  obtain ⟨call, rfl, -⟩ := exists_emptyCall hc
  obtain ⟨call', rfl, -⟩ := exists_emptyCall hc'
  have hlast : call'.getLast? = call.getLast? := by rw [getLast?_of_emptyCall hc, getLast?_of_emptyCall hc']
  exact ⟨after', hc', hclose, call, call', rfl, rfl, hlast⟩

/-- Brackets are closed alike with texts in front of them that keep their insides alike. -/
theorem rel_map_front {cut cut' : Option (List Char × List Char)} {front front' : List Char → List Char}
    (h : Option.Rel (fun cut cut' => Alike cut.1 cut'.1 ∧ Alike cut.2 cut'.2) cut cut')
    (hf : ∀ inner inner', Alike inner inner' → Alike (front inner) (front' inner')) :
    Option.Rel (fun cut cut' => Alike cut.1 cut'.1 ∧ Alike cut.2 cut'.2)
      (cut.map fun (inner, after) => (front inner, after)) (cut'.map fun (inner, after) => (front' inner, after)) := by
  cases h with
  | none => exact .none
  | some hcut => exact .some ⟨hf _ _ hcut.1, hcut.2⟩

/-- A bracket is closed in both texts or in neither. -/
theorem Alike.bracket? (h : Alike text text') (depth : Nat) :
    Option.Rel (fun cut cut' => Alike cut.1 cut'.1 ∧ Alike cut.2 cut'.2) (bracket? depth text) (bracket? depth text') := by
  induction h generalizing depth with
  | nil =>
    rw [bracket?.eq_def]
    exact .none
  | @unclosed rest isOpen =>
    have hnone : Feel.bracket? depth ('"' :: rest) = none := by
      cases hb : Feel.bracket? depth ('"' :: rest) with
      | none => rfl
      | some cut =>
        rw [bracket?.eq_def] at hb
        simp only [if_true] at hb
        split at hb
        · cases hb
        · rename_i hl
          cases isOpen.symm.trans hl
    rw [hnone]
    exact .none
  | @literal content text text' closed later ih =>
    rw [bracket?_literal depth closed, bracket?_literal depth (literal?_front closed text')]
    exact rel_map_front (ih depth) fun inner inner' hin => .literal (literal?_front closed inner) hin
  | @ink c text text' blank quote later ih =>
    by_cases ho : c = '['
    · subst ho
      rw [bracket?_open, bracket?_open]
      exact rel_map_front (ih _) fun inner inner' hin => .ink blank quote hin
    by_cases hc : c = ']'
    · subst hc
      cases depth with
      | zero =>
        rw [bracket?_close, bracket?_close]
        exact .some ⟨.nil, later⟩
      | succ depth =>
        rw [bracket?_close_succ, bracket?_close_succ]
        exact rel_map_front (ih depth) fun inner inner' hin => .ink blank quote hin
    · rw [bracket?_char depth quote ho hc, bracket?_char depth quote ho hc]
      exact rel_map_front (ih depth) fun inner inner' hin => .ink blank quote hin
  | @gap gap gap' text text' ne ne' blank blank' later ih =>
    have hclosed : ∀ {gap : List Char}, (∀ c ∈ gap, isBlank c = true) → Closed gap := fun hg =>
      .of_forall fun c hc => ⟨Text.ne_of_class (hg c hc) (by decide), Text.ne_of_class (hg c hc) (by decide),
        Text.ne_of_class (hg c hc) (by decide)⟩
    rw [hclosed blank, hclosed blank']
    exact rel_map_front (ih depth) fun inner inner' hin => .gap ne ne' blank blank' hin

/-! ## Indices -/

theorem index_append (inner rest : List Char) : '[' :: (inner ++ [']']) ++ rest = '[' :: (inner ++ ']' :: rest) := by simp

/-- Where an index stands in a text there is one in the other. -/
theorem Alike.exists_index {inner : List Char} (h : Alike ('[' :: (inner ++ [']']) ++ rest) text')
    (hm : closes .outside 0 inner = true) : ∃ inner' rest', text' = '[' :: (inner' ++ [']']) ++ rest' ∧
      closes .outside 0 inner' = true ∧ Alike inner inner' ∧ Alike rest rest' := by
  rw [index_append] at h
  obtain ⟨left', rfl, hleft⟩ := h.exists_ink rfl (by decide)
  have hcut := hleft.bracket? 0
  rw [bracket?_of_closes hm rest] at hcut
  obtain ⟨⟨inner', rest'⟩, hcut', hinner, hrest⟩ := exists_of_rel hcut
  obtain ⟨rfl, hm'⟩ := bracket?_eq_some_iff.mp hcut'
  exact ⟨inner', rest', (index_append inner' rest').symm, hm', hinner, hrest⟩

theorem Alike.index {low low' more' : List Char} (h : Alike low low') (hc : Mode.outside.after low = .outside)
    (hm : Alike more more') : Alike ('[' :: (low ++ [']']) ++ more) ('[' :: (low' ++ [']']) ++ more') := by
  rw [index_append, index_append]
  exact .ink rfl (by decide) (h.append hc (.ink rfl (by decide) hm))

theorem Alike.eq_nil (h : Alike [] text') : text' = [] := collapse_eq_nil h.collapse_eq.symm

theorem Alike.eq_of_ink (h : Alike text text') (hi : ∀ c ∈ text, isBlank c = false) : text = text' := by
  induction h with
  | nil => rfl
  | unclosed => rfl
  | literal closed later ih =>
    rw [ih fun c hc => hi c (List.mem_cons_of_mem _ (List.mem_append_right _ hc))]
  | ink blank quote later ih => rw [ih fun c hc => hi c (List.mem_cons_of_mem _ hc)]
  | gap ne _ blank _ _ _ =>
    obtain ⟨c, gap, rfl⟩ := List.exists_cons_of_ne_nil ne
    cases (hi c (by simp)).symm.trans (blank c (List.mem_cons_self ..))

theorem Alike.trimEnd (h : Alike text text') : Alike (trimEnd text) (trimEnd text') := by
  induction h with
  | nil => exact .nil
  | unclosed => exact .refl _
  | @literal content text text' closed later ih =>
    have hlast := getLast?_literal closed
    rw [← List.cons_append, ← List.cons_append, Text.trimEnd_append hlast (by decide),
      Text.trimEnd_append hlast (by decide)]
    exact .literal (literal?_front closed _) ih
  | @ink c text text' blank quote later ih =>
    have hlast : [c].getLast? = some c := rfl
    have htrim : ∀ rest, Text.trimEnd (c :: rest) = c :: Text.trimEnd rest := fun rest =>
      Text.trimEnd_append hlast blank
    rw [htrim, htrim]
    exact .ink blank quote ih
  | gap ne ne' blank blank' later ih =>
    rw [Text.trimEnd_gap blank, Text.trimEnd_gap blank']
    split
    · rename_i hn
      rw [hn] at ih
      rw [if_pos ih.eq_nil]
      exact .nil
    · rename_i hn
      rw [if_neg fun hn' => hn (hn' ▸ ih).symm.eq_nil]
      exact .gap ne ne' blank blank' ih

theorem Alike.trim (h : Alike text text') : Alike (trim text) (trim text') := h.skip.trimEnd

theorem not_isBlank_of_readInt64 {n : Int} (h : readInt64 text = .ok n) : ∀ c ∈ text, isBlank c = false := by
  intro c hc
  rcases Text.isDigit_of_readInt64 h c hc with hd | rfl | rfl
  · exact Text.not_isBlank_of_isWordChar (Text.isWordChar_of_isDigit hd)
  · decide
  · decide

/-- An index is lowered in both texts to the same number, or the two stay alike. -/
theorem alike_lowered {position : Nat} {low : List Char} (h : Alike text text')
    (hc : Mode.outside.after text = .outside) (hl : lowered text position = .ok low) :
    ∃ low', lowered text' position = .ok low' ∧ Alike low low' := by
  have htrim := h.trim
  have hnumber : ∀ {n : Int}, readInt64 (Text.trim text) = .ok n → readInt64 (Text.trim text') = .ok n := fun hn => by
    rwa [← htrim.eq_of_ink (not_isBlank_of_readInt64 hn)]
  have hnumber' : ∀ {n : Int}, readInt64 (Text.trim text') = .ok n → readInt64 (Text.trim text) = .ok n := fun hn => by
    rwa [← htrim.symm.eq_of_ink (not_isBlank_of_readInt64 hn)]
  have hquote : (Text.trim text').head? = some '"' ↔ (Text.trim text).head? = some '"' :=
    htrim.head?.eq_some_iff (by decide)
  rcases lowered_eq_ok_iff.mp hl with ⟨hq, rfl⟩ | ⟨n, hn, hone, rfl⟩ | ⟨hq, hn, rfl⟩
  · exact ⟨_, lowered_eq_ok_iff.mpr (Or.inl ⟨hquote.mpr hq, rfl⟩), htrim⟩
  · exact ⟨_, lowered_eq_ok_iff.mpr (Or.inr (Or.inl ⟨n, hnumber hn, hone, rfl⟩)), .refl _⟩
  · refine ⟨_, lowered_eq_ok_iff.mpr (Or.inr (Or.inr ⟨mt hquote.mp hq, fun n hn' => hn n (hnumber' hn'), rfl⟩)),
      .ink (by decide) (by decide) ?_⟩
    exact htrim.append (kept_trim hc).writtenClosed (.refl _)

/-! ## Looking behind -/

theorem SameFirst.continues_eq {previous previous' : Option Char} (h : SameFirst previous previous') :
    continues previous' = continues previous :=
  h.any_eq fun c hc => @continues_blank (some c) hc

theorem Alike.joinsOperator_eq {previous previous' : Option Char} (h : Alike text text')
    (hp : SameFirst previous previous') : joinsOperator previous' text' = joinsOperator previous text := by
  have hsame : ∀ {first first' : Option Char} {c : Char}, SameFirst first first' → isBlank c = false →
      (first' == some c) = (first == some c) := fun hf hc => by
    rw [Bool.eq_iff_iff, beq_iff_eq, beq_iff_eq]
    exact hf.eq_some_iff hc
  unfold joinsOperator
  rw [hsame hp (by decide), hsame hp (by decide), hsame hp (by decide), hsame hp (by decide), hsame h.head? (by decide)]

/-- What has been written of two texts, in reverse, says the same of a bracket, whatever is written behind it. -/
def SameIndex (out out' : List Char) : Prop := ∀ later, opensIndex (later ++ out) = opensIndex (later ++ out')

variable {out out' : List Char}

theorem SameIndex.append (h : SameIndex out out') (written : List Char) : SameIndex (written ++ out) (written ++ out') := by
  intro later
  rw [← List.append_assoc, ← List.append_assoc]
  exact h (later ++ written)

/-- What is no part of a word hides what stands before it. -/
theorem SameIndex.of_sign {c d : Char} (hc : isWordChar c = false) (hd : isWordChar d = false)
    (h : opensIndex (c :: out) = opensIndex (d :: out')) : SameIndex (c :: out) (d :: out') := by
  intro later
  rw [opensIndex_before_sign hc, opensIndex_before_sign hd, h]

theorem SameIndex.closed (out out' : List Char) : SameIndex (']' :: out) (']' :: out') := by
  refine .of_sign (by decide) (by decide) ?_
  rw [opensIndex_closing (Or.inr rfl), opensIndex_closing (Or.inr rfl)]

theorem SameIndex.blanks {gap' : List Char} (h : SameIndex out out') (hn : gap ≠ []) (hn' : gap' ≠ [])
    (hg : ∀ c ∈ gap, isBlank c = true) (hg' : ∀ c ∈ gap', isBlank c = true) : SameIndex (gap ++ out) (gap' ++ out') := by
  obtain ⟨c, gap, rfl⟩ := List.exists_cons_of_ne_nil hn
  obtain ⟨d, gap', rfl⟩ := List.exists_cons_of_ne_nil hn'
  have hc := Text.not_isWordChar_of_isBlank (hg c (List.mem_cons_self ..))
  have hd := Text.not_isWordChar_of_isBlank (hg' d (List.mem_cons_self ..))
  refine .of_sign hc hd ?_
  have hsame : opensIndex ((c :: gap) ++ out) = opensIndex ((d :: gap') ++ out') := by
    rw [opensIndex_gap hg, opensIndex_gap hg']
    exact h []
  exact hsame

/-! ## Parts -/

variable {phrases : List Phrase} {before before' read written : List Char}

/-- Where alike texts have been read to places alike, a part of one is a part of the other, with the same end,
    and written alike. -/
theorem Part.respaced (hp : ∀ phrase ∈ phrases, phrase.words ≠ [] ∧ ∀ word ∈ phrase.words, IsWord word)
    (h : Part phrases before out read written rest) (ha : Alike (read ++ rest) text')
    (hb : read.head?.any isBlank = false) (hf : SameFirst before.head? before'.head?) (ho : SameIndex out out') :
    ∃ read' rest', text' = read' ++ rest' ∧ read'.getLast? = read.getLast? ∧ Alike rest rest' ∧
      Part phrases before' out' read' written rest' := by
  cases h with
  | @literal content rest closed =>
    obtain ⟨rest', rfl, hrest⟩ := ha.exists_literal closed
    exact ⟨'"' :: content, rest', rfl, rfl, hrest, .literal (literal?_front closed rest')⟩
  | list unmatched =>
    rw [List.singleton_append] at ha
    obtain ⟨rest', rfl, hrest⟩ := ha.exists_ink rfl (by decide)
    refine ⟨['['], rest', rfl, rfl, hrest, .list fun hopens => ?_⟩
    have hcut := hrest.bracket? 0
    rw [unmatched ((ho []).trans hopens)] at hcut
    exact eq_none_of_rel hcut
  | equals =>
    rw [List.singleton_append] at ha
    obtain ⟨rest', rfl, hrest⟩ := ha.exists_ink rfl (by decide)
    rw [← hrest.joinsOperator_eq hf]
    exact ⟨['='], rest', rfl, rfl, hrest, .equals⟩
  | @copied c rest copied =>
    have hq : c ≠ '"' := by
      rintro rfl
      cases copied
    obtain ⟨rest', rfl, hrest⟩ := ha.exists_ink hb hq
    refine ⟨[c], rest', rfl, rfl, hrest, .copied ?_⟩
    rwa [isCopied, hf.continues_eq]
  | phrase starts free found =>
    have hfound := ha.find? hp
    rw [found] at hfound
    obtain ⟨⟨identifier', rest'⟩, found', rfl, hrest, own, read', hown, rfl, hlast⟩ := exists_of_rel hfound
    rw [← List.append_cancel_right hown] at hlast
    refine ⟨read', rest', rfl, hlast, hrest, .phrase ?_ (by rwa [hf.continues_eq]) found'⟩
    have hne : read ≠ [] := by
      rintro rfl
      cases starts
    have hne' : read' ≠ [] := fun hn => hne (List.getLast?_eq_none_iff.mp (hlast.symm.trans (hn ▸ rfl)))
    have hhead := ha.head?.any_eq fun c => Text.not_isWordStart_of_isBlank
    obtain ⟨c, more, rfl⟩ := List.exists_cons_of_ne_nil hne
    obtain ⟨d, more', rfl⟩ := List.exists_cons_of_ne_nil hne'
    exact hhead.trans starts
  | word name free whole unnamed uncalled =>
    obtain ⟨rest', rfl, hrest⟩ := ha.exists_word name.2
    have hfound := ha.find? hp
    rw [unnamed] at hfound
    have htext : wordText read rest' = wordText read rest := by rw [wordText, wordText, hrest.firstInk_eq]
    rw [← htext]
    refine ⟨read, rest', rfl, rfl, hrest, .word name (by rwa [hf.continues_eq]) ?_ (eq_none_of_rel hfound) fun hnow => ?_⟩
    · rwa [hrest.head?.any_eq fun c => Text.not_isWordChar_of_isBlank]
    · have hcall := hrest.emptyCall?
      rw [uncalled hnow] at hcall
      exact eq_none_of_rel hcall
  | @clock call rest free unnamed empty =>
    rw [List.append_assoc] at ha
    obtain ⟨left', rfl, hleft⟩ := ha.exists_word (by decide)
    have hfound := ha.find? hp
    rw [unnamed] at hfound
    have hcall := hleft.emptyCall?
    rw [empty] at hcall
    obtain ⟨rest', empty', hrest, own, call', hown, rfl, hlast⟩ := exists_of_rel hcall
    rw [← List.append_cancel_right hown] at hlast
    refine ⟨"now".toList ++ call', rest', by simp, ?_, hrest, .clock (by rwa [hf.continues_eq]) (eq_none_of_rel hfound) empty'⟩
    rw [List.getLast?_append, List.getLast?_append, hlast]

/-! ## Rules -/

/-- What stands behind a part does not tell the places apart if the parts end alike. -/
theorem SameFirst.behind {read' : List Char} (h : SameFirst before.head? before'.head?)
    (hl : read'.getLast? = read.getLast?) : SameFirst (read.reverse ++ before).head? (read'.reverse ++ before').head? := by
  rw [List.head?_append, List.head?_append, List.head?_reverse, List.head?_reverse, hl]
  cases read.getLast? with
  | none => exact h
  | some c => exact Or.inl rfl

theorem passes_gap (hg : ∀ c ∈ gap, isBlank c = true) : Passes phrases before out gap gap rest :=
  .signs fun c hc => isCopied_blank (hg c hc)

/-- Of alike texts one is rewritten as the other is, if what stands before them is alike. -/
theorem Rewritten.respaced (hq : ∀ phrase ∈ phrases, phrase.Unquoted)
    (hp : ∀ phrase ∈ phrases, phrase.words ≠ [] ∧ ∀ word ∈ phrase.words, IsWord word)
    (h : Rewritten phrases before out text more) (ha : Alike text text') (hf : SameFirst before.head? before'.head?)
    (ho : SameIndex out out') : ∃ more', Rewritten phrases before' out' text' more' ∧ Alike more more' := by
  -- a run of blanks is gone over at once, as the two runs may be of different lengths
  induction hlength : text.length using Nat.strongRecOn generalizing text text' more before before' out out' with
  | ind n ih =>
    subst hlength
    cases hb : text.head?.any isBlank with
    | true =>
      obtain ⟨gap, rest, rfl, hn, hg, hr⟩ := exists_gap hb
      obtain ⟨gap', rest', rfl, hn', hg', hrest⟩ := ha.exists_gap hn hg hr
      obtain ⟨later, rfl, hlater⟩ := (passes_gap hg).rewritten_iff.mp h
      have hshorter : rest.length < (gap ++ rest).length := by
        have hpos := List.length_pos_iff.mpr hn
        rw [List.length_append]
        omega
      have hblank : SameFirst (gap.reverse ++ before).head? (gap'.reverse ++ before').head? :=
        Or.inr ⟨Text.any_head?_behind_gap hn hg before, Text.any_head?_behind_gap hn' hg' before'⟩
      have hindex : SameIndex (gap.reverse ++ out) (gap'.reverse ++ out') :=
        ho.blanks (List.reverse_ne_nil_iff.mpr hn) (List.reverse_ne_nil_iff.mpr hn')
          (fun c hc => hg c (List.mem_reverse.mp hc)) fun c hc => hg' c (List.mem_reverse.mp hc)
      obtain ⟨later', hlater', halike⟩ := ih _ hshorter hlater hrest hblank hindex rfl
      exact ⟨gap' ++ later', (passes_gap hg').rewritten_iff.mpr ⟨later', rfl, hlater'⟩, .gap hn hn' hg hg' halike⟩
    | false =>
      cases h with
      | done =>
        obtain rfl := ha.eq_nil
        exact ⟨[], .done, .nil⟩
      | @part _ _ read written rest more part next =>
        obtain ⟨c, tail, rfl⟩ := List.exists_cons_of_ne_nil part.ne_nil
        obtain ⟨read', rest', rfl, hlast, hrest, part'⟩ := part.respaced hp ha hb hf ho
        have hshorter : rest.length < (c :: tail ++ rest).length := by
          simp only [List.length_append, List.length_cons]
          omega
        obtain ⟨more', hmore', halike⟩ := ih _ hshorter next hrest (hf.behind hlast) (ho.append written.reverse) rfl
        exact ⟨written ++ more', .part part' hmore', .append (.refl written) (part.kept hq).writtenClosed halike⟩
      | @index _ _ inner index low rest more opens matched inside lower next =>
        obtain ⟨inner', rest', rfl, matched', hinner, hrest⟩ := ha.exists_index matched
        have hlengths : inner.length < ('[' :: (inner ++ [']']) ++ rest).length ∧
            rest.length < ('[' :: (inner ++ [']']) ++ rest).length := by
          simp only [List.length_append, List.length_cons]
          omega
        -- inside the brackets nothing has been read or written yet
        obtain ⟨index', inside', hindex⟩ := ih _ hlengths.1 inside hinner (Or.inl rfl) (fun _ => rfl) rfl
        have hclosed := (inside.kept hq).writtenClosed
        obtain ⟨low', lower', hlow⟩ := alike_lowered hindex hclosed (lower 0)
        have hbehind : SameFirst (('[' :: (inner ++ [']'])).reverse ++ before).head?
            (('[' :: (inner' ++ [']'])).reverse ++ before').head? := Or.inl (by simp)
        have hwritten : SameIndex (('[' :: (low ++ [']'])).reverse ++ out) (('[' :: (low' ++ [']'])).reverse ++ out') := by
          simpa using SameIndex.closed (low.reverse ++ '[' :: out) (low'.reverse ++ '[' :: out')
        obtain ⟨more', next', hmore⟩ := ih _ hlengths.2 next hrest hbehind hwritten rfl
        exact ⟨'[' :: (low' ++ [']']) ++ more',
          .index ((ho []).symm.trans opens) matched' inside' (lowered_anywhere lower') next',
          hlow.index (kept_lowered hclosed (lower 0)).writtenClosed hmore⟩

/-- Rules that differ in their runs of blanks outside of literals are both refused, or are rewritten to texts that
    differ in such runs only. -/
theorem translate_respaced {rule rule' : String} (h : collapse .outside rule.toList = collapse .outside rule'.toList) :
    ((∃ fault, translate .builtin rule = .error fault) ∧ ∃ fault, translate .builtin rule' = .error fault) ∨
      ∃ text text', translate .builtin rule = .ok text ∧ translate .builtin rule' = .ok text' ∧
        collapse .outside text.toList = collapse .outside text'.toList := by
  have hfound : ∀ {rule rule' text : String}, Alike rule.toList rule'.toList → translate .builtin rule = .ok text →
      ∃ text', translate .builtin rule' = .ok text' ∧ Alike text.toList text'.toList := by
    intro rule rule' text ha ht
    have hrewritten := translate_eq_ok_iff.mp ht
    rw [phrases_builtin] at hrewritten
    obtain ⟨more', hmore, halike⟩ := hrewritten.respaced unquoted_builtin isWord_builtin ha (Or.inl rfl) fun _ => rfl
    refine ⟨String.ofList more', translate_eq_ok_iff.mpr ?_, ?_⟩
    · rwa [phrases_builtin, String.toList_ofList]
    · rwa [String.toList_ofList]
  have ha := alike_iff.mpr h
  cases ht : translate .builtin rule with
  | ok text =>
    obtain ⟨text', ht', halike⟩ := hfound ha ht
    exact Or.inr ⟨text, text', rfl, ht', alike_iff.mp halike⟩
  | error fault =>
    cases ht' : translate .builtin rule' with
    | ok text' =>
      obtain ⟨text, hok, -⟩ := hfound ha.symm ht'
      cases ht.symm.trans hok
    | error fault' => exact Or.inl ⟨⟨fault, rfl⟩, fault', rfl⟩

def oneLine : String := "xs[ is report valid (\"a  b\") ] = now ( )"

def manyLines : String := "xs[\n  is report\n\tvalid  (\"a  b\")\t]\n=  now\n(\t)"

theorem translate_oneLine : translate .builtin oneLine = .ok "xs[(is_report_valid (\"a  b\")) - 1] == now" := by
  have hname : Passes builtinPhrases [] [] ['x', 's'] ['x', 's']
      ('[' :: (" is report valid (\"a  b\") ".toList ++ [']']) ++ (" = now ( )".toList ++ [])) :=
    .of_step (by cbv) rfl
  have hindex : Passes builtinPhrases ['s', 'x'] ['s', 'x'] ('[' :: (" is report valid (\"a  b\") ".toList ++ [']']))
      ('[' :: ("(is_report_valid (\"a  b\")) - 1".toList ++ [']'])) (" = now ( )".toList ++ []) :=
    .of_index (by cbv) (bracket?_of_closes (by decide) _) (by cbv) (by cbv)
  have htail : ∀ before out, Passes builtinPhrases (']' :: before) (']' :: out) " = now ( )".toList " == now".toList [] := by
    intro before out
    unfold Passes
    cbv
  exact translate_of_passes ((hname.append hindex).append (htail _ _))

theorem translate_respaced_lines :
    collapse .outside oneLine.toList = collapse .outside manyLines.toList ∧
      ∃ text, translate .builtin manyLines = .ok text ∧
        collapse .outside "xs[(is_report_valid (\"a  b\")) - 1] == now".toList = collapse .outside text.toList := by
  have hsame : collapse .outside oneLine.toList = collapse .outside manyLines.toList := by decide
  refine ⟨hsame, ?_⟩
  rcases translate_respaced hsame with ⟨⟨fault, hfault⟩, -⟩ | ⟨text, text', ht, ht', he⟩
  · cases translate_oneLine.symm.trans hfault
  · obtain rfl := Except.ok.inj (translate_oneLine.symm.trans ht)
    exact ⟨text', ht', he⟩

end Rulebook.Feel
