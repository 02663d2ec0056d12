/-
  Rulebook.Proofs.Feel.Trail — what has been read of a rule and what has been written.

  At each place of a rule where no word goes on, what has been written says of a bracket
  what the rule itself says (`Trail`). One lemma for each kind of part carries this over
  the part (`Trail.next_part`). So the scan goes through a rule from one such place to the
  next (`Trail.next`): over a part in which no index opens, into an index, or to a literal
  that is not closed. A word that is copied character by character is one part here, since
  no place is left within it. What is proved of whole rules is proved along these places
  (`Trail.induct`).
-/

import Rulebook.Proofs.Feel.Behind
import Rulebook.Proofs.Feel.Parts
import Rulebook.Proofs.Feel.Place

namespace Rulebook.Feel

open Rulebook.Text (isBlank isWordStart isWordChar skipBlank firstInk leadingWord afterWord IsWord)

/-! ## What is read and what is written -/

variable {before out read written rest word call : List Char} {c : Char}

/-- What has been read and what has been written, both in reverse, at a place where no word goes on. -/
structure Trail (before out rest : List Char) : Prop where
  whole : before.head?.any isWordChar = true → rest.head?.any isWordChar = false
  agrees : firstInk rest ≠ some '(' → (opensIndex out = true ↔ OpensIndex before.reverse)
  /-- No word has just been written but the clock, whose brackets have been left out. -/
  behind : before.head?.any isWordChar = false →
    out.head?.any isWordChar = false ∧ ¬EndsInClock before.reverse ∨
      EndsInClock before.reverse ∧ ∃ more, out = 'w' :: 'o' :: 'n' :: more
  uncut : Uncut before.reverse rest

theorem Trail.start (rest : List Char) : Trail [] [] rest where
  whole := by intro h; cases h
  agrees := by simp [opensIndex, skipBlank, not_opensIndex_nil]
  behind := by
    refine fun _ => Or.inl ⟨rfl, fun h => ?_⟩
    cases h.getLast?
  uncut := .nil rest

theorem Trail.free (h : Trail before out (c :: rest)) (hc : isWordChar c = true) : before.head?.any isWordChar = false := by
  cases hb : before.head?.any isWordChar with
  | false => rfl
  | true => cases (h.whole hb).symm.trans hc

/-- What is read and written ends with the same ink, which is part of no word. -/
theorem Trail.ink (h : Trail before out (read ++ c :: rest)) (hb : isBlank c = false) (hw : isWordChar c = false)
    (hclose : c = ')' → read = []) (huncut : Uncut (before.reverse ++ (read ++ [c])) rest) (written : List Char) :
    Trail ((read ++ [c]).reverse ++ before) ((written ++ [c]).reverse ++ out) rest := by
  have hbefore : ((read ++ [c]).reverse ++ before).reverse = before.reverse ++ read ++ [c] := by simp
  have hout : (written ++ [c]).reverse ++ out = c :: (written.reverse ++ out) := by simp
  refine ⟨?_, fun _ => ?_, fun _ => Or.inl ⟨?_, fun hclock => ?_⟩, ?_⟩
  · simp [hw]
  · rw [hbefore, hout, opensIndex_append_sign hb hw]
    by_cases hc : c = ')' ∨ c = ']'
    · exact iff_of_true (opensIndex_closing hc _) hc
    · refine iff_of_false ?_ hc
      rw [opensIndex_sign hb (not_or.mp hc) hw]
      decide
  · rw [hout]
    simp [hw]
  · -- a call that ends here would have been cut before its last bracket
    have hlast := hclock.getLast?
    rw [hbefore, List.getLast?_concat] at hlast
    obtain rfl := Option.some.inj hlast
    obtain rfl := hclose rfl
    obtain ⟨lead, call, he, hcall, hc⟩ := hclock
    obtain ⟨part, rfl⟩ : ∃ part, call = part ++ [')'] := List.getLast?_eq_some_iff.mp hcall.getLast?
    rw [hbefore, List.append_nil, ← List.append_assoc] at he
    have hfront := List.append_cancel_right he
    have hne : part ≠ [] := by
      rintro rfl
      obtain ⟨gap, inner, hcall, -⟩ := hcall
      cases hcall
    have hle := h.uncut lead part (part ++ [')']) rest hfront hne (by simp) hcall hc
    rw [List.length_append] at hle
    exact absurd hle (by simp)
  · rwa [hbefore, List.append_assoc]

theorem Trail.sign (h : Trail before out (c :: rest)) (hb : isBlank c = false) (hw : isWordChar c = false)
    (written : List Char) : Trail ([c].reverse ++ before) ((written ++ [c]).reverse ++ out) rest := by
  have h' : Trail before out ([] ++ c :: rest) := h
  exact h'.ink hb hw (fun _ => rfl) (h.uncut.char hw) written

theorem Trail.index {inner : List Char} (h : Trail before out ('[' :: (inner ++ ']' :: rest))) (written : List Char) :
    Trail (('[' :: inner ++ [']']).reverse ++ before) (('[' :: written ++ [']']).reverse ++ out) rest := by
  have h' : Trail before out ('[' :: inner ++ ']' :: rest) := h
  exact h'.ink rfl rfl nofun (h'.uncut.sign rfl (by decide)) ('[' :: written)

theorem Trail.blank (h : Trail before out (c :: rest)) (hb : isBlank c = true) : Trail (c :: before) (c :: out) rest := by
  have hw : isWordChar c = false := by
    cases hw : isWordChar c with
    | false => rfl
    | true => cases hb.symm.trans (Text.not_isBlank_of_isWordChar hw)
  have hink : firstInk (c :: rest) = firstInk rest := by simp [firstInk, skipBlank, hb]
  refine ⟨?_, fun hf => ?_, fun _ => Or.inl ⟨?_, fun hclock => ?_⟩, ?_⟩
  · simp [hw]
  · rw [opensIndex_blank hb, List.reverse_cons, opensIndex_append_blank hb]
    exact h.agrees (by rwa [hink])
  · simp [hw]
  · have hlast := hclock.getLast?
    rw [List.reverse_cons, List.getLast?_concat] at hlast
    obtain rfl := Option.some.inj hlast
    cases hb
  · rw [List.reverse_cons]
    exact h.uncut.char hw

/-- Right behind the clock every word takes an index. -/
theorem opensIndex_clock (hw : ∀ d ∈ word, isWordChar d = true) (out : List Char) :
    opensIndex (word.reverse ++ 'w' :: 'o' :: 'n' :: out) = true := by
  have hlead : (word.reverse ++ 'w' :: 'o' :: 'n' :: out).takeWhile isWordChar =
      word.reverse ++ 'w' :: 'o' :: 'n' :: out.takeWhile isWordChar := by
    rw [List.takeWhile_append_of_pos fun d hd => hw d (List.mem_reverse.mp hd)]
    rfl
  have hlist : ∀ lead ∈ listWords, 'w' ∉ lead := by decide
  cases hr : word.reverse ++ 'w' :: 'o' :: 'n' :: out with
  | nil => simp at hr
  | cons d more =>
    have hd : isWordChar d = true := by
      cases hrev : word.reverse with
      | nil =>
        rw [hrev] at hr
        obtain ⟨rfl, -⟩ := List.cons.inj hr
        decide
      | cons e tail =>
        rw [hrev] at hr
        obtain ⟨rfl, -⟩ := List.cons.inj hr
        exact hw e (List.mem_reverse.mp (by rw [hrev]; exact List.mem_cons_self ..))
    have hclose : ¬(d = ')' ∨ d = ']') := by
      rintro (rfl | rfl)
      · cases hd
      · cases hd
    rw [hr] at hlead
    simp only [opensIndex, Text.skipBlank_cons (Text.not_isBlank_of_isWordChar hd), if_neg hclose, hd, if_true, hlead]
    rw [Bool.not_eq_true', List.contains_eq_mem, decide_eq_false_iff_not]
    intro hm
    exact hlist _ hm (by simp)

theorem head?_append_word (hn : word ≠ []) (hw : ∀ d ∈ word, isWordChar d = true) (before : List Char) :
    (word.reverse ++ before).head?.any isWordChar = true := by
  cases hr : word.reverse with
  | nil => exact absurd (List.reverse_eq_nil_iff.mp hr) hn
  | cons d more => simpa using hw d (List.mem_reverse.mp (by rw [hr]; exact List.mem_cons_self ..))

theorem Trail.copied (h : Trail before out (word ++ rest)) (hn : word ≠ []) (hw : ∀ d ∈ word, isWordChar d = true)
    (hr : rest.head?.any isWordChar = false)
    (hoperator : word = "and".toList ∨ word = "or".toList → before.head? = some '.')
    (hnow : word = "now".toList → continues before.head? = false → emptyCall? rest = none) :
    Trail (word.reverse ++ before) (word.reverse ++ out) rest := by
  have hbefore : (word.reverse ++ before).reverse = before.reverse ++ word := by simp
  have hhead := head?_append_word hn hw before
  have hfree : before.head?.any isWordChar = false := by
    obtain ⟨d, more, rfl⟩ := List.exists_cons_of_ne_nil hn
    exact h.free (hw d (List.mem_cons_self ..))
  have hlast : before.reverse.getLast? = before.head? := List.getLast?_reverse
  refine ⟨fun _ => hr, fun _ => ?_, fun hf => ?_, ?_⟩
  · rw [hbefore, opensIndex_append_word hn hw (by rwa [hlast])]
    unfold TakesIndex
    rw [hlast]
    rcases h.behind hfree with ⟨hout, hclock⟩ | ⟨hclock, more, rfl⟩
    · rw [opensIndex_word hn hw hout]
      simp only [Bool.not_eq_true', List.contains_eq_mem, decide_eq_false_iff_not]
      exact ⟨fun hm => ⟨hoperator, fun hm' => absurd hm' hm⟩, fun ht hm => hclock (ht.2 hm)⟩
    · exact iff_of_true (opensIndex_clock hw more) ⟨hoperator, fun _ => hclock⟩
  · cases hf.symm.trans hhead
  · rw [hbefore]
    exact h.uncut.whole hw hr (by rwa [hlast])

theorem Trail.operator (h : Trail before out (word ++ rest)) (hword : word = "and".toList ∨ word = "or".toList)
    (hr : rest.head?.any isWordChar = false) (hc : continues before.head? = false) (hb : isBlank c = false)
    (hs : isWordChar c = false) (hclose : c ≠ ')' ∧ c ≠ ']') :
    Trail (word.reverse ++ before) ([c, c].reverse ++ out) rest := by
  have hbefore : (word.reverse ++ before).reverse = before.reverse ++ word := by simp
  have hn : word ≠ [] := by rcases hword with rfl | rfl <;> decide
  have hw : ∀ d ∈ word, isWordChar d = true := by rcases hword with rfl | rfl <;> decide
  have hlast : before.reverse.getLast? = before.head? := List.getLast?_reverse
  have hfree : before.head?.any isWordChar = false ∧ before.head? ≠ some '.' := by
    cases hd : before.head? with
    | none => simp
    | some d =>
      rw [hd] at hc
      simpa [continues] using hc
  refine ⟨fun _ => hr, fun _ => ?_, fun hf => ?_, ?_⟩
  · rw [hbefore, opensIndex_append_word hn hw (by rw [hlast]; exact hfree.1)]
    refine iff_of_false ?_ fun ht => hfree.2 (hlast ▸ ht.1 hword)
    rw [show [c, c].reverse ++ out = c :: c :: out from rfl, opensIndex_sign hb hclose hs]
    decide
  · cases hf.symm.trans (head?_append_word hn hw before)
  · rw [hbefore]
    refine h.uncut.whole hw hr fun hnow => ?_
    rcases hword with rfl | rfl <;> cases hnow

/-- Where arguments must follow there is no index, whatever is written. -/
theorem Trail.called (huncut : Uncut (before.reverse ++ read) rest) (hl : read.getLast? = some c)
    (hc : isWordChar c = true) (hr : rest.head?.any isWordChar = false) (hopen : firstInk rest = some '(')
    (out : List Char) : Trail (read.reverse ++ before) out rest := by
  have hhead : (read.reverse ++ before).head?.any isWordChar = true := by
    rw [List.head?_append, List.head?_reverse, hl]
    exact hc
  refine ⟨fun _ => hr, fun hf => absurd hopen hf, fun hf => ?_, ?_⟩
  · cases hf.symm.trans hhead
  · simpa using huncut

theorem Trail.clock (h : Trail before out (call ++ rest)) (hcall : IsClockCall call)
    (hc : continues before.head? = false) : Trail (call.reverse ++ before) ("now".toList.reverse ++ out) rest := by
  have hbefore : (call.reverse ++ before).reverse = before.reverse ++ call := by simp
  obtain ⟨init, hinit⟩ := List.getLast?_eq_some_iff.mp hcall.getLast?
  have hends : EndsInClock (before.reverse ++ call) :=
    ⟨before.reverse, call, rfl, hcall, by rwa [List.getLast?_reverse]⟩
  refine ⟨fun hf => ?_, fun _ => ?_, fun _ => Or.inr ⟨by rwa [hbefore], out, rfl⟩, ?_⟩
  · rw [List.head?_append, List.head?_reverse, hcall.getLast?] at hf
    cases hf
  · rw [hbefore, hinit, ← List.append_assoc, opensIndex_append_sign (by decide) (by decide)]
    have hnil : ∀ d ∈ ([] : List Char), isWordChar d = true := by simp
    exact iff_of_true (opensIndex_clock hnil out) (Or.inl rfl)
  · rw [hbefore]
    exact h.uncut.clock hcall

/-! ## The scan from place to place -/

variable {phrases : List Phrase} {text : List Char}

/-- No index opens outside of literals in what is read between `front` and `rest`. -/
def IsFlat (front read rest : List Char) : Prop :=
  ∀ lead tail inner after, read = lead ++ '[' :: tail → Mode.outside.after lead = .outside →
    tail ++ rest = inner ++ ']' :: after → closes .outside 0 inner = true → ¬OpensIndex (front ++ lead)

inductive Next (phrases : List Phrase) (before out : List Char) : List Char → Prop where
  | done : Next phrases before out []
  | part {read written rest : List Char} (ne : read ≠ []) (passes : Passes phrases before out read written rest)
      (trail : Trail (read.reverse ++ before) (written.reverse ++ out) rest)
      (closed : Mode.outside.after read = .outside) (flat : IsFlat before.reverse read rest) :
      Next phrases before out (read ++ rest)
  | index {inner rest : List Char} (opens : opensIndex out = true) (index : OpensIndex before.reverse)
      (matched : closes .outside 0 inner = true) : Next phrases before out ('[' :: (inner ++ ']' :: rest))
  | unclosed {rest : List Char} (h : literal? rest = none) : Next phrases before out ('"' :: rest)

theorem Next.bare (ne : read ≠ []) (hq : Unquoted read) (hb : '[' ∉ read)
    (passes : Passes phrases before out read written rest)
    (trail : Trail (read.reverse ++ before) (written.reverse ++ out) rest) : Next phrases before out (read ++ rest) := by
  refine .part ne passes trail hq.reads.1 fun lead tail _ _ hread => ?_
  exact absurd (by simp [hread]) hb

/-- A name of several words of word characters, none of which ends like the name of the clock. -/
def Phrase.IsApart (phrase : Phrase) : Prop :=
  phrase.words ≠ [] ∧ ∀ word ∈ phrase.words,
    word ≠ [] ∧ (∀ c ∈ word, isWordChar c = true) ∧ word.getLast? ≠ some 'w'

instance (phrase : Phrase) : Decidable phrase.IsApart := inferInstanceAs (Decidable (_ ∧ _))

theorem isApart_builtin : ∀ phrase ∈ builtinPhrases, phrase.IsApart := by decide

theorem Spaced.exists_last {ws : List (List Char)} (h : Spaced ws read) (hn : ∀ word ∈ ws, word ≠ []) :
    ∃ word ∈ ws, read.getLast? = word.getLast? := by
  induction h with
  | one word => exact ⟨word, List.mem_cons_self .., rfl⟩
  | cons word _ _ _ ih =>
    obtain ⟨last, hm, hl⟩ := ih fun other ho => hn other (List.mem_cons_of_mem _ ho)
    refine ⟨last, List.mem_cons_of_mem _ hm, ?_⟩
    cases hlast : last.getLast? with
    | none => exact absurd (List.getLast?_eq_none_iff.mp hlast) (hn last (List.mem_cons_of_mem _ hm))
    | some d => simp [List.getLast?_append, hl, hlast]

theorem Trail.next_literal {content : List Char} (closed : literal? (content ++ rest) = some (content, rest))
    (h : Trail before out ('"' :: content ++ rest)) : Next phrases before out ('"' :: content ++ rest) := by
  have hcontent := isContent_of_literal? closed
  obtain ⟨init, rfl⟩ := hcontent.exists_init
  have hread : '"' :: (init ++ ['"']) ++ rest = '"' :: init ++ '"' :: rest := by simp
  have hflat : IsFlat before.reverse ('"' :: (init ++ ['"'])) rest := by
    intro lead tail _ _ hread hmode
    cases lead with
    | nil => cases hread
    | cons d lead =>
      obtain ⟨rfl, hsplit⟩ := List.cons.inj hread
      rw [hsplit] at hcontent
      exact absurd hmode (hcontent.after_ne_outside (List.cons_ne_nil _ _) ['"'])
  have htrail : Trail (('"' :: (init ++ ['"'])).reverse ++ before) (('"' :: (init ++ ['"'])).reverse ++ out) rest := by
    rw [hread] at h
    exact h.ink (by decide) (by decide) nofun (h.uncut.sign (by decide) (by decide)) ('"' :: init)
  exact .part (List.cons_ne_nil _ _) (.literal closed) htrail (literal?_reads closed ['"']).1 hflat

/-- Of a bracket, what has been written says what the rule itself says. -/
theorem Trail.opens_iff (h : Trail before out ('[' :: rest)) : opensIndex out = true ↔ OpensIndex before.reverse := by
  have hink : firstInk ('[' :: rest) = some '[' := by rw [firstInk, Text.skipBlank_cons (by decide)]; rfl
  exact h.agrees (by rw [hink]; decide)

theorem Trail.next_list (unmatched : opensIndex out = true → bracket? 0 rest = none) (h : Trail before out ('[' :: rest)) :
    Next phrases before out ('[' :: rest) := by
  have hpass : Passes phrases before out ['['] ['['] rest := (Part.list unmatched).passes
  have hflat : IsFlat before.reverse ['['] rest := by
    intro lead tail inner after hread _ hrest hclosed hopens
    cases lead with
    | nil =>
      obtain ⟨-, rfl⟩ := List.cons.inj hread
      rw [List.append_nil] at hopens
      have hnone := unmatched (h.opens_iff.mpr hopens)
      rw [show rest = inner ++ ']' :: after from hrest, bracket?_of_closes hclosed] at hnone
      cases hnone
    | cons d lead =>
      obtain ⟨-, hnil⟩ := List.cons.inj hread
      exact absurd (List.append_eq_nil_iff.mp hnil.symm).2 (List.cons_ne_nil _ _)
  exact .part (List.cons_ne_nil _ _) hpass (h.sign (by decide) (by decide) []) rfl hflat

theorem Trail.next_equals (h : Trail before out ('=' :: rest)) : Next phrases before out ('=' :: rest) := by
  have hlast : (if joinsOperator before.head? rest then ['='] else ['=', '=']) =
      (if joinsOperator before.head? rest then [] else ['=']) ++ ['='] := by
    split <;> rfl
  have hpass : Passes phrases before out ['='] (if joinsOperator before.head? rest then ['='] else ['=', '=']) rest :=
    .equals
  rw [hlast] at hpass
  exact .bare (List.cons_ne_nil _ _) (by decide) (by decide) hpass (h.sign (by decide) (by decide) _)

/-- A character that is part of no word is copied. -/
theorem Trail.next_sign (copied : isCopied before.head? c = true) (hw : isWordChar c = false)
    (h : Trail before out (c :: rest)) : Next phrases before out (c :: rest) := by
  have hq : Unquoted [c] := List.forall_mem_singleton.mpr (by rintro rfl; cases copied)
  have hb : '[' ∉ [c] := fun hm => by
    obtain rfl := List.mem_singleton.mp hm
    cases copied
  have htrail : Trail ([c].reverse ++ before) ([c].reverse ++ out) rest := by
    cases hblank : isBlank c with
    | true => exact h.blank hblank
    | false => exact h.sign hblank hw []
  exact .bare (List.cons_ne_nil _ _) hq hb (.char copied) htrail

/-- A word that is a member or begins with a digit is copied character by character, to its end. -/
theorem Trail.next_more (copied : isCopied before.head? c = true) (hc : isWordChar c = true)
    (h : Trail before out (c :: rest)) : Next phrases before out (c :: rest) := by
  have hall : ∀ d ∈ leadingWord rest, isWordChar d = true := List.all_eq_true.mp List.all_takeWhile
  have hword : ∀ d ∈ c :: leadingWord rest, isWordChar d = true := List.forall_mem_cons.mpr ⟨hc, hall⟩
  have hsplit : c :: rest = c :: leadingWord rest ++ afterWord rest := by
    rw [List.cons_append, Text.leadingWord_append_afterWord]
  have hmember : ∀ {word : List Char}, IsWord word → c :: leadingWord rest = word → before.head? = some '.' := by
    rintro _ hname rfl
    have hgo : continues before.head? = true := by
      have hstart : isWordStart c = true := hname.1
      simpa [isCopied, isWordStart_ne hstart, hstart] using copied
    cases hb : before.head? with
    | none =>
      rw [hb] at hgo
      cases hgo
    | some d =>
      have hd : isWordChar d = false := by simpa [hb] using h.free hc
      simpa [hb, continues, hd] using hgo
  have hpass : Passes phrases before out (c :: leadingWord rest) (c :: leadingWord rest) (afterWord rest) :=
    .cons copied (.goesOn hall (by simp [continues, hc]))
  rw [hsplit] at h ⊢
  refine .bare (List.cons_ne_nil _ _) (.of_word hword) (fun hm => ?_) hpass
    (h.copied (List.cons_ne_nil _ _) hword (Text.head?_afterWord rest) ?_ ?_)
  · cases hword _ hm
  · rintro (he | he)
    · exact hmember (by decide) he
    · exact hmember (by decide) he
  · intro he hgo
    rw [hmember (by decide) he] at hgo
    cases hgo

theorem Trail.next_phrase {phrase : Phrase} (hp : phrase.IsApart) (starts : read.head?.any isWordStart = true)
    (free : continues before.head? = false) (found : Phrase.find? phrases (read ++ rest) = some (phrase.identifier, rest))
    (called : phrase.after? (read ++ rest) = some rest) (h : Trail before out (read ++ rest)) :
    Next phrases before out (read ++ rest) := by
  have hink : ∀ word ∈ phrase.words, Text.IsInk word := fun word hm =>
    ⟨(hp.2 word hm).1, fun d hd => Text.not_isBlank_of_isWordChar ((hp.2 word hm).2.1 d hd)⟩
  obtain ⟨⟨read', hread, hspaced⟩, hr, hopen⟩ := (Phrase.after?_eq_some_iff hp.1 hink).mp called
  obtain rfl := List.append_cancel_right hread
  obtain ⟨word, hm, hlast⟩ := hspaced.exists_last fun word hm => (hp.2 word hm).1
  obtain ⟨hn, hw, hnow⟩ := hp.2 word hm
  have hplain : ∀ d ∈ read, d ≠ '"' ∧ d ≠ '[' := by
    refine hspaced.forall_mem (fun word hm d hd => ?_) fun d hd => ?_
    · have hd := (hp.2 word hm).2.1 d hd
      exact ⟨Text.ne_of_class hd (by decide), Text.ne_of_class hd (by decide)⟩
    · exact ⟨Text.ne_of_class hd (by decide), Text.ne_of_class hd (by decide)⟩
  obtain ⟨d, hd⟩ : ∃ d, word.getLast? = some d := Option.isSome_iff_exists.mp (by simpa using hn)
  have hend : read.getLast? = some d := hlast.trans hd
  have hletter : isWordChar d = true := hw d (List.mem_of_getLast? hd)
  have huncut := h.uncut.letter hend hletter (by rintro rfl; exact hnow hd) hr
  have hpart : Part phrases before out read phrase.identifier rest := .phrase starts free found
  exact .bare hpart.ne_nil (fun d hd => (hplain d hd).1) (fun hm => (hplain _ hm).2 rfl) hpart.passes
    (.called huncut hend hletter hr hopen _)

theorem Trail.next_word (name : IsWord word) (free : continues before.head? = false)
    (whole : rest.head?.any isWordChar = false) (unnamed : Phrase.find? phrases (word ++ rest) = none)
    (uncalled : word = "now".toList → emptyCall? rest = none) (h : Trail before out (word ++ rest)) :
    Next phrases before out (word ++ rest) := by
  have hpart : Part phrases before out word (wordText word rest) rest := .word name free whole unnamed uncalled
  refine .bare hpart.ne_nil (.of_word name.2) (fun hm => ?_) hpart.passes ?_
  · cases name.2 _ hm
  unfold wordText
  split
  · rename_i hand
    exact h.operator (c := '&') (Or.inl hand) whole free rfl rfl (by decide)
  split
  · rename_i hor
    exact h.operator (c := '|') (Or.inr hor) whole free rfl rfl (by decide)
  split
  · rename_i hnot
    have hlast : word.getLast? = some 't' := by rw [hnot.1]; rfl
    have huncut := h.uncut.letter hlast (by decide) (by decide) whole
    exact .called huncut hlast (by decide) whole hnot.2 _
  · rename_i hand hor _
    exact h.copied hpart.ne_nil name.2 whole (fun hconnective => absurd hconnective (not_or.mpr ⟨hand, hor⟩))
      fun hnow _ => uncalled hnow

theorem Trail.next_clock (free : continues before.head? = false)
    (unnamed : Phrase.find? phrases ("now".toList ++ (call ++ rest)) = none)
    (empty : emptyCall? (call ++ rest) = some rest) (h : Trail before out ("now".toList ++ call ++ rest)) :
    Next phrases before out ("now".toList ++ call ++ rest) := by
  have hcall := isClockCall_of_emptyCall empty
  have hpart : Part phrases before out ("now".toList ++ call) "now".toList rest := .clock free unnamed empty
  exact .bare hpart.ne_nil hcall.unquoted (hcall.notMem (by decide) (by decide)) hpart.passes (h.clock hcall free)

/-- A part is read on to the next place, unless it is a character that is copied within a word. -/
theorem Trail.next_part (hp : ∀ phrase ∈ phrases, phrase.IsApart) (part : Part phrases before out read written rest)
    (hsign : ∀ c, read = [c] → isCopied before.head? c = true → isWordChar c = false)
    (h : Trail before out (read ++ rest)) : Next phrases before out (read ++ rest) := by
  cases part with
  | literal closed => exact h.next_literal closed
  | list unmatched => exact h.next_list unmatched
  | equals => exact h.next_equals
  | copied copied => exact h.next_sign copied (hsign _ rfl copied)
  | phrase starts free found =>
    obtain ⟨phrase, hm, called, rfl⟩ := exists_of_find? found
    exact h.next_phrase (hp phrase hm) starts free found called
  | word name free whole unnamed uncalled => exact h.next_word name free whole unnamed uncalled
  | clock free unnamed empty => exact h.next_clock free unnamed empty

/-- At each place where no word goes on the scan is done, reads on to another, or comes to an index or to a
    literal that is not closed. -/
theorem Trail.next (hp : ∀ phrase ∈ phrases, phrase.IsApart) (h : Trail before out text) :
    Next phrases before out text := by
  cases text with
  | nil => exact .done
  | cons c rest =>
    by_cases hmore : isCopied before.head? c = true ∧ isWordChar c = true
    · exact h.next_more hmore.1 hmore.2
    cases hs : step phrases before out c rest with
    | write written after =>
      obtain ⟨read, hread, part⟩ := exists_part hs
      rw [hread] at h ⊢
      refine h.next_part hp part ?_
      rintro d rfl hcopied
      obtain ⟨rfl, -⟩ := List.cons.inj hread
      exact Bool.eq_false_iff.mpr fun hd => hmore ⟨hcopied, hd⟩
    | index inner after =>
      obtain ⟨rfl, hopens, hb⟩ := step_index hs
      obtain ⟨rfl, hmatched⟩ := bracket?_eq_some_iff.mp hb
      exact .index hopens (h.opens_iff.mp hopens) hmatched
    | unclosed =>
      obtain ⟨rfl, hl⟩ := step_unclosed hs
      exact .unclosed hl

/-- What holds of a place if it holds of the place that the scan reads on to, and of the content of an index and of
    the place behind it whatever is written for it, holds of every place where no word goes on. -/
@[elab_as_elim]
theorem Trail.induct (hp : ∀ phrase ∈ phrases, phrase.IsApart)
    {motive : ∀ before out text : List Char, Trail before out text → Prop}
    (done : ∀ before out (h : Trail before out []), motive before out [] h)
    (part : ∀ before out read written rest (h : Trail before out (read ++ rest))
      (trail : Trail (read.reverse ++ before) (written.reverse ++ out) rest),
      Passes phrases before out read written rest → Mode.outside.after read = .outside → IsFlat before.reverse read rest →
      motive _ _ rest trail → motive before out (read ++ rest) h)
    (index : ∀ before out inner rest (h : Trail before out ('[' :: (inner ++ ']' :: rest))),
      opensIndex out = true → OpensIndex before.reverse → closes .outside 0 inner = true →
      motive [] [] inner (Trail.start inner) → (∀ written, motive _ _ rest (h.index written)) →
      motive before out ('[' :: (inner ++ ']' :: rest)) h)
    (unclosed : ∀ before out rest (h : Trail before out ('"' :: rest)), literal? rest = none →
      motive before out ('"' :: rest) h)
    {before out text : List Char} (h : Trail before out text) : motive before out text h := by
  -- a part may be long, so the induction is on how many characters are left
  induction hlength : text.length using Nat.strongRecOn generalizing before out text with
  | ind n ih =>
    subst hlength
    cases h.next hp with
    | done => exact done _ _ h
    | @part read written rest ne passes trail closed flat =>
      have hless : rest.length < (read ++ rest).length := by
        rw [List.length_append]
        have := List.length_pos_iff.mpr ne
        omega
      exact part _ _ _ _ _ h trail passes closed flat (ih rest.length hless trail rfl)
    | @index inner rest opens opening matched =>
      have hless : inner.length < ('[' :: (inner ++ ']' :: rest)).length ∧
          rest.length < ('[' :: (inner ++ ']' :: rest)).length := by
        simp only [List.length_cons, List.length_append]
        omega
      exact index _ _ _ _ h opens opening matched (ih inner.length hless.1 (Trail.start inner) rfl)
        fun written => ih rest.length hless.2 (h.index written) rfl
    | unclosed hl => exact unclosed _ _ _ h hl

end Rulebook.Feel
