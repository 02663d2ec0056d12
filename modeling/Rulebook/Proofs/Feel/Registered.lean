/-
  Rulebook.Proofs.Feel.Registered — calls of registered functions, rewritten.

  Of the names of several words that a registry gives to rules, the first in name order
  that has the words of a call is found where it is called: sorting by the number of words
  keeps names of as many words in that order (`filter_mergeSort`). Arguments that are
  names are copied, since nothing is called without an opening bracket.
  - `find?_registered`, `find?_unregistered`: what is found where words stand before the
    brackets of a call.
  - `passes_args_names`: names with commas between them are copied.
  - `rewrite_call_found`, `rewrite_call_word`: a call by a name of several words becomes
    a call by the identifier, and a call by a name of one word stays.
-/

import Rulebook.Proofs.Expr.Call
import Rulebook.Proofs.Feel.Spaced
import Rulebook.Proofs.Registry

namespace Rulebook.Feel

open Rulebook.Expr (callText argsText)
open Rulebook.Text (isBlank isWordStart isWordChar skipBlank firstInk IsWord IsInk)

/-! ## Without an opening bracket -/

variable {phrases : List Phrase} {before out rest : List Char}

theorem find?_eq_none_of_notMem {text : List Char} (h : '(' ∉ text) : Phrase.find? phrases text = none := by
  refine List.findSome?_eq_none_iff.mpr fun phrase _ => ?_
  rw [Option.map_eq_none_iff]
  unfold Phrase.after?
  split
  · rfl
  · rename_i left hl
    have hopen : firstInk left ≠ some '(' := Text.firstInk_ne_of_notMem fun hm => h ((afterWords?_suffix hl).mem hm)
    simp [hopen]

theorem wordStep_uncalled {word : List Char} (ha : word ≠ "and".toList) (ho : word ≠ "or".toList)
    (h : firstInk rest ≠ some '(') : wordStep word rest = .write word rest := by
  have hcall : emptyCall? rest = none := by
    cases he : emptyCall? rest with
    | none => rfl
    | some after =>
      obtain ⟨gap, inner, rfl, hgap, -⟩ := exists_of_emptyCall he
      exact absurd (Text.firstInk_gap hgap (by decide) _) h
  unfold wordStep
  rw [if_neg ha, if_neg ho, if_neg fun hn => h hn.2, hcall]
  exact ite_self _

theorem passes_word_uncalled {word : List Char} (hw : IsWord word) (ha : word ≠ "and".toList) (ho : word ≠ "or".toList)
    (hb : continues before.head? = false) (hr : rest.head?.any isWordChar = false) (h : firstInk rest ≠ some '(')
    (hnone : Phrase.find? phrases (word ++ rest) = none) : Passes phrases before out word word rest := by
  have hstep := wordStep_uncalled ha ho h
  obtain ⟨c, more, rfl, hc, hmore⟩ := hw.exists_cons
  have hword : Passes phrases before out (c :: more ++ []) (c :: more) rest := .word hc hmore hb hr hnone hstep
  rwa [List.append_nil] at hword

/-! ## Arguments -/

theorem passes_word_copied {word : List Char} (hw : IsWord word) (ha : word ≠ "and".toList) (ho : word ≠ "or".toList)
    (hb : continues before.head? = false) (hr : rest.head?.any isWordChar = false) (h : '(' ∉ rest) :
    Passes phrases before out word word rest := by
  have hnone : '(' ∉ word := fun hm => absurd (hw.2 _ hm) (by decide)
  have hfind : Phrase.find? phrases (word ++ rest) = none :=
    find?_eq_none_of_notMem fun hm => (List.mem_append.mp hm).elim hnone h
  exact passes_word_uncalled hw ha ho hb hr (Text.firstInk_ne_of_notMem h) hfind

theorem notMem_index {inner : List Char} (h : '(' ∉ inner) : '(' ∉ '[' :: (inner ++ [']']) := by
  simp [h]

def AreCopied (args : List String) : Prop :=
  ∀ arg ∈ args, IsWord arg.toList ∧ arg.toList ≠ "and".toList ∧ arg.toList ≠ "or".toList

theorem notMem_moreArgs {args : List String} (h : AreCopied args) :
    '(' ∉ (args.map String.toList).flatMap (',' :: ' ' :: ·) ++ [')'] := by
  intro hm
  simp only [List.mem_append, List.mem_flatMap, List.mem_map, exists_exists_and_eq_and, List.mem_cons] at hm
  rcases hm with ⟨arg, ha, hm | hm | hm⟩ | hm
  · exact absurd hm (by decide)
  · exact absurd hm (by decide)
  · exact absurd ((h arg ha).1.2 _ hm) (by decide)
  · exact absurd hm (by decide)

theorem passes_moreArgs {args : List String} (h : AreCopied args) :
    Passes phrases before out ((args.map String.toList).flatMap (',' :: ' ' :: ·))
      ((args.map String.toList).flatMap (',' :: ' ' :: ·)) [')'] := by
  induction args generalizing before out with
  | nil => exact .nil
  | cons arg args ih =>
    obtain ⟨hw, ha, ho⟩ := h arg (List.mem_cons_self ..)
    have hrest : AreCopied args := fun other hm => h other (List.mem_cons_of_mem _ hm)
    rw [List.map_cons, List.flatMap_cons]
    refine .cons (isCopied_sign (by decide) _) (.cons (isCopied_sign (by decide) _) ?_)
    refine (passes_word_copied hw ha ho rfl ?_ (notMem_moreArgs hrest)).append (ih hrest)
    exact (Expr.stops_more _).notWord

theorem passes_args_names {args : List String} (h : AreCopied args) :
    Passes phrases before out (bracketed (argsText (args.map String.toList)))
      (bracketed (argsText (args.map String.toList))) [] := by
  refine .bracketed ?_
  cases args with
  | nil => exact .nil
  | cons arg args =>
    obtain ⟨hw, ha, ho⟩ := h arg (List.mem_cons_self ..)
    have hrest : AreCopied args := fun other hm => h other (List.mem_cons_of_mem _ hm)
    rw [List.map_cons, argsText]
    refine (passes_word_copied hw ha ho rfl ?_ (notMem_moreArgs hrest)).append (passes_moreArgs hrest)
    exact (Expr.stops_more _).notWord

theorem notMem_argsText {args : List String} (h : AreCopied args) : '(' ∉ argsText (args.map String.toList) ++ [')'] := by
  cases args with
  | nil => decide
  | cons arg args =>
    intro hm
    rw [List.map_cons, argsText, List.append_assoc] at hm
    rcases List.mem_append.mp hm with hm | hm
    · exact absurd ((h arg (List.mem_cons_self ..)).1.2 _ hm) (by decide)
    · exact notMem_moreArgs (fun other ho => h other (List.mem_cons_of_mem _ ho)) hm

/-! ## What is called -/

/-- Elements that come before each other keep their order when a list is sorted. -/
theorem filter_mergeSort {α : Type} {le : α → α → Bool} (trans : ∀ a b c, le a b = true → le b c = true → le a c = true)
    (total : ∀ a b, (le a b || le b a) = true) {p : α → Bool} (h : ∀ a b, p a = true → p b = true → le a b = true)
    (l : List α) : (l.mergeSort le).filter p = l.filter p := by
  have hle : (l.filter p).Pairwise fun a b => le a b = true :=
    List.pairwise_of_forall_mem_list fun a ha b hb => h a b (List.mem_filter.mp ha).2 (List.mem_filter.mp hb).2
  have hsub := (List.sublist_mergeSort trans total hle List.filter_sublist).filter p
  rw [List.filter_filter] at hsub
  simp only [Bool.and_self] at hsub
  exact (hsub.eq_of_length ((List.mergeSort_perm l le).filter p).length_eq.symm).symm

variable {ws : List (List Char)} {read tail : List Char}

theorem exists_cons_of_spaced (hs : Spaced ws read) (hw : ∀ word ∈ ws, IsWord word) :
    ∃ c more, read = c :: more ∧ isWordStart c = true := by
  cases hs with
  | one =>
    obtain ⟨c, more, hc, hstart, -⟩ := (hw _ (List.mem_cons_self ..)).exists_cons
    exact ⟨c, more, hc, hstart⟩
  | cons word =>
    obtain ⟨c, more, hc, hstart, -⟩ := (hw word (List.mem_cons_self ..)).exists_cons
    exact ⟨c, _, by rw [hc, List.cons_append], hstart⟩

/-- What is called before the only opening bracket is spelled there, with blanks behind it or none. -/
theorem Phrase.exists_of_after? {phrase : Phrase} {text left : List Char} (hp : ∀ word ∈ phrase.words, IsInk word)
    (hw : text.head?.any isWordChar = true) (ho : '(' ∉ text) (ht : '(' ∉ tail)
    (h : phrase.after? (text ++ '(' :: tail) = some left) :
    ∃ read gap, text = read ++ gap ∧ Spaced phrase.words read ∧ ∀ c ∈ gap, isBlank c = true := by
  by_cases hn : phrase.words = []
  · -- no word is read, so a word character stands where none may follow
    obtain ⟨c, more, rfl⟩ := List.exists_cons_of_ne_nil (l := text) (by rintro rfl; cases hw)
    have hc : isWordChar c = true := hw
    simp [Phrase.after?, hn, afterWords?, hc] at h
  · obtain ⟨⟨read, htext, hs⟩, -, hopen⟩ := (Phrase.after?_eq_some_iff hn hp).mp h
    obtain ⟨gap, more, rfl, hgap⟩ := Text.exists_of_firstInk hopen
    rw [← List.append_assoc] at htext
    exact ⟨read, gap, (Text.split_unique_only ho ht htext).1, hs, hgap⟩

/-- Where words stand before the only opening bracket, a phrase is called exactly if these are its words. -/
theorem Phrase.after?_called {phrase : Phrase} (hp : ∀ word ∈ phrase.words, IsInk word) (hs : Spaced ws read)
    (hw : ∀ word ∈ ws, IsWord word) (ht : '(' ∉ tail) :
    phrase.after? (read ++ '(' :: tail) = if phrase.words = ws then some ('(' :: tail) else none := by
  have hink : ∀ word ∈ ws, IsInk word := fun word hm => (hw word hm).isInk
  have hread : '(' ∉ read := by
    have hall := hs.forall_mem (p := (· ≠ '(')) (fun word hm c hc => Text.ne_of_class ((hw word hm).2 c hc) (by decide))
      fun c hc => Text.ne_of_class hc (by decide)
    exact fun hm => hall _ hm rfl
  have hopen : firstInk ('(' :: tail) = some '(' := by rw [firstInk, Text.skipBlank_cons (by decide)]; rfl
  split
  · rename_i hwords
    subst hwords
    exact (Phrase.after?_eq_some_iff hs.ne_nil hp).mpr ⟨⟨read, rfl, hs⟩, rfl, hopen⟩
  · rename_i hne
    rw [Option.eq_none_iff_forall_ne_some]
    intro left hleft
    obtain ⟨c, more, hcons, hc⟩ := exists_cons_of_spaced hs hw
    have hstart : read.head?.any isWordChar = true := by
      rw [hcons]
      exact Text.isWordChar_of_isWordStart hc
    obtain ⟨read', gap, rfl, hs', hgap⟩ := Phrase.exists_of_after? hp hstart hread ht hleft
    have hwords := words_of_spaced hs' hp hgap
    have hsame := words_of_spaced_self hs hink
    rw [hwords] at hsame
    exact hne hsame

/-- What is found where words stand before the only opening bracket: the first phrase with these words. -/
theorem find?_called (hp : ∀ phrase ∈ phrases, ∀ word ∈ phrase.words, IsInk word) (hs : Spaced ws read)
    (hw : ∀ word ∈ ws, IsWord word) (ht : '(' ∉ tail) : Phrase.find? phrases (read ++ '(' :: tail) =
      (phrases.filter (·.words = ws)).head?.map fun phrase => (phrase.identifier, '(' :: tail) := by
  induction phrases with
  | nil => rfl
  | cons phrase phrases ih =>
    have hrest := ih fun other hm => hp other (List.mem_cons_of_mem _ hm)
    unfold Phrase.find? at hrest ⊢
    rw [List.findSome?_cons, Phrase.after?_called (hp phrase (List.mem_cons_self ..)) hs hw ht]
    by_cases hwords : phrase.words = ws
    · simp [hwords]
    · simp [hwords, hrest]

/-! ## The phrases of a registry -/

variable {registry : Registry} {extension : Extension}

theorem any_isBlank_of_words {text : List Char} (h : 2 ≤ (Text.words text).length) : text.any isBlank = true := by
  by_contra hn
  have hink : ∀ c ∈ text, isBlank c = false := by simpa using hn
  have hwords := Text.wordsFrom_ink hink [] []
  rw [List.append_nil, List.append_nil, Text.wordsFrom] at hwords
  rw [Text.words, hwords] at h
  split at h <;> simp at h

/-- The phrases with some words: the names with these words, in the order of the registry, before the language's. -/
theorem filter_ofRegistry (registry : Registry) (ws : List (List Char)) :
    (Phrase.ofRegistry registry).filter (·.words = ws) =
      (registry.toList.filter fun other => decide (Text.words other.name.toList = ws) && other.name.toList.any isBlank).map
        (fun other => .ofName other.name other.identifier) ++ Phrase.standard.filter (·.words = ws) := by
  unfold Phrase.ofRegistry
  rw [filter_mergeSort]
  · rw [List.filter_append, List.filter_map, List.filter_filter]
    rfl
  · intro a b c hab hbc
    simp only [decide_eq_true_eq] at hab hbc ⊢
    omega
  · intro a b
    simp only [Bool.or_eq_true, decide_eq_true_eq]
    omega
  · intro a b ha hb
    simp only [decide_eq_true_eq] at ha hb ⊢
    exact Nat.le_of_eq (by rw [ha, hb])

/-- Where a name of several words is called, the identifier of the first definition with these words is found. -/
theorem find?_registered (hr : registry.toList.Pairwise fun a b => a.name < b.name) (hm : extension ∈ registry.toList)
    (hs : Spaced ws extension.name.toList) (hw : ∀ word ∈ ws, IsWord word) (hn : 2 ≤ ws.length)
    (first : ∀ other ∈ registry.toList, Text.words other.name.toList = ws →
      (∀ another ∈ registry.toList, Text.words another.name.toList = ws → ¬another.name < other.name) →
      other.identifier = extension.identifier) (ht : '(' ∉ tail) :
    Phrase.find? (Phrase.ofRegistry registry) (extension.name.toList ++ '(' :: tail) =
      some (extension.identifier.toList, '(' :: tail) := by
  have hwords : Text.words extension.name.toList = ws := words_of_spaced_self hs fun word hm => (hw word hm).isInk
  have hcounts : ∀ other : Extension, Text.words other.name.toList = ws →
      (decide (Text.words other.name.toList = ws) && other.name.toList.any isBlank) = true := by
    intro other ho
    rw [any_isBlank_of_words (by rwa [ho])]
    simp [ho]
  rw [find?_called (fun phrase => isInk_of_mem_ofRegistry) hs hw ht, filter_ofRegistry, List.head?_append, List.head?_map,
    List.head?_filter]
  cases hf : registry.toList.find? fun other =>
      decide (Text.words other.name.toList = ws) && other.name.toList.any isBlank with
  | none => exact absurd (hcounts extension hwords) (List.find?_eq_none.mp hf extension hm)
  | some found =>
    have hfound : Text.words found.name.toList = ws := by
      have h := List.find?_some hf
      simp only [Bool.and_eq_true, decide_eq_true_eq] at h
      exact h.1
    have hsame : found.identifier = extension.identifier := by
      refine first found (List.mem_of_find?_eq_some hf) hfound fun another ha hanother hlt => ?_
      rcases eq_or_rel_of_find? hr hf ha (hcounts another hanother) with rfl | hgt
      · exact String.lt_irrefl _ hlt
      · exact String.lt_irrefl _ (String.lt_trans hlt hgt)
    simp [Phrase.ofName, hsame]

/-- Where a name of one word is called and no other name has this word, nothing is found. -/
theorem find?_unregistered {word : List Char} (hw : IsWord word)
    (alone : ∀ other ∈ registry.toList, Text.words other.name.toList = [word] → other.name.toList = word)
    (ht : '(' ∉ tail) : Phrase.find? (Phrase.ofRegistry registry) (word ++ '(' :: tail) = none := by
  have hone : ∀ w ∈ [word], IsWord w := by simpa using hw
  rw [find?_called (fun phrase => isInk_of_mem_ofRegistry) (.one word) hone ht, filter_ofRegistry]
  have hnamed : (registry.toList.filter fun other =>
      decide (Text.words other.name.toList = [word]) && other.name.toList.any isBlank) = [] := by
    refine List.filter_eq_nil_iff.mpr fun other ho => ?_
    simp only [Bool.and_eq_true, decide_eq_true_eq, not_and, Bool.not_eq_true]
    intro hwords
    rw [alone other ho hwords]
    exact List.any_eq_false.mpr fun c hc => by simpa using hw.isInk.2 c hc
  have hstandard : Phrase.standard.filter (·.words = [word]) = [] := by
    refine List.filter_eq_nil_iff.mpr fun phrase hp => ?_
    obtain rfl := List.mem_singleton.mp hp
    have hthree : (Phrase.ofName "date and time" "timestamp").words.length = 3 := by decide
    intro hwords
    rw [of_decide_eq_true hwords] at hthree
    cases hthree
  rw [hnamed, hstandard]
  rfl

/-! ## Calls rewritten -/

variable {args : List String}

theorem rewrite_call_found {name identifier : List Char} (hn : name.head?.any isWordStart = true) (ha : AreCopied args)
    (hf : ∀ tail, '(' ∉ tail → Phrase.find? phrases (name ++ '(' :: tail) = some (identifier, '(' :: tail)) :
    rewrite phrases (callText name args) = .ok (callText identifier args) := by
  have hfind := hf _ (notMem_argsText ha)
  have hargs : Passes phrases (name.reverse ++ []) (identifier.reverse ++ [])
      (bracketed (argsText (args.map String.toList))) (bracketed (argsText (args.map String.toList))) [] :=
    passes_args_names ha
  have hname : Passes phrases [] [] name identifier (bracketed (argsText (args.map String.toList)) ++ []) := by
    rw [List.append_nil]
    cases name with
    | nil => cases hn
    | cons c more => exact .phrase hn rfl hfind
  exact (hname.append hargs).rewrite_eq

theorem emptyCall?_args (ha : AreCopied args) (hn : args ≠ []) :
    emptyCall? (bracketed (argsText (args.map String.toList))) = none := by
  obtain ⟨arg, more, rfl⟩ := List.exists_cons_of_ne_nil hn
  obtain ⟨c, rest, hc, hstart, -⟩ := (ha arg (List.mem_cons_self ..)).1.exists_cons
  have hblank := Text.not_isBlank_of_isWordChar (Text.isWordChar_of_isWordStart hstart)
  have hclose : c ≠ ')' := Text.ne_of_class hstart (by decide)
  rw [List.map_cons, argsText, hc, bracketed, emptyCall?, Text.skipBlank_cons (by decide)]
  simp only [if_true, List.cons_append, Text.skipBlank_cons hblank, if_neg hclose]

theorem rewrite_call_word {name : List Char} (hw : IsWord name)
    (hfree : name ≠ "and".toList ∧ name ≠ "or".toList ∧ name ≠ "not".toList) (hnow : name = "now".toList → args ≠ [])
    (ha : AreCopied args) (hf : ∀ tail, '(' ∉ tail → Phrase.find? phrases (name ++ '(' :: tail) = none) :
    rewrite phrases (callText name args) = .ok (callText name args) := by
  have hfind := hf _ (notMem_argsText ha)
  have hstep : wordStep name (bracketed (argsText (args.map String.toList))) =
      .write name (bracketed (argsText (args.map String.toList))) := by
    unfold wordStep
    rw [if_neg hfree.1, if_neg hfree.2.1, if_neg fun h => hfree.2.2 h.1]
    split
    · rename_i h
      rw [emptyCall?_args ha (hnow h)]
      rfl
    · rfl
  have hargs : Passes phrases (name.reverse ++ []) (name.reverse ++ [])
      (bracketed (argsText (args.map String.toList))) (bracketed (argsText (args.map String.toList))) [] :=
    passes_args_names ha
  have hname : Passes phrases [] [] name name (bracketed (argsText (args.map String.toList)) ++ []) := by
    rw [List.append_nil]
    obtain ⟨c, more, rfl, hc, hmore⟩ := hw.exists_cons
    have hword : Passes phrases [] [] (c :: more ++ []) (c :: more)
        (bracketed (argsText (args.map String.toList))) := .word hc hmore rfl rfl hfind hstep
    rwa [List.append_nil] at hword
  exact (hname.append hargs).rewrite_eq

end Rulebook.Feel
