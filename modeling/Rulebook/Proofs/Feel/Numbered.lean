/-
  Rulebook.Proofs.Feel.Numbered — numbers between the brackets of an index.

  Which brackets are indices is told from the last word before them, however that word
  came to stand there. So behind a path a number is lowered unless the last member has
  the spelling of a word that a list may follow; there the brackets hold a list, and the
  number stays. A number is read as one of 64 bits: within them it is lowered or refused,
  and beyond them, on either side, it is lowered where it is evaluated.
  - `rewrite_itemText`: an index is rewritten as a rule of its own, and lowered.
  - `rewrite_path`: a number behind a path; `number_behind_then` has a member that is
    spelled as a keyword.
  - `rewrite_integer`: a number with blanks around it, whatever its size.
-/

import Rulebook.Proofs.Expr.Item
import Rulebook.Proofs.Feel.Place
import Rulebook.Proofs.Feel.Refusal
import Rulebook.Proofs.Feel.Registered
import Rulebook.Proofs.Feel.Term

namespace Rulebook.Feel

open Rulebook.Expr (itemText)
open Rulebook.Text (isBlank isWordChar trim numeral decimal readInt64 IsWord IsNumeral IsInteger)

variable {phrases : List Phrase} {before out rest : List Char} {registry : Registry}

theorem Name.isWord (x : Name) : IsWord x.text := ⟨x.starts, fun _ => Name.isWordChar_of_mem⟩

theorem Name.ne_connective (x : Name) : x.text ≠ "and".toList ∧ x.text ≠ "or".toList := by
  refine ⟨fun h => x.free ?_, fun h => x.free ?_⟩
  · rw [← Name.text, h]
    decide
  · rw [← Name.text, h]
    decide

theorem Name.passes (x : Name) (hb : continues before.head? = false) (hr : rest.head?.any isWordChar = false)
    (h : '(' ∉ rest) : Passes phrases before out x.text x.text rest :=
  passes_word_copied x.isWord x.ne_connective.1 x.ne_connective.2 hb hr h

theorem Name.opensIndex (x : Name) : opensIndex (x.text.reverse ++ []) = true := by
  have hlist : ∀ word ∈ listWords, word ∈ keywords := by decide
  have hfree : x.text ∉ listWords := fun hm => x.free (hlist _ hm)
  rw [opensIndex_word x.text_ne_nil x.isWord.2 rfl]
  simpa using hfree

/-- The index of what passes before it is rewritten, lowered, and put between the brackets again. -/
theorem rewrite_itemText {list inner : List Char} (hl : Passes phrases [] [] list list ('[' :: (inner ++ [']'])))
    (ho : opensIndex (list.reverse ++ []) = true) (hm : closes .outside 0 inner = true) :
    rewrite phrases (itemText list inner) =
      (rewrite phrases inner).bind fun index => (lowered index list.length).map (itemText list) := by
  unfold Passes at hl
  rw [rewrite, itemText, hl, scan_index ho (bracket?_of_closes hm _), List.append_nil, List.length_reverse]
  cases rewrite phrases inner with
  | error fault => rfl
  | ok index =>
    simp only [Except.bind]
    cases lowered index list.length with
    | error fault => rfl
    | ok low => simp [scan, Except.map, itemText]

theorem closes_of_forall {text : List Char} (h : ∀ c ∈ text, c ≠ '"' ∧ c ≠ '[' ∧ c ≠ ']') :
    closes .outside 0 text = true :=
  closes_of_bracket? (Closed.bracket?_eq (.of_forall h) [])

theorem translate_eq_map (registry : Registry) (text : List Char) :
    translate registry (String.ofList text) = (rewrite (Phrase.ofRegistry registry) text).map String.ofList := by
  rw [translate, String.toList_ofList]

/-! ## Behind a path -/

/-- A name of one word, whatever its spelling: behind a dot no word is a keyword. -/
abbrev Member := { text : List Char // IsWord text }

def memberText (members : List Member) : List Char := members.flatMap fun m => '.' :: m.val

def pathText (x : Name) (members : List Member) : List Char := x.text ++ memberText members

theorem notMem_memberText {c : Char} (hd : c ≠ '.') (hw : isWordChar c = false) (members : List Member) :
    c ∉ memberText members := by
  intro hm
  obtain ⟨m, -, hc⟩ := List.mem_flatMap.mp hm
  rcases List.mem_cons.mp hc with hc | hc
  · exact hd hc
  · cases hw.symm.trans (m.property.2 c hc)

theorem passes_members (members : List Member) :
    Passes phrases before out (memberText members) (memberText members) rest := by
  induction members generalizing before out with
  | nil => exact .nil
  | cons m members ih => exact (Passes.cons (isCopied_sign (by decide) _) (.goesOn m.property.2 rfl)).append ih

/-- Behind a path a bracket is an index, unless a list may follow the spelling of the last member. -/
theorem opensIndex_path (x : Name) (front : List Member) (last : Member) :
    opensIndex ((pathText x (front ++ [last])).reverse ++ []) = !listWords.contains last.val := by
  have hcut : pathText x (front ++ [last]) = (x.text ++ memberText front ++ ['.']) ++ last.val := by
    simp [pathText, memberText]
  rw [hcut, List.reverse_append, List.append_assoc]
  refine opensIndex_word ?_ last.property.2 ?_
  · rintro hn
    have hstart := last.property.1
    rw [hn] at hstart
    cases hstart
  · rw [List.reverse_append]
    exact (rfl : isWordChar '.' = false)

theorem passes_path (x : Name) (members : List Member) (h : '(' ∉ rest) (hr : rest.head?.any isWordChar = false) :
    Passes phrases [] [] (pathText x members) (pathText x members) rest := by
  refine (x.passes rfl ?_ ?_).append (passes_members members)
  · cases members with
    | nil => exact hr
    | cons m members => exact (rfl : isWordChar '.' = false)
  · intro hm
    rcases List.mem_append.mp hm with hm | hm
    · exact notMem_memberText (by decide) (by decide) members hm
    · exact h hm

/-- A number behind a path is lowered by one, unless the last member has the spelling of a word that a list
    may follow. -/
theorem rewrite_path (x : Name) (front : List Member) (last : Member) {n : Nat} (h : 1 ≤ n)
    (hn : n ≤ 9223372036854775807) :
    rewrite phrases (itemText (pathText x (front ++ [last])) (numeral n)) =
      .ok (itemText (pathText x (front ++ [last])) (numeral (if last.val ∈ listWords then n else n - 1))) := by
  have hdigit : ∀ c ∈ numeral n, c.isDigit = true := fun c => Text.isDigit_of_mem_numeral
  have hdigits : ∀ {before out rest : List Char}, Passes phrases before out (numeral n) (numeral n) rest :=
    .signs fun c hc => isCopied_digit (hdigit c hc)
  have hnone : '(' ∉ numeral n := by
    intro hm
    cases hdigit _ hm
  have hpath : Passes phrases [] [] (pathText x (front ++ [last])) (pathText x (front ++ [last]))
      ('[' :: (numeral n ++ [']'])) := passes_path x _ (notMem_index hnone) rfl
  have hopens := opensIndex_path x front last
  by_cases hlast : last.val ∈ listWords
  · rw [if_pos hlast]
    rw [List.contains_iff_mem.mpr hlast] at hopens
    have hlist : Passes phrases ((pathText x (front ++ [last])).reverse ++ []) ((pathText x (front ++ [last])).reverse ++ [])
        ('[' :: (numeral n ++ [']'])) ('[' :: (numeral n ++ [']'])) [] :=
      (Passes.listOpening hopens).append (hdigits.append (.char (isCopied_sign (by decide) _)))
    have hfront : Passes phrases [] [] (pathText x (front ++ [last])) (pathText x (front ++ [last]))
        ('[' :: (numeral n ++ [']']) ++ []) := by rwa [List.append_nil]
    exact (hfront.append hlist).rewrite_eq
  · rw [if_neg hlast]
    rw [List.contains_eq_mem, decide_eq_false hlast] at hopens
    have hclosed : closes .outside 0 (numeral n) = true := closes_of_forall fun c hc =>
      ⟨Text.ne_of_class (hdigit c hc) (by decide), Text.ne_of_class (hdigit c hc) (by decide),
        Text.ne_of_class (hdigit c hc) (by decide)⟩
    rw [rewrite_itemText hpath hopens hclosed, hdigits.rewrite_eq]
    simp only [Except.bind, lowered_numeral h hn]
    rfl

/-- What becomes of a number from 1 behind a path that names a variable and takes members of it. -/
theorem translate_path (registry : Registry) (x : Name) (front : List Member) (last : Member) {n : Nat} (h : 1 ≤ n)
    (hn : n ≤ 9223372036854775807) :
    translate registry (.ofList (itemText (pathText x (front ++ [last])) (numeral n))) =
      .ok (.ofList (itemText (pathText x (front ++ [last]))
        (numeral (if last.val ∈ listWords then n else n - 1)))) := by
  rw [translate_eq_map, rewrite_path x front last h hn]
  rfl

def person : Name := ⟨'p', "erson".toList, by decide, by decide, by decide⟩

/-- The item is the second, as rules count, and the keyword within the path is a member. -/
theorem translate_path_second : (1 ≤ 2 ∧ 2 ≤ 9223372036854775807) ∧
    translate .builtin "person.in.pets[2]" = .ok "person.in.pets[1]" := by
  have hpath := translate_path .builtin person [⟨"in".toList, by decide⟩] ⟨"pets".toList, by decide⟩ (n := 2) (by decide)
    (by decide)
  have hwritten : String.ofList (itemText (pathText person [⟨"in".toList, by decide⟩, ⟨"pets".toList, by decide⟩])
      (numeral 1)) = "person.in.pets[1]" := by decide
  exact ⟨by decide, hpath.trans (congrArg Except.ok hwritten)⟩

/-- A member called `then` is read as the keyword: the number is not lowered. -/
theorem number_behind_then : translate .builtin "x.then[1]" = .ok "x.then[1]" ∧ "x.then[1]" ≠ "x.then[0]" := by
  have hrewrite : rewrite (Phrase.ofRegistry .builtin) "x.then[1]".toList = .ok "x.then[1]".toList :=
    rewrite_path ⟨'x', [], by decide, by decide, by decide⟩ [] ⟨"then".toList, by decide⟩ (n := 1) (by decide) (by decide)
  exact ⟨(translate_eq_map .builtin "x.then[1]".toList).trans (congrArg (Except.map String.ofList) hrewrite), by decide⟩

/-! ## Of any size -/

theorem readInt64_integer {text : List Char} {v : Int} (h : IsInteger text v) :
    (-9223372036854775808 ≤ v ∧ v ≤ 9223372036854775807 → readInt64 text = .ok v) ∧
      (¬(-9223372036854775808 ≤ v ∧ v ≤ 9223372036854775807) → ∃ fault, readInt64 text = .error fault) := by
  refine ⟨fun hin => Text.readInt64_eq_ok_iff.mpr ⟨h, hin⟩, fun hout => ?_⟩
  cases hr : readInt64 text with
  | error fault => exact ⟨fault, rfl⟩
  | ok n =>
    obtain ⟨hn, hin⟩ := Text.readInt64_eq_ok_iff.mp hr
    rw [hn.unique h] at hin
    exact absurd hin hout

/-- A number between blanks is lowered or refused as its value says if it has 64 bits, and lowered where it is
    evaluated if it has more. -/
theorem lowered_integer {lead text tail : List Char} {v : Int} (hlead : ∀ c ∈ lead, isBlank c = true)
    (htail : ∀ c ∈ tail, isBlank c = true) (h : IsInteger text v) (position : Nat) :
    lowered (lead ++ (text ++ tail)) position =
      if -9223372036854775808 ≤ v ∧ v ≤ 9223372036854775807 then
        if 1 ≤ v then .ok (decimal (v - 1)) else .error (.indexBelowOne v position)
      else .ok ('(' :: (text ++ ") - 1".toList)) := by
  have hink : ∀ c ∈ text, isBlank c = false ∧ c ≠ '"' := by
    intro c hc
    rcases h.mem hc with hd | rfl | rfl
    · exact ⟨Text.not_isBlank_of_isWordChar (Text.isWordChar_of_isDigit hd), Text.ne_of_class hd (by decide)⟩
    · decide
    · decide
  have htrim : trim (lead ++ (text ++ tail)) = text := Text.trim_gaps hlead htail fun c hc => (hink c hc).1
  have hq : text.head? ≠ some '"' := fun hh => (hink '"' (List.mem_of_head? hh)).2 rfl
  obtain ⟨hin, hout⟩ := readInt64_integer h
  simp only [lowered, htrim, if_neg hq]
  by_cases hbounds : -9223372036854775808 ≤ v ∧ v ≤ 9223372036854775807
  · rw [if_pos hbounds, hin hbounds]
  · obtain ⟨fault, hfault⟩ := hout hbounds
    rw [if_neg hbounds, hfault]

/-- A number of any size between the brackets of an index, with blanks around it or none. -/
theorem rewrite_integer (x : Name) {lead text tail : List Char} {v : Int} (hlead : ∀ c ∈ lead, isBlank c = true)
    (htail : ∀ c ∈ tail, isBlank c = true) (h : IsInteger text v) :
    rewrite phrases (itemText x.text (lead ++ (text ++ tail))) =
      if -9223372036854775808 ≤ v ∧ v ≤ 9223372036854775807 then
        if 1 ≤ v then .ok (itemText x.text (decimal (v - 1))) else .error (.indexBelowOne v x.text.length)
      else .ok (itemText x.text ('(' :: (text ++ ") - 1".toList))) := by
  have hsign : ∀ c ∈ lead ++ (text ++ tail), isCopied none c = true ∧ c ≠ '(' ∧ c ≠ ']' := by
    intro c hc
    simp only [List.mem_append] at hc
    rcases hc with hc | hc | hc
    · exact ⟨isCopied_blank (hlead c hc), Text.ne_of_class (hlead c hc) (by decide), Text.ne_of_class (hlead c hc) (by decide)⟩
    · rcases h.mem hc with hd | rfl | rfl
      · exact ⟨isCopied_digit hd, Text.ne_of_class hd (by decide), Text.ne_of_class hd (by decide)⟩
      · decide
      · decide
    · exact ⟨isCopied_blank (htail c hc), Text.ne_of_class (htail c hc) (by decide), Text.ne_of_class (htail c hc) (by decide)⟩
  have hcontent : rewrite phrases (lead ++ (text ++ tail)) = .ok (lead ++ (text ++ tail)) :=
    (Passes.signs fun c hc => (hsign c hc).1).rewrite_eq
  have hclosed : closes .outside 0 (lead ++ (text ++ tail)) = true := by
    refine closes_of_forall fun c hc => ⟨?_, ?_, (hsign c hc).2.2⟩
    · rintro rfl
      cases (hsign _ hc).1
    · rintro rfl
      cases (hsign _ hc).1
  have hnone : '(' ∉ lead ++ (text ++ tail) := fun hm => (hsign _ hm).2.1 rfl
  have hname : Passes phrases [] [] x.text x.text ('[' :: (lead ++ (text ++ tail) ++ [']'])) :=
    x.passes rfl rfl (notMem_index hnone)
  rw [rewrite_itemText hname x.opensIndex hclosed, hcontent]
  simp only [Except.bind, lowered_integer hlead htail h]
  split
  · split
    · rfl
    · rfl
  · rfl

/-- What becomes of a list with a number of any size as its index. -/
theorem translate_integer (registry : Registry) (x : Name) {lead text tail : List Char} {v : Int}
    (hlead : ∀ c ∈ lead, isBlank c = true) (htail : ∀ c ∈ tail, isBlank c = true) (h : IsInteger text v) :
    translate registry (.ofList (itemText x.text (lead ++ (text ++ tail)))) =
      if -9223372036854775808 ≤ v ∧ v ≤ 9223372036854775807 then
        if 1 ≤ v then .ok (.ofList (itemText x.text (decimal (v - 1)))) else .error (.indexBelowOne v x.text.length)
      else .ok (.ofList (itemText x.text ('(' :: (text ++ ") - 1".toList)))) := by
  rw [translate_eq_map, rewrite_integer x hlead htail h]
  split
  · split
    · rfl
    · rfl
  · rfl

def numbers : Name := ⟨'x', ['s'], by decide, by decide, by decide⟩

/-- A number below one between blanks is refused, and the bracket is blamed. -/
theorem translate_integer_negative : IsInteger "-007".toList (-7) ∧
    translate .builtin "xs[ -007\t]" = .error (.indexBelowOne (-7) 2) := by
  have hnumber : IsInteger "-007".toList (-7) :=
    Text.isInteger_minus.mpr ⟨7, ⟨by decide, by decide, by decide⟩, rfl⟩
  have hrule : "xs[ -007\t]" = String.ofList (itemText numbers.text ([' '] ++ ("-007".toList ++ ['\t']))) := by decide
  have hlead : ∀ c ∈ [' '], isBlank c = true := by decide
  have htail : ∀ c ∈ ['\t'], isBlank c = true := by decide
  have htranslate := translate_integer .builtin numbers hlead htail hnumber
  rw [if_pos (by decide), if_neg (by decide)] at htranslate
  exact ⟨hnumber, by rw [hrule, htranslate]; rfl⟩

/-- The number before the least of 64 bits is not refused. -/
theorem number_of_more_bits : IsInteger "-9223372036854775809".toList (-9223372036854775809) ∧
    translate .builtin "xs[-9223372036854775809]" = .ok "xs[(-9223372036854775809) - 1]" := by
  have hnumber : IsInteger "-9223372036854775809".toList (-9223372036854775809) :=
    Text.isInteger_minus.mpr ⟨9223372036854775809, ⟨by decide, by decide, by decide⟩, rfl⟩
  have hnone : ∀ c ∈ ([] : List Char), isBlank c = true := by simp
  have hrewrite : rewrite (Phrase.ofRegistry .builtin) _ = _ := rewrite_integer numbers hnone hnone hnumber
  have hrule : "xs[-9223372036854775809]" =
      String.ofList (itemText numbers.text ([] ++ ("-9223372036854775809".toList ++ []))) := by decide
  rw [if_neg (by decide)] at hrewrite
  refine ⟨hnumber, ?_⟩
  rw [hrule, translate_eq_map, hrewrite]
  decide

end Rulebook.Feel
