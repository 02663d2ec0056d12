/-
  Rulebook.Proofs.Feel.Member — members, with blanks around the dot or none.

  A word right behind a dot is a member and keeps its spelling, whatever it is. The rewriting
  looks at no more than the one character before a word. So behind a dot and a blank a word
  is read as any other: a connective becomes its sign, and so does `not` before a bracket.
  Blanks before the dot do not matter.

  With a bracket behind it, a member might also be found as the called name of a function.
  It is not, unless the registry has a name that is spelled so (`Unnamed`).
  - `find?_unspelled`: no phrase is found where none is spelled.
  - `Passes.member`: what is written for a dot, blanks and a member.
  - `translate_member`: what becomes of a member, and of a member that is called.
-/

import Rulebook.Proofs.Feel.Numbered
import Rulebook.Proofs.Feel.Parts

namespace Rulebook.Feel

open Rulebook.Text (isBlank isWordStart isWordChar skipBlank firstInk IsWord IsInk)

variable {phrases : List Phrase} {registry : Registry} {before out text tail rest lead gap : List Char}

/-! ## Names that no function has -/

/-- No function of a registry has a name with blanks that is spelled as a text. -/
def Unnamed (registry : Registry) (text : List Char) : Prop :=
  ∀ extension ∈ registry.toList, extension.name.toList.any isBlank = true → ¬Spaced (Text.words extension.name.toList) text

theorem find?_unspelled (hp : ∀ phrase ∈ phrases, (∀ word ∈ phrase.words, IsInk word) ∧ ¬Spaced phrase.words text)
    (hw : text.head?.any isWordChar = true) (hl : text.getLast?.any isBlank = false) (ho : '(' ∉ text) (ht : '(' ∉ tail) :
    Phrase.find? phrases (text ++ '(' :: tail) = none := by
  refine List.findSome?_eq_none_iff.mpr fun phrase hm => ?_
  rw [Option.map_eq_none_iff, Option.eq_none_iff_forall_ne_some]
  intro left hleft
  obtain ⟨hink, hspelled⟩ := hp phrase hm
  obtain ⟨read, gap, rfl, hs, hgap⟩ := Phrase.exists_of_after? hink hw ho ht hleft
  cases hlast : gap.getLast? with
  | none =>
    rw [List.getLast?_eq_none_iff.mp hlast, List.append_nil] at hspelled
    exact hspelled hs
  | some c =>
    rw [List.getLast?_append, hlast] at hl
    cases hl.symm.trans (hgap c (List.mem_of_getLast? hlast))

theorem not_spaced_of_mem {ws : List (List Char)} {c : Char} (hm : c ∈ text) (hb : isBlank c = false)
    (hw : ∀ word ∈ ws, c ∉ word) : ¬Spaced ws text := by
  intro hs
  have hall := hs.forall_mem (p := (· ≠ c)) (fun word hword d hd he => hw word hword (he ▸ hd)) fun d hd he => ?_
  · exact hall c hm rfl
  · rw [he, hb] at hd
    cases hd

theorem Spaced.any_isBlank {ws : List (List Char)} (h : Spaced ws text) (hn : 2 ≤ ws.length) : text.any isBlank = true := by
  cases h with
  | one => exact absurd hn (Nat.not_succ_le_self 1)
  | cons word ne blank =>
    obtain ⟨d, gap, rfl⟩ := List.exists_cons_of_ne_nil ne
    simp [blank d (List.mem_cons_self ..)]

theorem unspelled_of_unnamed (h : Unnamed registry text) (hd : ¬Spaced (Text.words "date and time".toList) text) :
    ∀ phrase ∈ Phrase.ofRegistry registry, (∀ word ∈ phrase.words, IsInk word) ∧ ¬Spaced phrase.words text := by
  intro phrase hm
  refine ⟨isInk_of_mem_ofRegistry hm, ?_⟩
  rcases mem_ofRegistry_iff.mp hm with ⟨extension, he, hb, rfl⟩ | rfl
  · exact h extension he hb
  · exact hd

/-! ## Members -/

def memberOf (x : Name) (lead gap member : List Char) : List Char := x.text ++ (lead ++ '.' :: (gap ++ member))

/-- What is written for a member behind `gap`, in front of `rest`: right behind the dot it keeps its spelling. -/
def Member.written (m : Member) (gap rest : List Char) : List Char := if gap = [] then m.val else wordText m.val rest

variable {x y : Name} {m : Member}

theorem not_spaced_member (m : Member) {ws : List (List Char)} (h : 2 ≤ ws.length) : ¬Spaced ws m.val := by
  intro hs
  have hink : m.val.any isBlank = false := List.any_eq_false.mpr fun d hd => by simpa using m.property.isInk.2 d hd
  cases hink.symm.trans (hs.any_isBlank h)

theorem not_spaced_memberOf (x : Name) (lead gap : List Char) (m : Member) {ws : List (List Char)}
    (h : ∀ word ∈ ws, '.' ∉ word) : ¬Spaced ws (memberOf x lead gap m.val) := by
  have hdot : '.' ∈ memberOf x lead gap m.val := by simp [memberOf]
  exact not_spaced_of_mem hdot (by decide) h

theorem notMem_memberOf (hl : ∀ c ∈ lead, isBlank c = true) (hg : ∀ c ∈ gap, isBlank c = true) :
    '(' ∉ memberOf x lead gap m.val := by
  have hword : ∀ {word : List Char}, (∀ c ∈ word, isWordChar c = true) → '(' ∉ word := fun hw hm => by cases hw _ hm
  have hblank : ∀ {blanks : List Char}, (∀ c ∈ blanks, isBlank c = true) → '(' ∉ blanks := fun hb hm => by cases hb _ hm
  simp only [memberOf, List.mem_append, List.mem_cons, not_or]
  exact ⟨hword x.isWord.2, hblank hl, by decide, hblank hg, hword m.property.2⟩

/-- A dot, blanks and a member pass: right behind the dot the member is copied, and behind blanks it is read as
    any other word. -/
theorem Passes.member (hg : ∀ c ∈ gap, isBlank c = true) (hr : rest.head?.any isWordChar = false)
    (hf : gap ≠ [] → Phrase.find? phrases (m.val ++ rest) = none) (hc : emptyCall? rest = none) :
    Passes phrases before out ('.' :: (gap ++ m.val)) ('.' :: (gap ++ m.written gap rest)) rest := by
  have hgap : ∀ {before out rest : List Char}, Passes phrases before out gap gap rest :=
    .signs fun c hc => isCopied_blank (hg c hc)
  refine .cons (isCopied_sign (by decide) _) (hgap.append ?_)
  unfold Member.written
  split
  · rename_i hn
    subst hn
    exact .goesOn m.property.2 rfl
  · rename_i hn
    have hfree : continues (gap.reverse ++ '.' :: before).head? = false :=
      continues_blank (Text.any_head?_behind_gap hn hg _)
    exact (Part.word m.property hfree hr (hf hn) fun _ => hc).passes

theorem passes_memberOf (hl : ∀ c ∈ lead, isBlank c = true) (hg : ∀ c ∈ gap, isBlank c = true)
    (hr : rest.head?.any isWordChar = false) (hc : emptyCall? rest = none)
    (hx : Phrase.find? phrases (memberOf x lead gap m.val ++ rest) = none)
    (hf : gap ≠ [] → Phrase.find? phrases (m.val ++ rest) = none) :
    Passes phrases [] [] (memberOf x lead gap m.val) (memberOf x lead gap (m.written gap rest)) rest := by
  have hdot : firstInk (lead ++ '.' :: (gap ++ m.val) ++ rest) = some '.' := by
    rw [List.append_assoc]
    exact Text.firstInk_gap hl (by decide) _
  have hlead : ∀ {before out rest : List Char}, Passes phrases before out lead lead rest :=
    .signs fun c hc => isCopied_blank (hl c hc)
  have hword : (lead ++ '.' :: (gap ++ m.val) ++ rest).head?.any isWordChar = false := by
    rw [List.append_assoc]
    exact Text.head?_gap hl rfl
  refine Passes.append ?_ (hlead.append (.member hg hr hf hc))
  refine passes_word_uncalled x.isWord x.ne_connective.1 x.ne_connective.2 rfl hword ?_ ?_
  · rw [hdot]
    decide
  · rwa [← List.append_assoc]

theorem rewrite_memberOf (hl : ∀ c ∈ lead, isBlank c = true) (hg : ∀ c ∈ gap, isBlank c = true) :
    rewrite phrases (memberOf x lead gap m.val) = .ok (memberOf x lead gap (m.written gap [])) := by
  have hnone := notMem_memberOf (x := x) (m := m) hl hg
  have hm : '(' ∉ m.val := fun hm => by cases m.property.2 _ hm
  refine (passes_memberOf hl hg rfl rfl ?_ fun _ => ?_).rewrite_eq
  · rw [List.append_nil]
    exact find?_eq_none_of_notMem hnone
  · rw [List.append_nil]
    exact find?_eq_none_of_notMem hm

theorem emptyCall?_bracketed (y : Name) : emptyCall? (bracketed y.text) = none := by
  have hblank : isBlank y.first = false := Text.not_isBlank_of_isWordChar (Text.isWordChar_of_isWordStart y.starts)
  have hclose : y.first ≠ ')' := Text.ne_of_class y.starts (by decide)
  rw [bracketed, emptyCall?, Text.skipBlank_cons (by decide), Name.text]
  simp only [if_true, List.cons_append, Text.skipBlank_cons hblank, if_neg hclose]

theorem rewrite_memberOf_called (hl : ∀ c ∈ lead, isBlank c = true) (hg : ∀ c ∈ gap, isBlank c = true)
    (hx : Unnamed registry (memberOf x lead gap m.val)) (hm : gap ≠ [] → Unnamed registry m.val) :
    rewrite (Phrase.ofRegistry registry) (memberOf x lead gap m.val ++ bracketed y.text) =
      .ok (memberOf x lead gap (m.written gap (bracketed y.text)) ++ bracketed y.text) := by
  obtain ⟨c, more, hcons, hstart, -⟩ := m.property.exists_cons
  have hne : m.val ≠ [] := by
    rw [hcons]
    exact List.cons_ne_nil _ _
  have hlast : ∀ front : List Char, (front ++ m.val).getLast?.any isBlank = false := Term.last_word hne m.property.2
  have hy : '(' ∉ y.text ++ [')'] := by
    intro hmem
    rcases List.mem_append.mp hmem with hmem | hmem
    · cases Name.isWordChar_of_mem hmem
    · cases List.mem_singleton.mp hmem
  have hfound : Phrase.find? (Phrase.ofRegistry registry) (memberOf x lead gap m.val ++ bracketed y.text) = none := by
    have hend := hlast (x.text ++ (lead ++ '.' :: gap))
    have hcut : x.text ++ (lead ++ '.' :: gap) ++ m.val = memberOf x lead gap m.val := by simp [memberOf]
    rw [hcut] at hend
    exact find?_unspelled (unspelled_of_unnamed hx (not_spaced_memberOf x lead gap m (by decide)))
      (Text.isWordChar_of_isWordStart x.starts) hend (notMem_memberOf hl hg) hy
  have hword : gap ≠ [] → Phrase.find? (Phrase.ofRegistry registry) (m.val ++ bracketed y.text) = none := by
    intro hn
    refine find?_unspelled (unspelled_of_unnamed (hm hn) (not_spaced_member m (by decide))) ?_ (hlast []) (fun hmem => ?_) hy
    · rw [hcons]
      exact Text.isWordChar_of_isWordStart hstart
    · cases m.property.2 _ hmem
  have harg : Passes (Phrase.ofRegistry registry) ((memberOf x lead gap m.val).reverse ++ [])
      ((memberOf x lead gap (m.written gap (bracketed y.text))).reverse ++ []) (bracketed y.text) (bracketed y.text) [] :=
    (y.passes rfl rfl (by decide)).bracketed
  refine (Passes.append ?_ harg).rewrite_eq
  rw [List.append_nil]
  exact passes_memberOf hl hg rfl (emptyCall?_bracketed y) hfound hword

/-- The names of the built-in registry are of several words, so none is spelled as a member. -/
theorem unnamed_builtin (x : Name) (lead gap : List Char) (m : Member) :
    Unnamed .builtin (memberOf x lead gap m.val) ∧ Unnamed .builtin m.val := by
  have hwords : ∀ extension ∈ Verification.extensions, 2 ≤ (Text.words extension.name.toList).length ∧
      ∀ word ∈ Text.words extension.name.toList, '.' ∉ word := by decide
  rw [← builtin_toList] at hwords
  exact ⟨fun extension he _ => not_spaced_memberOf x lead gap m (hwords extension he).2,
    fun extension he _ => not_spaced_member m (hwords extension he).1⟩

/-- What becomes of a member of a variable, and of a member that is called: right behind the dot it keeps its
    spelling, and behind blanks it is written as a word of the dialect is. -/
theorem translate_member (registry : Registry) (x y : Name) (m : Member) (hl : ∀ c ∈ lead, isBlank c = true)
    (hg : ∀ c ∈ gap, isBlank c = true) :
    translate registry (.ofList (memberOf x lead gap m.val)) =
        .ok (.ofList (memberOf x lead gap (m.written gap []))) ∧
      (Unnamed registry (memberOf x lead gap m.val) → (gap ≠ [] → Unnamed registry m.val) →
        translate registry (.ofList (memberOf x lead gap m.val ++ bracketed y.text)) =
          .ok (.ofList (memberOf x lead gap (m.written gap (bracketed y.text)) ++ bracketed y.text))) := by
  refine ⟨?_, fun hx hm => ?_⟩
  · rw [translate_eq_map, rewrite_memberOf hl hg]
    rfl
  · rw [translate_eq_map, rewrite_memberOf_called hl hg hx hm]
    rfl

/-- The keyword stands right behind the dot, and the dot in a line of its own. -/
theorem translate_member_negation : (∀ c ∈ ['\n', ' '], isBlank c = true) ∧ (∀ c ∈ ([] : List Char), isBlank c = true) ∧
    Unnamed .builtin (memberOf person ['\n', ' '] [] "not".toList) ∧
    translate .builtin "person\n .not(xs)" = .ok "person\n .not(xs)" := by
  have hl : ∀ c ∈ ['\n', ' '], isBlank c = true := by decide
  have hg : ∀ c ∈ ([] : List Char), isBlank c = true := by simp
  have hx := (unnamed_builtin person ['\n', ' '] [] ⟨"not".toList, by decide⟩).1
  exact ⟨hl, hg, hx, (translate_member .builtin person numbers ⟨"not".toList, by decide⟩ hl hg).2 hx (absurd rfl)⟩

/-- Behind a dot and a space a member is read as the keyword of the same spelling. -/
theorem member_behind_space : translate .builtin "person. and" = .ok "person. &&" ∧
    translate .builtin "person. not(xs)" = .ok "person. !(xs)" := by
  have hl : ∀ c ∈ ([] : List Char), isBlank c = true := by simp
  have hg : ∀ c ∈ [' '], isBlank c = true := by decide
  obtain ⟨hx, hm⟩ := unnamed_builtin person [] [' '] ⟨"not".toList, by decide⟩
  have hand : rewrite (Phrase.ofRegistry .builtin) "person. and".toList = .ok "person. &&".toList :=
    rewrite_memberOf (x := person) (m := ⟨"and".toList, by decide⟩) hl hg
  have hnot : rewrite (Phrase.ofRegistry .builtin) "person. not(xs)".toList = .ok "person. !(xs)".toList :=
    rewrite_memberOf_called (y := numbers) hl hg hx fun _ => hm
  exact ⟨(translate_eq_map .builtin "person. and".toList).trans (congrArg (Except.map String.ofList) hand),
    (translate_eq_map .builtin "person. not(xs)".toList).trans (congrArg (Except.map String.ofList) hnot)⟩

end Rulebook.Feel
