/-
  Rulebook.Proofs.TextKey — an index whose text starts with a string.

  Whether an index is a key or a place is told from the first sign of its text. So a
  place that is computed from a string, such as the number of its characters, is taken
  for a key: nothing is taken from it, and the item is the one behind the item that the
  rule counts to. A comment at the end of such a text takes the closing bracket in, and
  the rule is not read.
  - `rewrite_textKey`: the text is rewritten as a rule of its own, and blanks around it go.
  - `parse?_itemText`: it is read as the expression that it is on its own.
  - `session_textKey`: what the rule answers, for the number that the text is on its own.
-/

import Rulebook.Proofs.Expr.Extended
import Rulebook.Proofs.Expr.Tokens
import Rulebook.Proofs.Feel.Numbered
import Rulebook.Proofs.Feel.Parts
import Rulebook.Proofs.Selection

namespace Rulebook.Feel

open Rulebook.Expr (itemText)
open Rulebook.Text (trim firstInk)

variable {phrases : List Phrase} {before out text more source : List Char}

theorem Rewritten.firstInk_quote (h : Rewritten phrases before out text more) (hq : firstInk text = some '"') :
    firstInk more = some '"' := by
  obtain ⟨gap, rest, rfl, hgap⟩ := Text.exists_of_firstInk hq
  have hblanks : Passes phrases before out gap gap ('"' :: rest) := .signs fun c hc => isCopied_blank (hgap c hc)
  obtain ⟨later, rfl, hlater⟩ := hblanks.rewritten_iff.mp h
  cases hl : literal? rest with
  | none =>
    have hscan := hlater.scan_eq
    rw [scan_unclosed hl] at hscan
    cases hscan
  | some found =>
    obtain ⟨content, left⟩ := found
    obtain rfl := literal?_append hl
    obtain ⟨last, rfl, -⟩ := (Passes.literal hl).rewritten_iff.mp hlater
    exact Text.firstInk_gap hgap rfl _

/-- The index is rewritten as a rule of its own, and only blanks around it go. -/
theorem rewrite_textKey {list : String} {place : List Char} (hp : ∀ phrase ∈ phrases, phrase.IsSpelled)
    (hl : IsListName list) (hclosed : closes .outside 0 place = true) (hq : firstInk place = some '"')
    (hr : rewrite phrases place = .ok source) :
    rewrite phrases (itemText list.toList place) = .ok (itemText list.toList (trim source)) := by
  obtain ⟨hword, ha, ho⟩ := hl.1.copied
  have hink : firstInk ('[' :: (place ++ [']'])) ≠ some '(' := by
    rw [firstInk, Text.skipBlank_cons (by decide)]
    simp
  have hname : Passes phrases [] [] list.toList list.toList ('[' :: (place ++ [']'])) :=
    passes_word_uncalled hword ha ho rfl rfl hink (find?_eq_none hp hword.2 rfl (Or.inr rfl))
  have hrewritten : Rewritten phrases [] [] place source := rewritten_iff.mpr hr
  have hkey : (trim source).head? = some '"' := Text.head?_trim (hrewritten.firstInk_quote hq)
  rw [rewrite_itemText hname hl.opensIndex hclosed, hr]
  simp [Except.bind, lowered, hkey, Except.map]

end Rulebook.Feel

namespace Rulebook.Expr

open Rulebook.Text (IsWord trim)

variable {list : String} {index : List Char} {tokens : List Token} {e : Expr} {n : Nat}

/-! ## Reading -/

theorem parse?_eq_some_iff : parse? index = some e ↔
    ∃ tokens, tokens? index = some tokens ∧ parseExpr (20 * (tokens.length + 1)) tokens = some (e, []) := by
  rw [parse?]
  constructor
  · intro h
    obtain ⟨tokens, ht, h⟩ := Option.bind_eq_some_iff.mp h
    obtain ⟨⟨found, left⟩, hp, h⟩ := Option.bind_eq_some_iff.mp h
    cases left with
    | nil => exact ⟨tokens, ht, by rw [hp, Option.some.inj h]⟩
    | cons token left => cases h
  · rintro ⟨tokens, ht, hp⟩
    simp [ht, hp]

theorem parse?_trim (h : parse? index = some e) : parse? (trim index) = some e := by
  obtain ⟨tokens, ht, hp⟩ := parse?_eq_some_iff.mp h
  exact parse?_eq_some_iff.mpr ⟨tokens, tokens?_trim ht, hp⟩

theorem detached_close : Detached [']'] where
  head c hc := Or.inr (Or.inr (Option.some.inj hc).symm)
  quotes c hc := by
    rw [List.mem_singleton.mp hc]
    decide

/-- The tokens of an index stand between brackets, of which a comment takes in the second. -/
theorem tokens?_itemText (hl : IsWord list.toList) (h : tokens? index = some tokens) :
    tokens? (itemText list.toList index) =
      some (.name list :: .mark "[" :: (tokens ++ if EndsInComment index then [] else [.mark "]"])) := by
  have hstops : Stops ('[' :: (index ++ [']'])) := rfl
  have hindex : lex false 0 index = some tokens := h
  rw [tokens?, itemText, lex_word hl hstops, lex_openItem, lex_append detached_close false (Nat.zero_le _), hindex]
  by_cases hc : EndsInComment index
  · have hcomment : endsInComment false 0 index = true := hc
    rw [if_pos hc, hcomment]
    simp [show lex true 0 [']'] = some [] from rfl]
  · have hcomment : endsInComment false 0 index = false := by simpa [EndsInComment] using hc
    rw [if_neg hc, hcomment]
    simp [show lex false 0 [']'] = some [.mark "]"] from rfl]

theorem parseExpr_unclosed (hl : isPlainName list = true) (h : parseExpr (n + 1) tokens = some (e, [])) :
    parseExpr (n + 10) (.name list :: .mark "[" :: tokens) = none := by
  have hsimple : parseSimple (n + 2) (.name list :: .mark "[" :: tokens) = some (.ident list, .mark "[" :: tokens) := by
    rw [parseSimple_name hl]
    simp [parseNamed, afterMessageName?, hl]
  have hmember : parseMember (n + 3) (.name list :: .mark "[" :: tokens) = none := by
    simp [parseMember, hsimple, moreMember, h]
  have hsigned : parseSigned (n + 4) (.name list :: .mark "[" :: tokens) = none := by simp [parseSigned, hmember]
  rw [parseExpr, parseEither, parseBoth, parseComparison, parseSum, parseProduct, hsigned]
  rfl

/-- What is read between the brackets is what the index is on its own. -/
theorem parse?_itemText (hw : IsWord list.toList) (hl : isPlainName list = true) (h : parse? index = some e) :
    parse? (itemText list.toList index) = if EndsInComment index then none else some (.item (.ident list) e) := by
  obtain ⟨tokens, ht, hp⟩ := parse?_eq_some_iff.mp h
  have htokens := tokens?_itemText hw ht
  -- the tokens around the index bring more fuel than the levels above it take
  obtain ⟨m, hm⟩ : ∃ m, 20 * (tokens.length + 1) = m := ⟨_, rfl⟩
  rw [hm] at hp
  by_cases hc : EndsInComment index
  · rw [if_pos hc, List.append_nil] at htokens
    have hmore := parseExpr_append hp .nothing 31
    rw [List.append_nil, List.append_nil, Nat.add_comm] at hmore
    have hfuel : 20 * ((Token.name list :: .mark "[" :: tokens).length + 1) = m + 30 + 10 := by
      simp only [List.length_cons]
      omega
    rw [if_pos hc, Option.eq_none_iff_forall_ne_some]
    intro found hfound
    obtain ⟨others, hothers, hread⟩ := parse?_eq_some_iff.mp hfound
    obtain rfl := Option.some.inj (htokens.symm.trans hothers)
    rw [hfuel, parseExpr_unclosed hl hmore] at hread
    cases hread
  · rw [if_neg hc] at htokens
    have hmore := parseExpr_append hp (.square []) 51
    rw [List.nil_append, Nat.add_comm] at hmore
    have hfuel : 20 * ((Token.name list :: .mark "[" :: (tokens ++ [.mark "]"])).length + 1) = m + 50 + 10 := by
      simp only [List.length_cons, List.length_append, List.length_nil]
      omega
    rw [if_neg hc, parse?_eq_some_iff]
    exact ⟨_, htokens, by rw [hfuel]; exact parseExpr_item hl hmore (Or.inl rfl)⟩

/-! ## Evaluating -/

/-- The place of an item may be any expression that gives a number. -/
theorem eval_itemAt {scope : Scope} {items : List Datum} {k : Int64} (hl : scope.data list = some (.list items))
    (he : e.eval scope = .ok (.int k)) : eval (.item (.ident list) e) scope = .ok (itemAt items k.toInt) := by
  simp [eval, hl, he, bind, Except.bind, Datum.item, itemAt]

end Rulebook.Expr

namespace Rulebook

open Rulebook.Expr (EndsInComment)
open Rulebook.Feel (Phrase closes)
open Rulebook.Text (trim firstInk)
open Rulebook.Time (Timestamp)

variable {arrangement : Arrangement} {registry : Registry} {context : Context} {clock : Timestamp} {rule list : String} {source : List Char}
  {items : List Value} {value : Value} {datum : Datum} {n : Int64}

/-! ## Answering -/

theorem exists_of_session (h : (Engine.arranging arrangement .feel).session registry context clock rule = .ok value) :
    ∃ source e datum, Feel.rewrite (Phrase.ofRegistry registry) rule.toList = .ok source ∧ Expr.parse? source = some e ∧
      e.eval (.ofBatch arrangement registry context clock) = .ok datum ∧ datum.toValue = .ok value := by
  cases hr : Feel.rewrite (Phrase.ofRegistry registry) rule.toList with
  | error fault =>
    simp [Engine.arranging, Dialect.source, Feel.translate, hr, Except.map, bind, Except.bind] at h
  | ok source =>
    cases hp : Expr.parse? source with
    | none =>
      simp only [session_eq_answer hr, answer, String.toList_ofList, hp] at h
      cases h
    | some e =>
      rw [session_eq hr hp] at h
      cases he : e.eval (.ofBatch arrangement registry context clock) with
      | error fault =>
        rw [he] at h
        cases h
      | ok datum =>
        rw [he] at h
        cases hd : datum.toValue with
        | error part =>
          simp only [hd] at h
          cases h
        | ok found =>
          simp only [hd] at h
          obtain rfl := Except.ok.inj h
          exact ⟨source, e, datum, rfl, hp, he, hd⟩

theorem session_unread (hr : Feel.rewrite (Phrase.ofRegistry registry) rule.toList = .ok source)
    (hp : Expr.parse? source = none) :
    (Engine.arranging arrangement .feel).session registry context clock rule = .error (.notRead rule) := by
  simp only [session_eq_answer hr, answer, String.toList_ofList, hp]

theorem eq_int_of_toValue (h : datum.toValue = .ok (.int n)) : datum = .int n := by
  cases datum with
  | int k =>
    cases h
    rfl
  | list items =>
    rw [Datum.toValue] at h
    cases hread : Datum.toItems items <;> rw [hread] at h <;> cases h
  | map entries =>
    rw [Datum.toValue] at h
    cases hread : Datum.toEntries [] entries <;> rw [hread] at h <;> cases h
  | null | boolean | uint | float | string | bytes | duration | timestamp | function => cases h

/-- The item that a text computes the place of, if the text starts with a string: the place is counted from 0, so it
    is the item behind the one that the text names, and null behind the last. -/
theorem session_textKey (hp : ∀ phrase ∈ Phrase.ofRegistry registry, phrase.IsSpelled) (hl : IsListName list)
    (hitems : context.get? list = some (.sequence items)) (ho : Value.OrderedItems items) {place : String}
    (hclosed : closes .outside 0 place.toList = true) (hq : firstInk place.toList = some '"')
    (hn : (Engine.arranging arrangement .feel).session registry context clock place = .ok (.int n)) :
    ∃ source, Feel.translate registry place = .ok source ∧
      (Engine.arranging arrangement .feel).session registry context clock (itemRule list place.toList) =
        if EndsInComment (trim source.toList) then .error (.notRead (itemRule list place.toList))
        else .ok (valueAt items n.toInt) := by
  obtain ⟨source, e, datum, hr, hparse, he, hd⟩ := exists_of_session hn
  obtain rfl := eq_int_of_toValue hd
  refine ⟨.ofList source, by rw [Feel.translate, hr]; rfl, ?_⟩
  have hrule : (itemRule list place.toList).toList = Expr.itemText list.toList place.toList := String.toList_ofList
  have hrewrite := Feel.rewrite_textKey hp hl hclosed hq hr
  rw [← hrule] at hrewrite
  have hread := Expr.parse?_itemText hl.1.1 hl.1.isPlainName (Expr.parse?_trim hparse)
  rw [String.toList_ofList]
  by_cases hc : EndsInComment (trim source)
  · rw [if_pos hc] at hread ⊢
    exact session_unread hrewrite hread
  · rw [if_neg hc] at hread ⊢
    rw [session_eq hrewrite hread, Expr.eval_itemAt (data_variable hl.1 hitems) he]
    simp only [toValue_itemAt ho]
    rfl

theorem isSpelled_builtin : ∀ phrase ∈ Phrase.ofRegistry .builtin, phrase.IsSpelled := by
  rw [Feel.phrases_builtin]
  exact Feel.isSpelled_builtin

def greetings : Context := .ofList [("c", .string "de"), ("xs", .sequence [.string "Hello", .string "Hallo"])]

/-- The first item is asked for, and the second is the answer. -/
theorem session_textKey_choice :
    (Engine.standard .feel).session .builtin greetings ⟨0, 0, 0⟩ "\"en\" = c ? 2 : 1" = .ok (.int 1) ∧
      (Engine.standard .feel).session .builtin greetings ⟨0, 0, 0⟩ "xs[\"en\" = c ? 2 : 1]" = .ok (.string "Hallo") := by
  have hl : IsListName "xs" := by decide
  have ho : Value.OrderedItems [.string "Hello", .string "Hallo"] := ⟨trivial, trivial, trivial⟩
  have hitems : greetings.get? "xs" = some (.sequence [.string "Hello", .string "Hallo"]) := rfl
  have hpasses : Feel.Passes Feel.builtinPhrases [] [] "\"en\" = c ? 2 : 1".toList "\"en\" == c ? 2 : 1".toList [] := by
    unfold Feel.Passes
    cbv
  have hparse : Expr.parse? "\"en\" == c ? 2 : 1".toList = some (.choice
      (.binary .equal (.literal (.string "en")) (.ident "c")) (.literal (.int 2)) (.literal (.int 1))) := by cbv
  have hn : (Engine.standard .feel).session .builtin greetings ⟨0, 0, 0⟩ "\"en\" = c ? 2 : 1" = .ok (.int 1) := by
    rw [Engine.standard, session_eq (by rw [Feel.phrases_builtin]; exact hpasses.rewrite_eq) hparse]
    rfl
  have hclosed : closes .outside 0 "\"en\" = c ? 2 : 1".toList = true := by decide
  obtain ⟨source, hsource, hanswer⟩ := session_textKey isSpelled_builtin hl hitems ho hclosed (by decide) hn
  obtain rfl := Except.ok.inj ((Feel.translate_of_passes hpasses).symm.trans hsource)
  rw [if_neg (by decide)] at hanswer
  exact ⟨hn, hanswer⟩

def tens : Context := .ofList [("xs", .sequence [.int 10, .int 20, .int 30])]

/-- The characters of a text are two, and the item that their number takes is the third. -/
theorem item_behind_text_place :
    (Engine.standard .feel).session .builtin tens ⟨0, 0, 0⟩ "\"ab\".size()" = .ok (.int 2) ∧
      (Engine.standard .feel).session .builtin tens ⟨0, 0, 0⟩ "xs[\"ab\".size()]" = .ok (.int 30) ∧
      (Engine.standard .feel).session .builtin tens ⟨0, 0, 0⟩ "xs[\"ab\".size()]" ≠ .ok (.int 20) := by
  have hpasses : Feel.Passes (Phrase.ofRegistry .builtin) [] [] "\"ab\".size()".toList "\"ab\".size()".toList [] := by
    rw [Feel.phrases_builtin]
    unfold Feel.Passes
    cbv
  have hparse : Expr.parse? "\"ab\".size()".toList = some (.method (.literal (.string "ab")) "size" []) := by cbv
  have hl : IsListName "xs" := by decide
  have hindex := Feel.rewrite_textKey isSpelled_builtin hl (by decide) (by decide) hpasses.rewrite_eq
  have hitem : Expr.parse? "xs[\"ab\".size()]".toList =
      some (.item (.ident "xs") (.method (.literal (.string "ab")) "size" [])) := by cbv
  have hthird : (Engine.standard .feel).session .builtin tens ⟨0, 0, 0⟩ "xs[\"ab\".size()]" = .ok (.int 30) := by
    rw [Engine.standard, session_eq hindex hitem]
    rfl
  refine ⟨by rw [Engine.standard, session_eq hpasses.rewrite_eq hparse]; rfl, hthird, ?_⟩
  rw [hthird]
  intro h
  cases h

end Rulebook
