/-
  Rulebook.Proofs.Reach — a rule that names an extension calls this extension.

  An extension has three names: its own, by which the registry finds it; its words, by
  which a rule calls it; and its identifier, under which the engine has it. They lead to
  the same extension if no keyword comes between them and no other extension comes first
  (`Extension.Reachable`): of the extensions with its words it is the first in name order,
  or one with the identifier of the first, and of those with its identifier the last.
  Otherwise the rule may call another function or none (`calls_elsewhere`).
  - `Reachable.translate_rule`: the rule is rewritten to a call by the identifier.
  - `Reachable.answers`: the call is read, reaches the extension and gives its answer.
-/

import Rulebook.Proofs.Feel.Registered
import Rulebook.Proofs.Invocation

namespace Rulebook

open Rulebook.Expr (callText isPlainName ofCall)
open Rulebook.Text (isBlank isWordStart isWordChar IsWord)
open Rulebook.Time (Timestamp)

def reserved : List (List Char) :=
  ["and".toList, "or".toList, "not".toList, "in".toList, "true".toList, "false".toList, "null".toList]

/-- Names by which rules refer to data of a context. -/
def IsVariable (name : String) : Prop :=
  IsWord name.toList ∧ name ∉ ["and", "or", "in", "true", "false", "null", clockName]

instance (name : String) : Decidable (IsVariable name) := inferInstanceAs (Decidable (_ ∧ _))

namespace Extension

def rule (extension : Extension) (args : List String) : String := String.ofList (callText extension.name.toList args)

/-- An extension that rules reach by its name, if a registry is made of the definitions. -/
structure Reachable (definitions : List Extension) (words : List (List Char)) (extension : Extension) : Prop where
  mem : extension ∈ definitions
  distinct : (definitions.map Extension.name).Nodup
  spelled : Feel.Spaced words extension.name.toList
  isWord : ∀ word ∈ words, IsWord word
  spaces : ∀ c ∈ extension.name.toList, isBlank c = true → c = ' '
  /-- A name of one word is no keyword, not the clock without arguments, and not `has` with one. -/
  free : ∀ word, words = [word] → word ∉ reserved ∧ (word = "now".toList → extension.arity ≠ 0) ∧
    (word = "has".toList → extension.arity ≠ 1)
  /-- A name of one word is the only one with this word. -/
  alone : ∀ word, words = [word] → ∀ other ∈ definitions, Text.words other.name.toList = [word] → other = extension
  first : ∀ other ∈ definitions, Text.words other.name.toList = words →
    (∀ another ∈ definitions, Text.words another.name.toList = words → ¬another.name < other.name) →
    other.identifier = extension.identifier
  last : ∀ other ∈ definitions, other.identifier = extension.identifier → ¬extension.name < other.name

theorem toList_identifier (extension : Extension) :
    extension.identifier.toList = extension.name.toList.map fun c => if c = ' ' then '_' else c :=
  String.toList_ofList

namespace Reachable

variable {definitions : List Extension} {words : List (List Char)} {extension : Extension} {args : List String}

/-! ## The identifier -/

theorem isWord_identifier (h : Reachable definitions words extension) : IsWord extension.identifier.toList := by
  have hchars : ∀ c ∈ extension.name.toList, isWordChar c = true ∨ isBlank c = true :=
    h.spelled.forall_mem (fun word hm c hc => Or.inl ((h.isWord word hm).2 c hc)) fun c hc => Or.inr hc
  rw [toList_identifier]
  constructor
  · obtain ⟨c, more, hname, hc⟩ := Feel.exists_cons_of_spaced h.spelled h.isWord
    have hspace : c ≠ ' ' := Text.ne_of_class hc (by decide)
    simp [hname, hspace, hc]
  · intro d hd
    obtain ⟨c, hc, rfl⟩ := List.mem_map.mp hd
    split
    · decide
    · rename_i hspace
      rcases hchars c hc with hw | hb
      · exact hw
      · exact absurd (h.spaces c hc hb) hspace

theorem one_or_several (h : Reachable definitions words extension) :
    (words = [extension.name.toList] ∧ extension.identifier = extension.name) ∨
      2 ≤ words.length ∧ '_' ∈ extension.identifier.toList := by
  have hwords := Feel.words_of_spaced_self h.spelled fun word hm => (h.isWord word hm).isInk
  match words, h, hwords with
  | [], h, _ => exact absurd rfl h.spelled.ne_nil
  | [word], h, _ =>
    obtain rfl := h.spelled.eq_of_one
    refine Or.inl ⟨rfl, String.toList_injective ?_⟩
    have hkept : ∀ c ∈ extension.name.toList, (if c = ' ' then '_' else c) = c := by
      intro c hc
      rw [if_neg]
      exact Text.ne_of_class ((h.isWord _ (List.mem_cons_self ..)).2 c hc) (by decide)
    rw [toList_identifier, List.map_congr_left hkept, List.map_id']
  | first :: second :: more, h, hwords =>
    have hseveral : 2 ≤ (first :: second :: more).length := by simp
    obtain ⟨c, hc, hb⟩ := List.any_eq_true.mp (Feel.any_isBlank_of_words (hwords ▸ hseveral))
    refine Or.inr ⟨hseveral, ?_⟩
    rw [toList_identifier]
    exact List.mem_map.mpr ⟨c, hc, if_pos (h.spaces c hc hb)⟩

theorem identifier_ne (h : Reachable definitions words extension) {other : String} (ho : '_' ∉ other.toList)
    (hr : words = [other.toList] → False) : extension.identifier ≠ other := by
  rintro rfl
  rcases h.one_or_several with ⟨hone, hid⟩ | ⟨-, hm⟩
  · rw [hid] at hr
    exact hr hone
  · exact ho hm

theorem isPlainName_identifier (h : Reachable definitions words extension) :
    isPlainName extension.identifier = true := by
  have hne : ∀ other : String, '_' ∉ other.toList → other.toList ∈ reserved → extension.identifier ≠ other :=
    fun other ho hm => h.identifier_ne ho fun hone => (h.free _ hone).1 hm
  simp only [isPlainName, Bool.and_eq_true, bne_iff_ne]
  exact ⟨⟨⟨hne "in" (by decide) (by decide), hne "true" (by decide) (by decide)⟩, hne "false" (by decide) (by decide)⟩,
    hne "null" (by decide) (by decide)⟩

theorem ofCall_identifier (h : Reachable definitions words extension) (hcount : args.length = extension.arity) :
    ofCall extension.identifier (args.map .ident) = some (.call extension.identifier (args.map .ident)) := by
  match args, hcount with
  | [], _ => rfl
  | [arg], hcount =>
    have hne : extension.identifier ≠ "has" :=
      h.identifier_ne (by decide) fun hone => (h.free _ hone).2.2 rfl hcount.symm
    simp [ofCall, hne]
  | _ :: _ :: _, _ => rfl

/-! ## The rule -/

theorem areCopied (hargs : ∀ arg ∈ args, IsVariable arg) : Feel.AreCopied args := by
  intro arg ha
  obtain ⟨hw, hfree⟩ := hargs arg ha
  simp only [List.mem_cons, not_or] at hfree
  exact ⟨hw, fun he => hfree.1 (String.toList_injective he), fun he => hfree.2.1 (String.toList_injective he)⟩

theorem translate_rule (h : Reachable definitions words extension) (hargs : ∀ arg ∈ args, IsVariable arg)
    (hcount : args.length = extension.arity) : Feel.translate (.ofList definitions) (extension.rule args) =
      .ok (String.ofList (callText extension.identifier.toList args)) := by
  have hmem : ∀ other ∈ (Registry.ofList definitions).toList, other ∈ definitions :=
    fun other => (Registry.mem_toList_iff h.distinct).mp
  have hrewrite : Feel.rewrite (Feel.Phrase.ofRegistry (.ofList definitions)) (callText extension.name.toList args) =
      .ok (callText extension.identifier.toList args) := by
    rcases h.one_or_several with ⟨hone, hid⟩ | ⟨hseveral, -⟩
    · have hword : IsWord extension.name.toList := h.isWord _ (by rw [hone]; exact List.mem_cons_self ..)
      obtain ⟨hfree, hnow, -⟩ := h.free _ hone
      simp only [reserved, List.mem_cons, not_or] at hfree
      rw [hid]
      refine Feel.rewrite_call_word hword ⟨hfree.1, hfree.2.1, hfree.2.2.1⟩ (fun hn hnil => ?_) (areCopied hargs)
        fun tail => Feel.find?_unregistered hword fun other ho hwords => ?_
      · rw [hnil] at hcount
        exact hnow hn hcount.symm
      · rw [h.alone _ hone other (hmem other ho) hwords]
    · obtain ⟨c, more, hname, hc⟩ := Feel.exists_cons_of_spaced h.spelled h.isWord
      refine Feel.rewrite_call_found (by rw [hname]; exact hc) (areCopied hargs) fun tail =>
        Feel.find?_registered (Registry.sorted_toList definitions) ((Registry.mem_toList_iff h.distinct).mpr h.mem)
          h.spelled h.isWord hseveral fun other ho hwords hleast => ?_
      refine h.first other (hmem other ho) hwords fun another ha => ?_
      exact hleast another ((Registry.mem_toList_iff h.distinct).mpr ha)
  rw [Feel.translate, rule, String.toList_ofList, hrewrite]
  rfl

theorem parse?_rule (h : Reachable definitions words extension) (hargs : ∀ arg ∈ args, IsVariable arg)
    (hcount : args.length = extension.arity) : Expr.parse? (callText extension.identifier.toList args) =
      some (.call extension.identifier (args.map .ident)) := by
  refine Expr.parse?_call h.isWord_identifier h.isPlainName_identifier (fun arg ha => ?_) (h.ofCall_identifier hcount)
  obtain ⟨hw, hfree⟩ := hargs arg ha
  simp only [List.mem_cons, not_or] at hfree
  exact ⟨hw, by simp [isPlainName, hfree]⟩

theorem function?_identifier (h : Reachable definitions words extension) :
    (Registry.ofList definitions).function? extension.identifier = some extension.function := by
  refine Registry.function?_of_last (Registry.sorted_toList definitions) ((Registry.mem_toList_iff h.distinct).mpr h.mem)
    fun other ho => ?_
  exact h.last other ((Registry.mem_toList_iff h.distinct).mp ho)

theorem scope_data {arrangement : Arrangement} {context : Context} {values : List Value} {registry : Registry}
    {clock : Timestamp} (hargs : ∀ arg ∈ args, IsVariable arg) (hvalues : args.map context.get? = values.map some) :
    args.map (Expr.Scope.ofBatch arrangement registry context clock).data =
      (Datum.arrangedItems arrangement (Datum.ofItems values)).map some := by
  induction args generalizing values with
  | nil =>
    obtain rfl : values = [] := by simpa using hvalues.symm
    rfl
  | cons arg args ih =>
    cases values with
    | nil => cases hvalues
    | cons value values =>
      obtain ⟨hvalue, hrest⟩ := List.cons.inj hvalues
      have hclock : arg ≠ clockName := by
        have hfree := (hargs arg (List.mem_cons_self ..)).2
        simp only [List.mem_cons, not_or] at hfree
        exact hfree.2.2.2.2.2.2.1
      rw [List.map_cons, ih (fun other ho => hargs other (List.mem_cons_of_mem _ ho)) hrest]
      simp [Expr.Scope.ofBatch, hclock, hvalue, Datum.ofItems, Datum.arrangedItems]

/-- A rule that names a reachable extension, with variables as arguments, calls the extension that its name
    leads to, and its answer is the answer of that extension to the data of the variables. -/
theorem answers (h : Reachable definitions words extension) (hargs : ∀ arg ∈ args, IsVariable arg)
    (hcount : args.length = extension.arity) {context : Context} {values : List Value}
    (hvalues : args.map context.get? = values.map some) (hordered : Value.OrderedItems values)
    (arrangement : Arrangement) (clock : Timestamp) :
    (Registry.ofList definitions).resolve extension.name = some extension ∧
      (∃ source, Feel.translate (.ofList definitions) (extension.rule args) = .ok source ∧
        Expr.parse? source.toList = some (.call extension.identifier (args.map .ident)) ∧
        (Registry.ofList definitions).function? extension.identifier = some extension.function) ∧
      (Engine.arranging arrangement .feel).session (.ofList definitions) context clock (extension.rule args) =
        (extension.call values).mapError fun fault =>
          .notEvaluated (extension.rule args) (.execution extension.name fault.message) := by
  have htranslate := h.translate_rule hargs hcount
  have hparse := h.parse?_rule hargs hcount
  have hfunction := h.function?_identifier
  refine ⟨Registry.resolve_of_mem h.distinct h.mem, ⟨_, htranslate, by rw [String.toList_ofList, hparse], hfunction⟩, ?_⟩
  have heval : (Expr.call extension.identifier (args.map .ident)).eval
      (.ofBatch arrangement (.ofList definitions) context clock) =
        extension.function ⟨extension.identifier, none, (Datum.arrangedItems arrangement (Datum.ofItems values)).map .ok⟩ :=
    Expr.eval_call hfunction (scope_data hargs hvalues)
  rw [function_reordered hordered (Datum.reorderedItems_arranged arrangement _)] at heval
  simp only [Engine.arranging, Dialect.source, htranslate, bind, Except.bind, answer, String.toList_ofList, hparse, heval]
  cases hc : extension.call values with
  | ok value =>
    obtain ⟨b, rfl⟩ := call_eq_ok hc
    rfl
  | error fault => rfl

/-- A built-in extension with a name of three words, called with a mapping and a list. -/
theorem answers_allowedChanges : ∃ extension ∈ Verification.extensions,
    extension.rule ["object", "keys"] = "has allowed changes(object, keys)" ∧
      (Engine.standard .feel).session .builtin
        (.ofList [("keys", .sequence [.string "a"]), ("object", .mapping [("a", .null), ("id", .int 1)])]) ⟨0, 0, 0⟩
        "has allowed changes(object, keys)" = .ok (.boolean true) := by
  refine ⟨_, List.mem_cons_self .., by decide, ?_⟩
  have h : Reachable Verification.extensions ["has".toList, "allowed".toList, "changes".toList]
      Verification.extensions[0] := by
    refine ⟨List.mem_cons_self .., by decide, ?_, by decide, by decide, ?_, ?_, by decide, by decide⟩
    · exact .cons "has".toList (List.cons_ne_nil ' ' []) (by decide)
        (.cons "allowed".toList (List.cons_ne_nil ' ' []) (by decide) (.one "changes".toList))
    · intro word hword
      cases hword
    · intro word hword
      cases hword
  have hvariables : ∀ arg ∈ ["object", "keys"], IsVariable arg := by decide
  have hordered : Value.OrderedItems [.mapping [("a", .null), ("id", .int 1)], .sequence [.string "a"]] :=
    ⟨⟨by decide, trivial, trivial, trivial⟩, ⟨trivial, trivial⟩, trivial⟩
  exact (h.answers hvariables rfl rfl hordered .asSet ⟨0, 0, 0⟩).2.2

end Reachable

/-! ## Extensions that rules do not reach -/

def constant (name : String) (parameters : List String) (answer : Bool) : Extension :=
  ⟨name, "", parameters, fun _ => .ok answer⟩

def answerTo (definitions : List Extension) (rule : String) : Except Failure Value :=
  (Engine.standard .feel).session (.ofList definitions) (.ofList [("x", .boolean true)]) ⟨0, 0, 0⟩ rule

/-- A keyword, the clock, a form of the engine, a constant, a blank that is no space, an identifier of another
    extension, and twice the words of another come between a name and its extension, which answers true. -/
theorem calls_elsewhere :
    ((Registry.ofList [constant "not" ["a"] true]).resolve "not" = some (constant "not" ["a"] true) ∧
      (constant "not" ["a"] true).call [.boolean true] = .ok (.boolean true) ∧
      answerTo [constant "not" ["a"] true] "not(x)" = .ok (.boolean false)) ∧
    answerTo [constant "now" [] true] "now()" = .ok (.string "1970-01-01T00:00:00Z") ∧
    answerTo [constant "has" ["a"] true] "has(x)" = .error (.notRead "has(x)") ∧
    answerTo [constant "true" ["a"] true] "true(x)" = .error (.notRead "true(x)") ∧
    answerTo [constant "is\tok" ["a"] true] "is\tok(x)" = .error (.notRead "is\tok(x)") ∧
    answerTo [constant "is ok" ["a"] true, constant "is_ok" ["a"] false] "is ok(x)" = .ok (.boolean false) ∧
    answerTo [constant "is ok" ["a"] true, constant "is  ok" ["a"] false] "is ok(x)" = .ok (.boolean false) ∧
    answerTo [constant "ok" ["a"] true, constant " ok" ["a"] false] "ok(x)" = .ok (.boolean false) := by
  refine ⟨⟨Registry.resolve_of_mem (by decide) (List.mem_cons_self ..), rfl, ?_⟩, ?_, ?_, ?_, ?_, ?_, ?_, ?_⟩ <;> cbv

end Extension

end Rulebook
