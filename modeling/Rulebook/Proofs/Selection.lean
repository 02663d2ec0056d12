/-
  Rulebook.Proofs.Selection — a rule that takes an item of a list gets the item at that
  place, counted from 1.

  A place that is a number is lowered by one when the rule is rewritten, and a place that
  is a name when the rule is evaluated. Both come to the place that the engine counts
  from 0, and below the first place or behind the last one there is nothing: the least
  number of 64 bits cannot be lowered, and with any other the answer is null.
  - `rewrite_item`: how a list with an index is rewritten.
  - `session_name`, `session_digits`: the answer for a place of either kind.
  - `selects_item`: what this says of the items.
-/

import Rulebook.Proofs.Expr.Item
import Rulebook.Proofs.Feel.Place
import Rulebook.Proofs.Reach

namespace Rulebook

open Rulebook.Expr (itemText lessOne itemAt isPlainName)
open Rulebook.Feel (Phrase Passes)
open Rulebook.Text (isBlank isWordChar trim numeral IsWord IsNumeral)
open Rulebook.Time (Timestamp)

/-- Names of lists: variables other than the words that a list may follow. -/
def IsListName (name : String) : Prop := IsVariable name ∧ name.toList ∉ Feel.listWords

instance (name : String) : Decidable (IsListName name) := inferInstanceAs (Decidable (_ ∧ _))

def itemRule (list : String) (place : List Char) : String := String.ofList (itemText list.toList place)

variable {list place : String} {digits : List Char} {phrases : List Phrase}

/-! ## Rewriting -/

theorem IsVariable.copied (h : IsVariable place) :
    IsWord place.toList ∧ place.toList ≠ "and".toList ∧ place.toList ≠ "or".toList := by
  obtain ⟨hw, hfree⟩ := h
  simp only [List.mem_cons, not_or] at hfree
  exact ⟨hw, fun he => hfree.1 (String.toList_injective he), fun he => hfree.2.1 (String.toList_injective he)⟩

theorem IsVariable.isPlainName (h : IsVariable place) : isPlainName place = true := by
  have hfree := h.2
  simp only [List.mem_cons, not_or] at hfree
  simp [Expr.isPlainName, hfree]

theorem IsListName.opensIndex (h : IsListName list) : Feel.opensIndex (list.toList.reverse ++ []) = true := by
  obtain ⟨c, more, hcons, -, -⟩ := h.1.1.exists_cons
  have hne : list.toList ≠ [] := by rw [hcons]; exact List.cons_ne_nil _ _
  rw [Feel.opensIndex_word hne h.1.1.2 rfl]
  simpa using h.2

/-- The index of a list is rewritten and lowered, and nothing else of the rule changes. -/
theorem rewrite_item {inner index low : List Char} (hl : IsListName list) (hw : ∀ c ∈ inner, isWordChar c = true)
    (hi : Feel.rewrite phrases inner = .ok index) (hlow : Feel.lowered index list.toList.length = .ok low) :
    Feel.rewrite phrases (itemText list.toList inner) = .ok (itemText list.toList low) := by
  obtain ⟨hword, ha, ho⟩ := hl.1.copied
  have hnone : '(' ∉ '[' :: (inner ++ [']']) := Feel.notMem_index fun hm => absurd (hw _ hm) (by decide)
  have hclosed : Feel.Closed inner := Feel.Closed.of_forall fun c hc =>
    ⟨Text.ne_of_class (hw c hc) (by decide), Text.ne_of_class (hw c hc) (by decide), Text.ne_of_class (hw c hc) (by decide)⟩
  have hname : Passes phrases [] [] list.toList list.toList ('[' :: (inner ++ [']']) ++ []) :=
    Feel.passes_word_copied hword ha ho rfl rfl (by rwa [List.append_nil])
  have hindex : Passes phrases (list.toList.reverse ++ []) (list.toList.reverse ++ []) ('[' :: (inner ++ [']']))
      ('[' :: (low ++ [']'])) [] :=
    .of_index hl.opensIndex (hclosed.bracket?_eq []) hi (by simpa using hlow)
  exact (hname.append hindex).rewrite_eq

theorem rewrite_name (hl : IsListName list) (hp : IsVariable place) :
    Feel.rewrite phrases (itemText list.toList place.toList) = .ok (itemText list.toList (lessOne place.toList)) := by
  obtain ⟨hword, ha, ho⟩ := hp.copied
  have hinner : Feel.rewrite phrases place.toList = .ok place.toList :=
    (Feel.passes_word_copied hword ha ho rfl rfl List.not_mem_nil).rewrite_eq
  refine rewrite_item hl hword.2 hinner ?_
  obtain ⟨c, more, hcons, hc, -⟩ := hword.exists_cons
  have hmem : c ∈ place.toList := by rw [hcons]; exact List.mem_cons_self ..
  obtain ⟨hdigit, hplus, hminus⟩ := Text.not_isDigit_of_isWordStart hc
  have hblank : ∀ d ∈ place.toList, isBlank d = false := fun d hd => Text.not_isBlank_of_isWordChar (hword.2 d hd)
  have htrim : trim place.toList = place.toList := Text.trim_ink hblank
  have hq : place.toList.head? ≠ some '"' := fun hh => Text.ne_of_class (hword.2 _ (List.mem_of_head? hh)) (by decide) rfl
  exact Feel.lowered_other htrim hq hmem hdigit hplus hminus _

theorem rewrite_digits {n : Nat} (hl : IsListName list) (hd : IsNumeral digits n) (h : 1 ≤ n)
    (hn : n ≤ 9223372036854775807) :
    Feel.rewrite phrases (itemText list.toList digits) = .ok (itemText list.toList (numeral (n - 1))) := by
  have hinner : Feel.rewrite phrases digits = .ok digits :=
    (Passes.signs fun c hc => Feel.isCopied_digit (hd.2.1 c hc)).rewrite_eq
  exact rewrite_item hl (fun c hc => Text.isWordChar_of_isDigit (hd.2.1 c hc)) hinner (Feel.lowered_digits hd h hn _)

/-! ## Answering -/

variable {arrangement : Arrangement} {registry : Registry} {context : Context} {clock : Timestamp} {items : List Value}

/-- The value at a place counted from 0, or null. -/
def valueAt (items : List Value) (place : Int) : Value := if place < 0 then .null else (items[place.toNat]?).getD .null

theorem toValue_itemAt (ho : Value.OrderedItems items) (place : Int) :
    (itemAt (Datum.arrangedItems arrangement (Datum.ofItems items)) place).toValue = .ok (valueAt items place) := by
  unfold itemAt valueAt
  split
  · rfl
  · rw [Datum.arrangedItems_eq_map, Datum.ofItems_eq_map, List.map_map, List.getElem?_map]
    cases hi : items[place.toNat]? with
    | none => rfl
    | some item =>
      have hordered := Value.orderedItems_iff.mp ho item (List.mem_of_getElem? hi)
      exact Datum.toValue_arranged hordered arrangement

theorem data_variable {value : Value} (h : IsVariable place) (hv : context.get? place = some value) :
    (Expr.Scope.ofBatch arrangement registry context clock).data place = some ((Datum.ofValue value).arranged arrangement) := by
  have hclock : place ≠ clockName := by
    have hfree := h.2
    simp only [List.mem_cons, not_or] at hfree
    exact hfree.2.2.2.2.2.2.1
  simp [Expr.Scope.ofBatch, hclock, hv]

theorem session_eq_answer {rule : String} {source : List Char}
    (hr : Feel.rewrite (Phrase.ofRegistry registry) rule.toList = .ok source) :
    (Engine.arranging arrangement .feel).session registry context clock rule =
      answer (.ofBatch arrangement registry context clock) rule (.ofList source) := by
  have htranslate : Feel.translate registry rule = .ok (String.ofList source) := by
    rw [Feel.translate, hr]
    rfl
  simp only [Engine.arranging, Dialect.source, htranslate, bind, Except.bind]

/-- The answer to a rule that is rewritten and read is what its expression evaluates to. -/
theorem session_eq {rule : String} {source : List Char} {e : Expr}
    (hr : Feel.rewrite (Phrase.ofRegistry registry) rule.toList = .ok source) (hp : Expr.parse? source = some e) :
    (Engine.arranging arrangement .feel).session registry context clock rule =
      match e.eval (.ofBatch arrangement registry context clock) with
      | .error fault => .error (.notEvaluated rule fault)
      | .ok datum => datum.toValue.mapError .noData := by
  simp only [session_eq_answer hr, answer, String.toList_ofList, hp]
  cases e.eval (.ofBatch arrangement registry context clock) with
  | error fault => rfl
  | ok datum =>
    simp only
    cases datum.toValue <;> rfl

/-- Where the place is a name, one is taken from its number in the evaluation. -/
theorem session_name {n : Int64} (hl : IsListName list) (hp : IsVariable place)
    (hitems : context.get? list = some (.sequence items)) (hn : context.get? place = some (.int n))
    (ho : Value.OrderedItems items) (arrangement : Arrangement) (registry : Registry) (clock : Timestamp) :
    (Engine.arranging arrangement .feel).session registry context clock (itemRule list place.toList) =
      if n = Int64.minValue then
        .error (.notEvaluated (itemRule list place.toList) (.overflow .sub (.int n) (.int 1)))
      else .ok (valueAt items (n.toInt - 1)) := by
  have hparse := Expr.parse?_lessOne hl.1.1 hl.1.isPlainName hp.1 hp.isPlainName
  have hrule : (itemRule list place.toList).toList = itemText list.toList place.toList := String.toList_ofList
  rw [session_eq (by rw [hrule]; exact rewrite_name hl hp) hparse,
    Expr.eval_lessOne (data_variable hl.1 hitems) (data_variable hp hn)]
  by_cases hk : n = Int64.minValue
  · rw [if_pos hk, if_pos hk]
  · rw [if_neg hk, if_neg hk]
    simp only [toValue_itemAt ho]
    rfl

/-- Where the place is a number, it is lowered before the evaluation. -/
theorem session_digits {n : Nat} (hl : IsListName list) (hd : IsNumeral digits n) (h : 1 ≤ n)
    (hn : n ≤ 9223372036854775807) (hitems : context.get? list = some (.sequence items))
    (ho : Value.OrderedItems items) :
    (Engine.arranging arrangement .feel).session registry context clock (itemRule list digits) = .ok (valueAt items ((n : Int) - 1)) := by
  have hk : Expr.intOf? (numeral (n - 1)) = some (Int64.ofInt ((n : Int) - 1)) := by
    have hless : ((n - 1 : Nat) : Int) = (n : Int) - 1 := by omega
    rw [Expr.intOf?_numeral (by omega), hless]
  have hback : (Int64.ofInt ((n : Int) - 1)).toInt = (n : Int) - 1 := Int64.toInt_ofInt_of_le (by omega) (by omega)
  have hparse := Expr.parse?_item hl.1.1 hl.1.isPlainName (Text.numeral_ne_nil _)
    (fun _ => Text.isDigit_of_mem_numeral) hk
  have hrule : (itemRule list digits).toList = itemText list.toList digits := String.toList_ofList
  rw [session_eq (by rw [hrule]; exact rewrite_digits hl hd h hn) hparse, Expr.eval_item (data_variable hl.1 hitems), hback]
  simp only [toValue_itemAt ho]
  rfl

/-! ## Counting from 1 -/

theorem valueAt_of_lt {n : Int} (h : 1 ≤ n ∧ n ≤ items.length) :
    ∃ item, items[(n - 1).toNat]? = some item ∧ valueAt items (n - 1) = item := by
  have hlt : (n - 1).toNat < items.length := by omega
  refine ⟨items[(n - 1).toNat], List.getElem?_eq_getElem hlt, ?_⟩
  rw [valueAt, if_neg (by omega), List.getElem?_eq_getElem hlt]
  rfl

theorem valueAt_of_not_lt {n : Int} (h : ¬(1 ≤ n ∧ n ≤ items.length)) : valueAt items (n - 1) = .null := by
  unfold valueAt
  split
  · rfl
  · rw [List.getElem?_eq_none (by omega)]
    rfl

/-- A list of the context with a number of the context as place: the rule gives the item at that place, counted from
    1, and null or a failure where the list has no such place; with the digits of a number from 1 on instead of its
    name it gives the same. -/
theorem selects_item {n : Int64} (hl : IsListName list) (hp : IsVariable place)
    (hitems : context.get? list = some (.sequence items)) (hn : context.get? place = some (.int n))
    (ho : Value.OrderedItems items) (arrangement : Arrangement) (registry : Registry) (clock : Timestamp) :
    (1 ≤ n.toInt ∧ n.toInt ≤ items.length → ∃ item, items[(n.toInt - 1).toNat]? = some item ∧
        (Engine.arranging arrangement .feel).session registry context clock (itemRule list place.toList) = .ok item) ∧
      (¬(1 ≤ n.toInt ∧ n.toInt ≤ items.length) →
        (Engine.arranging arrangement .feel).session registry context clock (itemRule list place.toList) = .ok .null ∨
          ∃ failure, (Engine.arranging arrangement .feel).session registry context clock (itemRule list place.toList) =
            .error failure) ∧
      ∀ digits m, IsNumeral digits m → (m : Int) = n.toInt → 1 ≤ m →
        (Engine.arranging arrangement .feel).session registry context clock (itemRule list digits) =
          (Engine.arranging arrangement .feel).session registry context clock (itemRule list place.toList) := by
  have hname := session_name hl hp hitems hn ho arrangement registry clock
  have hpositive : 1 ≤ n.toInt →
      (Engine.arranging arrangement .feel).session registry context clock (itemRule list place.toList) =
        .ok (valueAt items (n.toInt - 1)) := by
    intro h
    rw [hname, if_neg]
    rintro rfl
    exact absurd h (by decide)
  refine ⟨fun h => ?_, fun h => ?_, fun digits m hd hm h => ?_⟩
  · obtain ⟨item, hitem, hvalue⟩ := valueAt_of_lt h
    exact ⟨item, hitem, by rw [hpositive h.1, hvalue]⟩
  · by_cases hk : n = Int64.minValue
    · exact Or.inr ⟨_, by rw [hname, if_pos hk]⟩
    · exact Or.inl (by rw [hname, if_neg hk, valueAt_of_not_lt h])
  · have hhigh := n.toInt_lt
    rw [session_digits hl hd h (by omega) hitems ho, hpositive (by omega), hm]

def pair : Context := .ofList [("i", .int 2), ("xs", .sequence [.string "a", .string "b"])]

/-- The second of two items, by a variable and by digits with a zero in front. -/
theorem selects_item_second :
    (Engine.standard .feel).session .builtin pair ⟨0, 0, 0⟩ "xs[i]" = .ok (.string "b") ∧
      (Engine.standard .feel).session .builtin pair ⟨0, 0, 0⟩ "xs[02]" = .ok (.string "b") := by
  have hl : IsListName "xs" := by decide
  have hp : IsVariable "i" := by decide
  have hitems : pair.get? "xs" = some (.sequence [.string "a", .string "b"]) := rfl
  have hn : pair.get? "i" = some (.int 2) := rfl
  have ho : Value.OrderedItems [.string "a", .string "b"] := ⟨trivial, trivial, trivial⟩
  have hselects := selects_item hl hp hitems hn ho .asSet .builtin ⟨0, 0, 0⟩
  obtain ⟨item, hitem, hanswer⟩ := hselects.1 (by decide)
  obtain rfl : .string "b" = item := Option.some.inj hitem
  have hdigits : IsNumeral "02".toList 2 := ⟨by decide, by decide, by decide⟩
  exact ⟨hanswer, (hselects.2.2 _ 2 hdigits rfl (by decide)).trans hanswer⟩

end Rulebook
