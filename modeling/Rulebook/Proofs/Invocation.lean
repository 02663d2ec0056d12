/-
  Rulebook.Proofs.Invocation — an extension called by the engine answers as it does
  when it is called directly.

  The engine hands over data, whose maps list their entries in no certain order. The
  values that the extension is given are the ones that the data were made of, so the
  engine gets the datum of the answer, or an error with the name of the extension and
  the wording of its fault. No two faults have the same wording: the place that a fault
  names ends at the last apostrophe, and what stands behind it is one of finitely many.
  - `CallFault.message_injective`: the wording of a fault tells the fault.
  - `Extension.function_reordered`: what a call by the engine gives, whatever the call.
  - `Extension.function_answers`: a boolean is given exactly where the direct call gives
    that boolean, and an error exactly where it gives that fault.
-/

import Rulebook.Engine
import Rulebook.Extension.Verification
import Rulebook.Proofs.Datum
import Rulebook.Proofs.Text

namespace Rulebook

/-! ## Wordings -/

theorem Kind.name_injective {a b : Kind} (h : a.name.toList = b.name.toList) : a = b := by
  cases a <;> cases b <;> first | rfl | exact absurd h (by decide)

theorem Kind.notMem_name (kind : Kind) : ',' ∉ kind.name.toList ∧ '\'' ∉ kind.name.toList := by
  cases kind <;> decide

namespace CallFault

def verdict (expected actual : Kind) : String := " must be a " ++ expected.name ++ ", got " ++ actual.name

theorem toList_verdict (expected actual : Kind) : (verdict expected actual).toList =
    " must be a ".toList ++ (expected.name.toList ++ ',' :: (" got ".toList ++ actual.name.toList)) := by
  have hgot : ", got ".toList = ',' :: " got ".toList := by decide
  simp only [verdict, String.toList_append, hgot, List.append_assoc, List.cons_append]

theorem notMem_verdict (expected actual : Kind) : '\'' ∉ (verdict expected actual).toList := by
  simp only [toList_verdict, List.mem_append, List.mem_cons, not_or]
  exact ⟨by decide, expected.notMem_name.2, by decide, by decide, actual.notMem_name.2⟩

theorem verdict_injective {a b a' b' : Kind} (h : verdict a b = verdict a' b') : a = a' ∧ b = b' := by
  have hl := congrArg String.toList h
  simp only [toList_verdict, List.append_cancel_left_eq] at hl
  obtain ⟨ha, hb⟩ := Text.split_unique a.notMem_name.1 a'.notMem_name.1 hl
  simp only [List.append_cancel_left_eq] at hb
  exact ⟨Kind.name_injective ha, Kind.name_injective hb⟩

theorem message_wrongType (name : String) (expected actual : Kind) :
    (wrongType name expected actual).message.toList =
      '\'' :: (name.toList ++ '\'' :: (verdict expected actual).toList) := by
  have h : (wrongType name expected actual).message =
      "'" ++ name ++ "' must be a " ++ expected.name ++ ", got " ++ actual.name := rfl
  have hopen : "'".toList = ['\''] := by decide
  have hplace : "' must be a ".toList = '\'' :: " must be a ".toList := by decide
  simp only [h, verdict, String.toList_append, hopen, hplace, List.append_assoc, List.cons_append, List.nil_append]

theorem message_missing (name : String) :
    (missing name).message.toList = '\'' :: (name.toList ++ '\'' :: " is missing".toList) := by
  have h : (missing name).message = "'" ++ name ++ "' is missing" := rfl
  have hopen : "'".toList = ['\''] := by decide
  have hplace : "' is missing".toList = '\'' :: " is missing".toList := by decide
  simp only [h, String.toList_append, hopen, hplace, List.cons_append, List.nil_append]

theorem message_arity (expected actual : Nat) :
    (arity expected actual).message.toList = "expected ".toList ++
      (Text.numeral expected ++ ' ' :: ("argument(s), got ".toList ++ Text.numeral actual)) := by
  have h : (arity expected actual).message =
      "expected " ++ toString expected ++ " argument(s), got " ++ toString actual := rfl
  have hblank : " argument(s), got ".toList = ' ' :: "argument(s), got ".toList := by decide
  have hnumeral : ∀ n : Nat, (toString n).toList = Text.numeral n := fun _ => Nat.toList_repr
  simp only [h, String.toList_append, hblank, hnumeral, List.append_assoc, List.cons_append]

theorem notMem_numeral (n : Nat) : ' ' ∉ Text.numeral n := by
  intro hm
  exact absurd (Text.isDigit_of_mem_numeral hm) (by decide)

theorem message_arity_ne {expected actual : Nat} {name behind : List Char} :
    (arity expected actual).message.toList ≠ '\'' :: (name ++ '\'' :: behind) := by
  intro h
  rw [message_arity] at h
  have hhead := congrArg List.head? h
  have hfirst : "expected ".toList = 'e' :: "xpected ".toList := by decide
  rw [hfirst] at hhead
  simp at hhead

theorem verdict_ne_missing (expected actual : Kind) : (verdict expected actual).toList ≠ " is missing".toList := by
  intro h
  have hcomma : ',' ∈ (verdict expected actual).toList := by simp [toList_verdict]
  rw [h] at hcomma
  exact absurd hcomma (by decide)

theorem message_injective {a b : CallFault} (h : a.message = b.message) : a = b := by
  have hl := congrArg String.toList h
  have hmissing : '\'' ∉ " is missing".toList := by decide
  cases a with
  | arity expected actual =>
    cases b with
    | arity expected' actual' =>
      simp only [message_arity, List.append_cancel_left_eq] at hl
      obtain ⟨he, ha⟩ := Text.split_unique (notMem_numeral _) (notMem_numeral _) hl
      rw [List.append_cancel_left_eq] at ha
      rw [Text.numeral_injective he, Text.numeral_injective ha]
    | wrongType => exact absurd (hl.trans (message_wrongType ..)) message_arity_ne
    | missing => exact absurd (hl.trans (message_missing ..)) message_arity_ne
  | wrongType name expected actual =>
    have hquote := notMem_verdict expected actual
    rw [message_wrongType] at hl
    cases b with
    | arity => exact absurd hl.symm message_arity_ne
    | wrongType name' expected' actual' =>
      rw [message_wrongType, List.cons.injEq] at hl
      obtain ⟨hname, hv⟩ := Text.split_unique_last hquote (notMem_verdict _ _) hl.2
      obtain ⟨rfl, rfl⟩ := verdict_injective (String.toList_injective hv)
      rw [String.toList_injective hname]
    | missing name' =>
      rw [message_missing, List.cons.injEq] at hl
      exact absurd (Text.split_unique_last hquote hmissing hl.2).2 (verdict_ne_missing _ _)
  | missing name =>
    rw [message_missing] at hl
    cases b with
    | arity => exact absurd hl.symm message_arity_ne
    | wrongType name' expected' actual' =>
      rw [message_wrongType, List.cons.injEq] at hl
      exact absurd (Text.split_unique_last hmissing (notMem_verdict _ _) hl.2).2.symm (verdict_ne_missing _ _)
    | missing name' =>
      rw [message_missing, List.cons.injEq] at hl
      rw [String.toList_injective (Text.split_unique_last hmissing hmissing hl.2).1]

end CallFault

/-! ## Calls -/

namespace Extension

open Rulebook.Datum (Reordered ReorderedItems)

variable {extension : Extension} {args : List Value} {data : List Datum}

theorem call_eq_ok {value : Value} (h : extension.call args = .ok value) : ∃ b, value = .boolean b := by
  unfold call at h
  split at h
  · cases hb : extension.body args with
    | error fault =>
      rw [hb] at h
      cases h
    | ok b =>
      rw [hb] at h
      exact ⟨b, (Except.ok.inj h).symm⟩
  · cases h

theorem mapM_ok (data : List Datum) : (data.map Except.ok : List Expr.Arg).mapM id = .ok data := by
  induction data with
  | nil => rfl
  | cons datum rest ih =>
    rw [List.map_cons, List.mapM_cons, ih]
    rfl

theorem valuesOf_eq_toItems (data : List Datum) : valuesOf data = Datum.toItems data := by
  induction data with
  | nil => rfl
  | cons datum rest ih =>
    rw [valuesOf] at ih ⊢
    rw [List.mapM_cons, ih]
    rfl

/-- What an extension gives to the engine for the data of its arguments. -/
theorem function_reordered (h : Value.OrderedItems args) (hd : ReorderedItems (Datum.ofItems args) data)
    (name : String) (receiver : Option Datum) :
    extension.function ⟨name, receiver, data.map .ok⟩ =
      match extension.call args with
      | .ok value => .ok (.ofValue value)
      | .error fault => .error (.execution extension.name fault.message) := by
  have hvalues : valuesOf data = .ok args := by
    rw [valuesOf_eq_toItems, Datum.toItems_of_reordered h hd]
  unfold function
  rw [mapM_ok]
  simp only [bind, Except.bind, hvalues]
  cases extension.call args with
  | ok value => rfl
  | error fault => rfl

/-- An extension that the engine calls gives a boolean exactly where the call with the values themselves
    gives it, an error with the wording of a fault exactly where that call ends in the fault, and nothing
    else. -/
theorem function_answers (h : Value.OrderedItems args) (hd : ReorderedItems (Datum.ofItems args) data)
    (name : String) (receiver : Option Datum) :
    (∀ b, extension.function ⟨name, receiver, data.map .ok⟩ = .ok (.boolean b) ↔
      extension.call args = .ok (.boolean b)) ∧
    (∀ fault : CallFault, extension.function ⟨name, receiver, data.map .ok⟩ =
        .error (.execution extension.name fault.message) ↔
      extension.call args = .error fault) ∧
    ((∃ b, extension.function ⟨name, receiver, data.map .ok⟩ = .ok (.boolean b)) ∨
      ∃ fault : CallFault, extension.function ⟨name, receiver, data.map .ok⟩ =
        .error (.execution extension.name fault.message)) := by
  rw [function_reordered h hd]
  cases hc : extension.call args with
  | ok value =>
    obtain ⟨b, rfl⟩ := call_eq_ok hc
    refine ⟨fun b' => ?_, fun fault => ?_, Or.inl ⟨b, rfl⟩⟩
    · simp [Datum.ofValue]
    · simp
  | error fault =>
    refine ⟨fun b => ?_, fun fault' => ?_, Or.inr ⟨fault, rfl⟩⟩
    · simp
    · simp only [Except.error.injEq, Expr.Fault.execution.injEq, true_and]
      constructor
      · exact CallFault.message_injective
      · exact congrArg _

/-- The second of two allowed keys is no string; the map of the first argument is gone through backwards. -/
theorem function_answers_wrongType : ∃ extension ∈ Verification.extensions, extension.name = "has allowed changes" ∧
    extension.function ⟨"has_allowed_changes", none, [.ok (.map [(.string "id", .int 1), (.string "a", .null)]),
      .ok (.list [.string "a", .int 1])]⟩ =
    .error (.execution "has allowed changes" "'allowedKeys[1]' must be a String, got Number") := by
  refine ⟨_, List.mem_cons_self .., rfl, ?_⟩
  have h : Value.OrderedItems [.mapping [("a", .null), ("id", .int 1)], .sequence [.string "a", .int 1]] :=
    ⟨⟨by decide, trivial, trivial, trivial⟩, ⟨trivial, trivial, trivial⟩, trivial⟩
  have hd : ReorderedItems (Datum.ofItems [.mapping [("a", .null), ("id", .int 1)], .sequence [.string "a", .int 1]])
      [.map [(.string "id", .int 1), (.string "a", .null)], .list [.string "a", .int 1]] :=
    .cons (.map (.refl _) (.swap _ _ _)) (.cons (.same _) .nil)
  exact ((function_answers h hd "has_allowed_changes" none).2.1 (.wrongType "allowedKeys[1]" .string .number)).mpr rfl

end Extension

end Rulebook
