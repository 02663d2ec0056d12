/-
  Rulebook.Proofs.Verification — which proofs and presentations are accepted.

  A proof is accepted for the two texts of its type and value, or for the point inside of it
  if it names a scheme and a curve. A proof that has both a type and a value is judged by
  these alone, and the point counts only where one of the two is missing. A presentation is
  accepted if it has no proof at all, or one with the accepted value. Nothing else is
  accepted, whatever its shape.
  - `samePoint_eq_true_iff`: the comparison of a point, item by item.
  - `isProofValid_typed`, `isProofValid_untyped`: the two ways in which a proof is judged.
  - `accepted_iff`: what is accepted by the two checks.
  - `answer_of_acceptedPoint`: what becomes of a proof with the accepted point.
  - `answer_of_wrongFields`: what becomes of a type or a value that is no text.
-/

import Rulebook.Proofs.Registry
import Rulebook.Proofs.Steps
import Rulebook.Extension.Verification

namespace Rulebook.Verification

open Rulebook.Entries (get? contains)

/-! ## What can be accepted -/

/-- A proof whose type and value are the accepted texts. -/
structure HasAcceptedValue (proof : List (String × Value)) : Prop where
  type : get? proof "type" = some (.string acceptedType)
  value : get? proof "value" = some (.string acceptedValue)

/-- A value with the accepted point: a mapping with a sequence of just its two texts, in their order. -/
def HoldsPoint (value : Value) : Prop :=
  ∃ inner, value = .mapping inner ∧ get? inner "a" = some (.sequence (acceptedPoint.map .string))

/-- A proof by a scheme and a curve, with the accepted point inside of it. -/
structure HasAcceptedPoint (proof : List (String × Value)) : Prop where
  scheme : contains proof "scheme" = true
  curve : contains proof "curve" = true
  point : ∃ value, get? proof "proof" = some value ∧ HoldsPoint value

/-- A presentation without a proof, or with one that has the accepted value. -/
def IsAcceptedPresentation (presentation : List (String × Value)) : Prop :=
  get? presentation "proof" = none ∨
    ∃ proof, get? presentation "proof" = some (.mapping proof) ∧
      get? proof "proofValue" = some (.string acceptedPresentation)

/-- What the built-in function of a name answers to a call; nothing if there is none of the name. -/
def answer? (name : String) (args : List Value) : Option (Except CallFault Value) :=
  (Registry.builtin.resolve name).map fun extension => extension.call args

variable {value : Value} {entries : List (String × Value)}

/-! ## Stages -/

theorem mapping_eq_ok_iff {name : String} : mapping name value = .ok entries ↔ value = .mapping entries := by
  cases value <;> simp [mapping, Value.mapping?]

theorem sequence_eq_ok_iff {name : String} {items : List Value} :
    sequence name value = .ok items ↔ value = .sequence items := by
  cases value <;> simp [sequence, Value.sequence?]

theorem string_eq_ok_iff {name text : String} : string name value = .ok text ↔ value = .string text := by
  cases value <;> simp [string, Value.string?]

theorem string_eq_error_iff {name : String} {fault : CallFault} :
    string name value = .error fault ↔ value.kind ≠ .string ∧ .wrongType name .string value.kind = fault := by
  cases value <;> simp [string, Value.string?, Value.kind]

theorem string_beq_eq_true_iff {name text : String} :
    (do return (← string name value) == text) = Except.ok (ε := CallFault) true ↔ value = .string text := by
  rw [bind_eq_ok_iff]
  constructor
  · rintro ⟨other, hother, he⟩
    obtain rfl : other = text := eq_of_beq (Except.ok.inj he)
    exact string_eq_ok_iff.mp hother
  · intro h
    exact ⟨text, string_eq_ok_iff.mpr h, congrArg Except.ok (beq_self_eq_true text)⟩

/-! ## Proofs -/

/-- As many items as there are texts equal them all just where each item is the text at its place. -/
theorem samePoint_eq_true_iff {items : List Value} {texts : List String} (h : items.length = texts.length) (index : Nat) :
    samePoint index items texts = .ok true ↔ items = texts.map .string := by
  induction items generalizing texts index with
  | nil =>
    obtain rfl := List.length_eq_zero_iff.mp h.symm
    exact iff_of_true rfl rfl
  | cons item items ih =>
    cases texts with
    | nil => cases h
    | cons text texts =>
      have hrest := ih (Nat.succ.inj h) (index + 1)
      rw [samePoint, bind_eq_ok_iff, List.map_cons, List.cons.injEq, ← hrest]
      constructor
      · rintro ⟨other, hother, he⟩
        split at he
        · rename_i hsame
          rw [← eq_of_beq hsame]
          exact ⟨string_eq_ok_iff.mp hother, he⟩
        · cases he
      · rintro ⟨hitem, hmore⟩
        exact ⟨text, string_eq_ok_iff.mpr hitem, by rwa [if_pos (beq_self_eq_true text)]⟩

theorem isPointAccepted_eq_true_iff : isPointAccepted value = .ok true ↔ HoldsPoint value := by
  unfold isPointAccepted
  rw [bind_eq_ok_iff]
  refine exists_congr fun inner => and_congr mapping_eq_ok_iff ?_
  cases get? inner "a" with
  | none => exact iff_of_false nofun nofun
  | some point =>
    simp only [bind_eq_ok_iff, sequence_eq_ok_iff, Option.some.injEq]
    constructor
    · rintro ⟨items, rfl, hsame⟩
      split at hsame
      · rename_i hlength
        rw [(samePoint_eq_true_iff hlength 0).mp hsame]
      · cases hsame
    · rintro rfl
      have hlength : (acceptedPoint.map Value.string).length = acceptedPoint.length := List.length_map _
      exact ⟨_, rfl, by rw [if_pos hlength]; exact (samePoint_eq_true_iff hlength 0).mpr rfl⟩

/-- A proof with a type and a value is judged by these alone. -/
theorem isProofValid_typed {type : Value} (ht : get? entries "type" = some type) (hv : get? entries "value" = some value) :
    isProofValid [.mapping entries] = do
      if (← string "type" type) == acceptedType then return (← string "value" value) == acceptedValue
      else return false := by
  simp only [isProofValid, single, mapping, Value.mapping?, bind, Except.bind, ht, hv]

/-- A proof without a type or without a value is judged by the point inside of it, if it has one. -/
theorem isProofValid_untyped (h : get? entries "type" = none ∨ get? entries "value" = none) :
    isProofValid [.mapping entries] =
      match contains entries "scheme" && contains entries "curve", get? entries "proof" with
      | true, some inner => isPointAccepted inner
      | _, _ => .ok false := by
  simp only [isProofValid, single, mapping, Value.mapping?, bind, Except.bind]
  rcases h with ht | hv
  · rw [ht]
    rfl
  · rw [hv]
    cases get? entries "type" <;> rfl

theorem isProofValid_typed_iff {type : Value} (ht : get? entries "type" = some type)
    (hv : get? entries "value" = some value) : isProofValid [.mapping entries] = .ok true ↔ HasAcceptedValue entries := by
  rw [isProofValid_typed ht hv, bind_eq_ok_iff]
  constructor
  · rintro ⟨text, htext, hsame⟩
    split at hsame
    · rename_i htype
      obtain rfl : text = acceptedType := eq_of_beq htype
      rw [string_eq_ok_iff.mp htext] at ht
      rw [string_beq_eq_true_iff.mp hsame] at hv
      exact ⟨ht, hv⟩
    · cases hsame
  · intro h
    obtain rfl : type = .string acceptedType := Option.some.inj (ht.symm.trans h.type)
    obtain rfl : value = .string acceptedValue := Option.some.inj (hv.symm.trans h.value)
    exact ⟨acceptedType, rfl, string_beq_eq_true_iff.mpr rfl⟩

theorem isProofValid_untyped_iff (h : get? entries "type" = none ∨ get? entries "value" = none) :
    isProofValid [.mapping entries] = .ok true ↔ HasAcceptedPoint entries := by
  rw [isProofValid_untyped h]
  constructor
  · intro haccepted
    split at haccepted
    · rename_i hnamed hinner
      obtain ⟨hscheme, hcurve⟩ := Bool.and_eq_true_iff.mp hnamed
      exact ⟨hscheme, hcurve, _, hinner, isPointAccepted_eq_true_iff.mp haccepted⟩
    · cases haccepted
  · rintro ⟨hscheme, hcurve, inner, hinner, hpoint⟩
    rw [hscheme, hcurve, hinner]
    exact isPointAccepted_eq_true_iff.mpr hpoint

theorem isProofValid_eq_true_iff : isProofValid [.mapping entries] = .ok true ↔
    HasAcceptedValue entries ∨ (get? entries "type" = none ∨ get? entries "value" = none) ∧ HasAcceptedPoint entries := by
  by_cases hmissing : get? entries "type" = none ∨ get? entries "value" = none
  · have hnot : ¬HasAcceptedValue entries := by
      rintro ⟨ht, hv⟩
      rcases hmissing with h | h
      · cases h.symm.trans ht
      · cases h.symm.trans hv
    rw [isProofValid_untyped_iff hmissing, or_iff_right hnot, and_iff_right hmissing]
  · rw [or_iff_left fun h => hmissing h.1]
    obtain ⟨ht, hv⟩ := not_or.mp hmissing
    obtain ⟨type, ht⟩ := Option.ne_none_iff_exists'.mp ht
    obtain ⟨value, hv⟩ := Option.ne_none_iff_exists'.mp hv
    exact isProofValid_typed_iff ht hv

/-! ## Presentations -/

theorem isPresentationValid_eq_true_iff :
    isPresentationValid [.mapping entries] = .ok true ↔ IsAcceptedPresentation entries := by
  simp only [isPresentationValid, single, bind_eq_ok_iff, Except.ok.injEq, exists_eq_left', mapping_eq_ok_iff,
    Value.mapping.injEq]
  cases hp : get? entries "proof" with
  | none => exact iff_of_true rfl (Or.inl hp)
  | some value =>
    simp only [bind_eq_ok_iff, mapping_eq_ok_iff]
    constructor
    · rintro ⟨inner, rfl, hsame⟩
      cases hv : get? inner "proofValue" with
      | none =>
        rw [hv] at hsame
        cases hsame
      | some value =>
        rw [hv] at hsame
        exact Or.inr ⟨inner, hp, by rw [hv, string_beq_eq_true_iff.mp hsame]⟩
    · rintro (hnone | ⟨inner, hinner, hv⟩)
      · cases hp.symm.trans hnone
      · obtain rfl := Option.some.inj (hp.symm.trans hinner)
        exact ⟨inner, rfl, by rw [hv]; exact string_beq_eq_true_iff.mpr rfl⟩

/-! ## Calls by name -/

theorem answer?_eq_call {extension : Extension} (h : extension ∈ extensions) (args : List Value) :
    answer? extension.name args = some (extension.call args) := by
  have hn : (extensions.map Extension.name).Nodup := by decide
  rw [answer?, Registry.builtin, Registry.resolve_of_mem hn h, Option.map_some]

theorem answer?_of_mem {extension : Extension} (h : extension ∈ extensions) {args : List Value}
    (ha : args.length = extension.arity) : answer? extension.name args = some ((extension.body args).map .boolean) := by
  rw [answer?_eq_call h, Extension.call, if_pos ha]

theorem answer?_proof (value : Value) : answer? "is proof valid" [value] = some ((isProofValid [value]).map .boolean) := by
  have hm : extensions[1] ∈ extensions := List.getElem_mem _
  exact answer?_of_mem hm rfl

theorem answer?_presentation (value : Value) :
    answer? "is vp valid" [value] = some ((isPresentationValid [value]).map .boolean) := by
  have hm : extensions[3] ∈ extensions := List.getElem_mem _
  exact answer?_of_mem hm rfl

theorem map_boolean_eq_iff {verdict : Except CallFault Bool} {b : Bool} :
    some (verdict.map Value.boolean) = some (.ok (.boolean b)) ↔ verdict = .ok b := by
  cases verdict <;> simp [Except.map]

theorem map_boolean_eq_error_iff {verdict : Except CallFault Bool} {fault : CallFault} :
    some (verdict.map Value.boolean) = some (.error fault) ↔ verdict = .error fault := by
  cases verdict <;> simp [Except.map]

/-- The two checks accept these proofs and presentations, and nothing else of whatever shape. -/
theorem accepted_iff (value : Value) :
    (answer? "is proof valid" [value] = some (.ok (.boolean true)) ↔ ∃ proof, value = .mapping proof ∧
      (HasAcceptedValue proof ∨ (get? proof "type" = none ∨ get? proof "value" = none) ∧ HasAcceptedPoint proof)) ∧
    (answer? "is vp valid" [value] = some (.ok (.boolean true)) ↔
      ∃ presentation, value = .mapping presentation ∧ IsAcceptedPresentation presentation) := by
  rw [answer?_proof, answer?_presentation, map_boolean_eq_iff, map_boolean_eq_iff]
  cases value with
  | mapping entries =>
    simp only [Value.mapping.injEq, exists_eq_left']
    exact ⟨isProofValid_eq_true_iff, isPresentationValid_eq_true_iff⟩
  | _ =>
    simp only [reduceCtorEq, false_and, exists_false, iff_false]
    exact ⟨nofun, nofun⟩

/-! ## The accepted point beside a type and a value -/

/-- A proof with the accepted point is accepted unless it has a type and a value that are not the accepted ones;
    then these are all that is looked at. -/
theorem answer_of_acceptedPoint (h : HasAcceptedPoint entries) :
    (answer? "is proof valid" [.mapping entries] = some (.ok (.boolean true)) ↔
      get? entries "type" = none ∨ get? entries "value" = none ∨ HasAcceptedValue entries) ∧
    ∀ type value, get? entries "type" = some type → get? entries "value" = some value →
      answer? "is proof valid" [.mapping entries] =
        answer? "is proof valid" [.mapping [("type", type), ("value", value)]] := by
  refine ⟨?_, fun type value ht hv => ?_⟩
  · rw [answer?_proof, map_boolean_eq_iff, isProofValid_eq_true_iff, and_iff_left h, or_comm, or_assoc]
  · rw [answer?_proof, answer?_proof, isProofValid_typed ht hv, isProofValid_typed rfl rfl]

def pointed : Value := .mapping [("a", .sequence (acceptedPoint.map .string)), ("b", .sequence [])]

theorem holdsPoint_pointed : HoldsPoint pointed := ⟨_, rfl, rfl⟩

/-- A type alone does not keep a proof from being judged by its point. -/
theorem answer_of_acceptedPoint_typeAlone :
    HasAcceptedPoint [("curve", .null), ("proof", pointed), ("scheme", .string "g16"), ("type", .int 1)] ∧
      answer? "is proof valid" [.mapping [("curve", .null), ("proof", pointed), ("scheme", .string "g16"),
        ("type", .int 1)]] = some (.ok (.boolean true)) := by
  have h : HasAcceptedPoint [("curve", .null), ("proof", pointed), ("scheme", .string "g16"), ("type", .int 1)] :=
    ⟨rfl, rfl, pointed, rfl, holdsPoint_pointed⟩
  exact ⟨h, (answer_of_acceptedPoint h).1.mpr (Or.inr (Or.inl rfl))⟩

/-- A proof with the accepted point is refused for another type and value. -/
theorem acceptedPoint_refused :
    HasAcceptedPoint [("curve", .string "bn128"), ("proof", pointed), ("scheme", .string "g16"), ("type", .string "zk"),
        ("value", .string "x")] ∧
      answer? "is proof valid" [.mapping [("curve", .string "bn128"), ("proof", pointed), ("scheme", .string "g16"),
        ("type", .string "zk"), ("value", .string "x")]] = some (.ok (.boolean false)) := by
  refine ⟨⟨rfl, rfl, pointed, rfl, holdsPoint_pointed⟩, ?_⟩
  rw [answer?_proof, isProofValid_typed rfl rfl]
  rfl

/-! ## Types and values that are no texts -/

/-- The fault of a field of a proof, its type or its value, that is no text. -/
inductive FieldFault (proof : List (String × Value)) : CallFault → Prop where
  | type {type : Value} : get? proof "type" = some type → type.kind ≠ .string →
      FieldFault proof (.wrongType "type" .string type.kind)
  | value {value : Value} : get? proof "value" = some value → value.kind ≠ .string →
      FieldFault proof (.wrongType "value" .string value.kind)

theorem isProofValid_wrongType {type : Value} (ht : get? entries "type" = some type)
    (hv : get? entries "value" = some value) (h : type.kind ≠ .string) :
    isProofValid [.mapping entries] = .error (.wrongType "type" .string type.kind) := by
  rw [isProofValid_typed ht hv, string_eq_error_iff.mpr ⟨h, rfl⟩]
  rfl

theorem isProofValid_wrongValue (ht : get? entries "type" = some (.string acceptedType))
    (hv : get? entries "value" = some value) (h : value.kind ≠ .string) :
    isProofValid [.mapping entries] = .error (.wrongType "value" .string value.kind) := by
  rw [isProofValid_typed ht hv, string_eq_error_iff.mpr ⟨h, rfl⟩]
  rfl

theorem isProofValid_otherType {text : String} (ht : get? entries "type" = some (.string text))
    (hv : get? entries "value" = some value) (h : text ≠ acceptedType) :
    isProofValid [.mapping entries] = .ok false := by
  have hbeq : (text == acceptedType) = false := beq_eq_false_iff_ne.mpr h
  rw [isProofValid_typed ht hv, string_eq_ok_iff.mpr rfl]
  simp only [bind, Except.bind, hbeq]
  rfl

/-- A proof with a type and a value that are not both texts is a fault of such a field, except where the type is a text
    but not the accepted one: then the value is not looked at, and the proof is refused. -/
theorem answer_of_wrongFields {type : Value} (ht : get? entries "type" = some type)
    (hv : get? entries "value" = some value) (h : type.kind ≠ .string ∨ value.kind ≠ .string) :
    ((∃ fault, answer? "is proof valid" [.mapping entries] = some (.error fault) ∧ FieldFault entries fault) ↔
      type.kind ≠ .string ∨ type = .string acceptedType) ∧
    ∀ text, type = .string text → text ≠ acceptedType →
      answer? "is proof valid" [.mapping entries] = some (.ok (.boolean false)) := by
  have hother : ∀ text, type = .string text → text ≠ acceptedType →
      answer? "is proof valid" [.mapping entries] = some (.ok (.boolean false)) := by
    rintro text rfl hne
    rw [answer?_proof, map_boolean_eq_iff]
    exact isProofValid_otherType ht hv hne
  refine ⟨⟨?_, ?_⟩, hother⟩
  · rintro ⟨fault, hfault, -⟩
    by_cases hkind : type.kind = .string
    · right
      obtain ⟨text, rfl⟩ : ∃ text, type = .string text := by cases type <;> simp_all [Value.kind]
      by_cases hne : text = acceptedType
      · rw [hne]
      · cases hfault.symm.trans (hother text rfl hne)
    · exact Or.inl hkind
  · rintro (hkind | rfl)
    · exact ⟨_, by rw [answer?_proof, map_boolean_eq_error_iff]; exact isProofValid_wrongType ht hv hkind, .type ht hkind⟩
    · have hkind : value.kind ≠ .string := h.resolve_left fun hne => hne rfl
      exact ⟨_, by rw [answer?_proof, map_boolean_eq_error_iff]; exact isProofValid_wrongValue ht hv hkind, .value hv hkind⟩

/-- The accepted type, with a number as its value. -/
theorem answer_of_wrongFields_number :
    ∃ fault, answer? "is proof valid" [.mapping [("type", .string "test"), ("value", .int 1)]] = some (.error fault) ∧
      FieldFault [("type", .string "test"), ("value", .int 1)] fault :=
  (answer_of_wrongFields rfl rfl (Or.inr (by decide))).1.mpr (Or.inr rfl)

def otherProof : List (String × Value) := [("type", .string "zk"), ("value", .null)]

/-- The value of a proof of another type is not looked at. -/
theorem wrongValue_unseen : FieldFault otherProof (.wrongType "value" .string .null) ∧
    answer? "is proof valid" [.mapping otherProof] = some (.ok (.boolean false)) := by
  refine ⟨@FieldFault.value _ .null rfl (by decide), ?_⟩
  rw [answer?_proof, map_boolean_eq_iff]
  exact isProofValid_otherType rfl rfl (by decide)

end Rulebook.Verification
