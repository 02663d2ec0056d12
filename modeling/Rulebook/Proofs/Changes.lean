/-
  Rulebook.Proofs.Changes — which changes a list of keys allows.

  A change is allowed if every name of the object, other than `id`, is one of the keys.
  Only names count, and a key counts however often and wherever it stands. Before the
  verdict all arguments are looked at, from the left and down to the last key: a call of
  any other shape is a fault, even if the keys so far would have settled the verdict.
  - `strings_eq_ok_iff`, `strings_eq_error_iff`: keys up to the first that is no text.
  - `hasAllowedChanges_eq_ok_iff`, `hasAllowedChanges_eq_error_iff`: the verdict, or the
    fault, of arguments of any shape.
  - `changes_decided`: both for calls by name, and that nothing else matters.
-/

import Rulebook.Proofs.Verification

namespace Rulebook.Verification

/-! ## What is decided -/

/-- Whether keys cover the names of an object; its identity needs no key. -/
def Allows (keys : List String) (object : List (String × Value)) : Prop :=
  ∀ entry ∈ object, entry.1 = "id" ∨ entry.1 ∈ keys

instance (keys : List String) (object : List (String × Value)) : Decidable (Allows keys object) :=
  inferInstanceAs (Decidable (∀ entry ∈ object, _))

/-- The fault of arguments that are not an object and a list of texts: the first in this order. -/
inductive ChangeFault : List Value → CallFault → Prop where
  | count {args : List Value} : args.length ≠ 2 → ChangeFault args (.arity 2 args.length)
  | object {object allowed : Value} : object.kind ≠ .mapping →
      ChangeFault [object, allowed] (.wrongType "context" .mapping object.kind)
  | keys {object : List (String × Value)} {allowed : Value} : allowed.kind ≠ .sequence →
      ChangeFault [.mapping object, allowed] (.wrongType "allowedKeys" .sequence allowed.kind)
  | key {object : List (String × Value)} {keys : List String} {item : Value} {rest : List Value} : item.kind ≠ .string →
      ChangeFault [.mapping object, .sequence (keys.map .string ++ item :: rest)]
        (.wrongType s!"allowedKeys[{keys.length}]" .string item.kind)

/-! ## Stages -/

variable {value : Value} {fault : CallFault}

theorem mapping_eq_error_iff {name : String} :
    mapping name value = .error fault ↔ value.kind ≠ .mapping ∧ .wrongType name .mapping value.kind = fault := by
  cases value <;> simp [mapping, Value.mapping?, Value.kind]

theorem sequence_eq_error_iff {name : String} :
    sequence name value = .error fault ↔ value.kind ≠ .sequence ∧ .wrongType name .sequence value.kind = fault := by
  cases value <;> simp [sequence, Value.sequence?, Value.kind]

/-! ## Keys -/

theorem strings_eq_ok_iff {name : String} {index : Nat} {items : List Value} {keys : List String} :
    strings name index items = .ok keys ↔ items = keys.map .string := by
  induction items generalizing index keys with
  | nil => cases keys <;> simp [strings]
  | cons item rest ih =>
    simp only [strings, bind_eq_ok_iff, string_eq_ok_iff, ih]
    constructor
    · rintro ⟨key, rfl, more, rfl, hkeys⟩
      rw [← Except.ok.inj hkeys, List.map_cons]
    · intro h
      cases keys with
      | nil => cases h
      | cons key more =>
        obtain ⟨hitem, hrest⟩ := List.cons.inj h
        exact ⟨key, hitem, more, hrest, rfl⟩

/-- The fault is the first item that is no text, at its place in the whole list. -/
theorem strings_eq_error_iff {name : String} {index : Nat} {items : List Value} :
    strings name index items = .error fault ↔ ∃ (keys : List String) (item : Value) (rest : List Value),
      items = keys.map .string ++ item :: rest ∧ item.kind ≠ .string ∧
        .wrongType s!"{name}[{index + keys.length}]" .string item.kind = fault := by
  induction items generalizing index with
  | nil => simp [strings]
  | cons item rest ih =>
    simp only [strings, bind_eq_error_iff, string_eq_error_iff, string_eq_ok_iff, ih]
    constructor
    · rintro (⟨hkind, hfault⟩ | ⟨key, rfl, ⟨keys, other, more, rfl, hkind, hfault⟩ | ⟨_, _, hnone⟩⟩)
      · exact ⟨[], item, rest, rfl, hkind, hfault⟩
      · refine ⟨key :: keys, other, more, rfl, hkind, ?_⟩
        rwa [List.length_cons, Nat.add_comm keys.length, ← Nat.add_assoc]
      · cases hnone
    · rintro ⟨keys, other, more, hsplit, hkind, hfault⟩
      cases keys with
      | nil =>
        obtain ⟨rfl, rfl⟩ := List.cons.inj hsplit
        exact Or.inl ⟨hkind, hfault⟩
      | cons key keys =>
        obtain ⟨rfl, rfl⟩ := List.cons.inj hsplit
        refine Or.inr ⟨key, rfl, Or.inl ⟨keys, other, more, rfl, hkind, ?_⟩⟩
        rwa [List.length_cons, Nat.add_comm keys.length, ← Nat.add_assoc] at hfault

/-! ## Verdicts -/

theorem all_eq_true_iff_allows {keys : List String} {object : List (String × Value)} :
    (object.all fun entry => entry.1 == "id" || keys.contains entry.1) = true ↔ Allows keys object := by
  simp [Allows]

theorem hasAllowedChanges_eq_ok_iff {args : List Value} {b : Bool} : hasAllowedChanges args = .ok b ↔
    ∃ object keys, args = [.mapping object, .sequence (keys.map .string)] ∧ (b = true ↔ Allows keys object) := by
  constructor
  · intro h
    unfold hasAllowedChanges at h
    split at h
    · simp only [bind_eq_ok_iff, mapping_eq_ok_iff, sequence_eq_ok_iff, strings_eq_ok_iff] at h
      obtain ⟨object, rfl, _, rfl, keys, rfl, hb⟩ := h
      obtain rfl := Except.ok.inj hb
      exact ⟨object, keys, rfl, all_eq_true_iff_allows⟩
    · cases h
  · rintro ⟨object, keys, rfl, hb⟩
    simp only [hasAllowedChanges, bind_eq_ok_iff, mapping_eq_ok_iff, sequence_eq_ok_iff, strings_eq_ok_iff]
    refine ⟨object, rfl, _, rfl, keys, rfl, congrArg Except.ok ?_⟩
    rw [Bool.eq_iff_iff, hb]
    exact all_eq_true_iff_allows

theorem hasAllowedChanges_eq_error_iff {args : List Value} :
    hasAllowedChanges args = .error fault ↔ ChangeFault args fault := by
  constructor
  · intro h
    unfold hasAllowedChanges at h
    split at h
    · simp only [bind_eq_error_iff, mapping_eq_error_iff, mapping_eq_ok_iff, sequence_eq_error_iff, sequence_eq_ok_iff,
        strings_eq_error_iff] at h
      rcases h with ⟨hkind, rfl⟩ | ⟨object, rfl, ⟨hkind, rfl⟩ | ⟨_, rfl, ⟨keys, item, rest, rfl, hkind, rfl⟩ | ⟨_, _, h⟩⟩⟩
      · exact .object hkind
      · exact .keys hkind
      · rw [Nat.zero_add]
        exact .key hkind
      · cases h
    · rename_i hshape
      obtain rfl := Except.error.inj h
      refine .count fun hlength => ?_
      obtain ⟨object, allowed, rfl⟩ := List.length_eq_two.mp hlength
      exact hshape object allowed rfl
  · intro h
    cases h with
    | count hlength =>
      unfold hasAllowedChanges
      split
      · exact absurd rfl hlength
      · rfl
    | object hkind =>
      simp only [hasAllowedChanges, bind_eq_error_iff, mapping_eq_error_iff]
      exact Or.inl ⟨hkind, trivial⟩
    | keys hkind =>
      simp only [hasAllowedChanges, bind_eq_error_iff, mapping_eq_ok_iff, sequence_eq_error_iff]
      exact Or.inr ⟨_, rfl, Or.inl ⟨hkind, trivial⟩⟩
    | key hkind =>
      simp only [hasAllowedChanges, bind_eq_error_iff, mapping_eq_ok_iff, sequence_eq_ok_iff, strings_eq_error_iff]
      refine Or.inr ⟨_, rfl, Or.inr ⟨_, rfl, Or.inl ⟨_, _, _, rfl, hkind, ?_⟩⟩⟩
      rw [Nat.zero_add]
      rfl

/-! ## Calls by name -/

theorem answer?_changes (args : List Value) :
    answer? "has allowed changes" args = some ((hasAllowedChanges args).map .boolean) := by
  have hm : extensions[0] ∈ extensions := List.getElem_mem _
  by_cases hlength : args.length = 2
  · exact answer?_of_mem hm hlength
  · have hcall : extensions[0].call args = .error (.arity 2 args.length) := if_neg hlength
    rw [hasAllowedChanges_eq_error_iff.mpr (.count hlength)]
    exact (answer?_eq_call hm args).trans (congrArg some hcall)

theorem exists_of_map_boolean {verdict : Except CallFault Bool} (h : some (verdict.map Value.boolean) = some (.ok value)) :
    ∃ b, verdict = .ok b ∧ value = .boolean b := by
  cases verdict with
  | error fault => cases h
  | ok b => exact ⟨b, rfl, (Except.ok.inj (Option.some.inj h)).symm⟩

/-- Only which names and which keys there are matters. -/
theorem allows_congr {keys keys' : List String} {object object' : List (String × Value)}
    (hnames : ∀ name, name ∈ object.map Prod.fst ↔ name ∈ object'.map Prod.fst) (hkeys : ∀ key, key ∈ keys ↔ key ∈ keys') :
    Allows keys object ↔ Allows keys' object' := by
  have hmap (keys : List String) (object : List (String × Value)) :
      Allows keys object ↔ ∀ name ∈ object.map Prod.fst, name = "id" ∨ name ∈ keys := by
    rw [List.forall_mem_map]
    exact Iff.rfl
  rw [hmap, hmap]
  simp only [hnames, hkeys]

/-- What a call of any shape is answered: for an object and a list of texts a verdict on the names of the object, which
    only other names or other keys change, and else the first fault. -/
theorem changes_decided (args : List Value) :
    (∀ verdict, answer? "has allowed changes" args = some (.ok verdict) ↔
      ∃ (object : List (String × Value)) (keys : List String) (b : Bool),
        args = [.mapping object, .sequence (keys.map .string)] ∧ verdict = .boolean b ∧ (b = true ↔ Allows keys object)) ∧
    (∀ fault, answer? "has allowed changes" args = some (.error fault) ↔ ChangeFault args fault) ∧
    ∀ (object object' : List (String × Value)) (keys keys' : List String),
      args = [.mapping object, .sequence (keys.map .string)] →
      (∀ name, name ∈ object.map Prod.fst ↔ name ∈ object'.map Prod.fst) → (∀ key, key ∈ keys ↔ key ∈ keys') →
      answer? "has allowed changes" [.mapping object', .sequence (keys'.map .string)] =
        answer? "has allowed changes" args := by
  rw [answer?_changes]
  refine ⟨fun verdict => ?_, fun fault => ?_, ?_⟩
  · constructor
    · intro h
      obtain ⟨b, hb, rfl⟩ := exists_of_map_boolean h
      obtain ⟨object, keys, hargs, hallows⟩ := hasAllowedChanges_eq_ok_iff.mp hb
      exact ⟨object, keys, b, hargs, rfl, hallows⟩
    · rintro ⟨object, keys, b, hargs, rfl, hallows⟩
      rw [map_boolean_eq_iff]
      exact hasAllowedChanges_eq_ok_iff.mpr ⟨object, keys, hargs, hallows⟩
  · rw [map_boolean_eq_error_iff]
    exact hasAllowedChanges_eq_error_iff
  · rintro object object' keys keys' rfl hnames hkeys
    have hallows := allows_congr hnames hkeys
    have hanswer (keys : List String) (object : List (String × Value)) :
        hasAllowedChanges [.mapping object, .sequence (keys.map .string)] = .ok (decide (Allows keys object)) :=
      hasAllowedChanges_eq_ok_iff.mpr ⟨object, keys, rfl, decide_eq_true_iff⟩
    rw [answer?_changes, hanswer, hanswer]
    simp only [hallows]

/-- Keys in another order, one of them twice, allow an object with other values just as well. -/
theorem changes_decided_repeated :
    answer? "has allowed changes" [.mapping [("a", .int 1), ("id", .null)], .sequence [.string "b", .string "a"]] =
        some (.ok (.boolean true)) ∧
      answer? "has allowed changes"
          [.mapping [("id", .sequence []), ("a", .string "x")], .sequence [.string "a", .string "b", .string "a"]] =
        some (.ok (.boolean true)) := by
  have hallows : Allows ["b", "a"] [("a", .int 1), ("id", .null)] := by decide
  have hdecided := changes_decided [.mapping [("a", .int 1), ("id", .null)], .sequence (["b", "a"].map .string)]
  have hverdict := (hdecided.1 (.boolean true)).mpr ⟨_, _, true, rfl, rfl, iff_of_true rfl hallows⟩
  refine ⟨hverdict, (hdecided.2.2 _ [("id", .sequence []), ("a", .string "x")] _ ["a", "b", "a"] rfl ?_ ?_).trans hverdict⟩
  · intro name
    simp [or_comm]
  · intro key
    simp
    tauto

end Rulebook.Verification
