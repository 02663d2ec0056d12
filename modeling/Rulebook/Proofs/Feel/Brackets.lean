/-
  Rulebook.Proofs.Feel.Brackets — which bracket closes a bracket.

  Square brackets are counted by a reader that takes one character at a time and counts
  none inside of a literal (`closes`). A bracket is closed by the first one that leaves as
  many open as there were before it, if no literal is open there.
  - `bracket?_eq_some_iff`: this is the bracket that the rewriting finds.
  - `closes_split`: what closes brackets that it has not opened splits where it closes the
    first of them.
  - `closes_within`: a bracket inside of closed brackets is closed inside of them.
-/

import Rulebook.Proofs.Feel.Literals

namespace Rulebook.Feel

/-- How many brackets are open behind a character, if there were `depth` before it; none is closed that is not open. -/
def depthAfter (mode : Mode) (depth : Nat) (c : Char) : Option Nat :=
  if mode = .outside ∧ c = '[' then some (depth + 1)
  else if mode = .outside ∧ c = ']' then if depth = 0 then none else some (depth - 1)
  else some depth

/-- Whether a text that is read from a mode on closes just the `depth` brackets that are open before it,
    with no literal open at its end. -/
def closes (mode : Mode) (depth : Nat) : List Char → Bool
  | [] => mode == .outside && depth == 0
  | c :: rest =>
    match depthAfter mode depth c with
    | none => false
    | some depth => closes (mode.next c) depth rest

variable {mode : Mode} {depth : Nat} {text inner after rest : List Char}

/-! ## One character -/

theorem closes_open : closes .outside depth ('[' :: rest) = closes .outside (depth + 1) rest := rfl

theorem closes_close : closes .outside (depth + 1) (']' :: rest) = closes .outside depth rest := rfl

theorem closes_char {c : Char} (ho : c ≠ '[') (hc : c ≠ ']') :
    closes .outside depth (c :: rest) = closes (Mode.outside.next c) depth rest := by
  simp [closes, depthAfter, ho, hc]

theorem closes_in {c : Char} (h : mode ≠ .outside) : closes mode depth (c :: rest) = closes (mode.next c) depth rest := by
  simp [closes, depthAfter, h]

theorem after_of_closes (h : closes mode depth text = true) : mode.after text = .outside := by
  induction text generalizing mode depth with
  | nil =>
    have hmode := (Bool.and_eq_true_iff.mp h).1
    exact beq_iff_eq.mp hmode
  | cons c text ih =>
    rw [closes] at h
    split at h
    · cases h
    · exact ih h

/-- What is left of a text at a place outside of literals closes the brackets that are open there. -/
theorem exists_closes_of_append {before : List Char} (h : closes mode depth (before ++ rest) = true)
    (hb : mode.after before = .outside) : ∃ left, closes .outside left rest = true := by
  induction before generalizing mode depth with
  | nil =>
    obtain rfl : mode = .outside := hb
    exact ⟨depth, h⟩
  | cons c before ih =>
    rw [List.cons_append, closes] at h
    split at h
    · cases h
    · exact ih h hb

/-- Where a text closes the first of the brackets that it has not opened, it splits. -/
theorem closes_split (extra : Nat) (h : closes mode (depth + 1 + extra) text = true) :
    ∃ inner rest, text = inner ++ ']' :: rest ∧ closes mode extra inner = true ∧ closes .outside depth rest = true := by
  induction text generalizing mode extra with
  | nil => simp [closes] at h
  | cons c text ih =>
    -- a character that is read on both sides alike
    have hnext : ∀ more : Nat, depthAfter mode (depth + 1 + extra) c = some (depth + 1 + more) →
        depthAfter mode extra c = some more → ∃ inner rest, c :: text = inner ++ ']' :: rest ∧
          closes mode extra inner = true ∧ closes .outside depth rest = true := by
      intro more hd he
      rw [closes, hd] at h
      obtain ⟨inner, rest, rfl, hi, hr⟩ := ih more h
      exact ⟨c :: inner, rest, rfl, by rw [closes, he]; exact hi, hr⟩
    by_cases hm : mode = .outside
    · subst hm
      by_cases ho : c = '['
      · exact hnext (extra + 1) (by simp [depthAfter, ho, Nat.add_assoc]) (by simp [depthAfter, ho])
      by_cases hc : c = ']'
      · subst hc
        cases extra with
        | zero => exact ⟨[], text, rfl, rfl, h⟩
        | succ extra => exact hnext extra (by simp [depthAfter]) (by simp [depthAfter])
      · exact hnext extra (by simp [depthAfter, ho, hc]) (by simp [depthAfter, ho, hc])
    · exact hnext extra (by simp [depthAfter, hm]) (by simp [depthAfter, hm])

/-! ## Literals -/

theorem IsContent.closes {content : List Char} (h : IsContent content) (done : List Char) :
    closes (.inside done) depth (content ++ rest) = closes .outside depth rest := by
  induction h generalizing done with
  | quote => rfl
  | escaped c _ ih => exact ih (c :: '\\' :: done)
  | char quote escape _ ih =>
    rw [List.cons_append, closes_in (by simp), Mode.next_char quote escape]
    exact ih _

/-- A literal that is open before a text that closes all brackets ends in the text, whatever follows it. -/
theorem exists_literal_of_closes (done : List Char) (h : closes (.inside done) depth text = true) :
    ∃ content left, text = content ++ left ∧ IsContent content ∧ closes .outside depth left = true := by
  cases hl : literal? text with
  | none => exact absurd (after_of_closes h) (not_closed_of_literal?_eq_none hl done)
  | some cut =>
    obtain ⟨content, left⟩ := cut
    obtain rfl := literal?_append hl
    have hcontent := isContent_of_literal? hl
    rw [hcontent.closes] at h
    exact ⟨content, left, rfl, hcontent, h⟩

/-! ## The bracket that closes another -/

theorem closes_of_bracket? (h : bracket? depth text = some (inner, after)) : closes .outside depth inner = true := by
  fun_induction bracket? depth text generalizing inner after with
  | case1 => cases h
  | case2 => cases h
  | case3 =>
    rename_i content left hl ih
    obtain ⟨⟨inner', after'⟩, hr, he⟩ := Option.map_eq_some_iff.1 h
    obtain ⟨rfl, rfl⟩ := Prod.mk.inj he
    rw [closes_char (by decide) (by decide)]
    exact ((isContent_of_literal? hl).closes ['"']).trans (ih hr)
  | case4 =>
    obtain ⟨rfl, -⟩ := Prod.mk.inj (Option.some.inj h)
    rfl
  | case5 =>
    rename_i ih
    obtain ⟨⟨inner', after'⟩, hr, he⟩ := Option.map_eq_some_iff.1 h
    obtain ⟨rfl, rfl⟩ := Prod.mk.inj he
    exact ih hr
  | case6 =>
    rename_i c rest hq hc ih
    obtain ⟨⟨inner', after'⟩, hr, he⟩ := Option.map_eq_some_iff.1 h
    obtain ⟨rfl, rfl⟩ := Prod.mk.inj he
    have hmore := ih hr
    by_cases ho : c = '['
    · subst ho
      exact hmore
    · have hnext : Mode.outside.next c = .outside := by simp [Mode.next, hq]
      rw [dif_neg ho] at hmore
      rw [closes_char ho hc, hnext]
      exact hmore

theorem bracket?_of_closes (h : closes .outside depth inner = true) (after : List Char) :
    bracket? depth (inner ++ ']' :: after) = some (inner, after) := by
  induction hn : inner.length using Nat.strongRecOn generalizing inner depth with
  | ind n ih =>
    subst hn
    cases inner with
    | nil =>
      obtain rfl : depth = 0 := by simpa [closes] using h
      exact bracket?_close
    | cons c inner =>
      have hless : inner.length < (c :: inner).length := Nat.lt_succ_self _
      by_cases hq : c = '"'
      · subst hq
        rw [closes_char (by decide) (by decide)] at h
        obtain ⟨content, left, rfl, hl, hc⟩ := exists_literal_of_closes ['"'] h
        have hleft := ih left.length (by simp only [List.length_cons, List.length_append]; omega) hc rfl
        rw [List.cons_append, List.append_assoc, bracket?_literal depth (hl.literal? _), hleft]
        rfl
      by_cases ho : c = '['
      · subst ho
        rw [closes_open] at h
        rw [List.cons_append, bracket?_open, ih _ hless h rfl]
        rfl
      by_cases hc : c = ']'
      · subst hc
        cases depth with
        | zero => simp [closes, depthAfter] at h
        | succ depth =>
          rw [closes_close] at h
          rw [List.cons_append, bracket?_close_succ, ih _ hless h rfl]
          rfl
      · have hnext : Mode.outside.next c = .outside := by simp [Mode.next, hq]
        rw [closes_char ho hc, hnext] at h
        rw [List.cons_append, bracket?_char depth hq ho hc, ih _ hless h rfl]
        rfl

/-- The closing bracket that is found is the one before which all brackets that were opened are closed. -/
theorem bracket?_eq_some_iff :
    bracket? depth text = some (inner, after) ↔ text = inner ++ ']' :: after ∧ closes .outside depth inner = true := by
  constructor
  · intro h
    exact ⟨(bracket?_append h).symm, closes_of_bracket? h⟩
  · rintro ⟨rfl, h⟩
    exact bracket?_of_closes h after

theorem closes_unique {other left : List Char} (h : closes .outside depth inner = true)
    (ho : closes .outside depth other = true) (he : inner ++ ']' :: after = other ++ ']' :: left) :
    inner = other ∧ after = left := by
  have hi := bracket?_of_closes h after
  rw [he, bracket?_of_closes ho left] at hi
  obtain ⟨rfl, rfl⟩ := Prod.mk.inj (Option.some.inj hi)
  exact ⟨rfl, rfl⟩

/-- A bracket inside of closed brackets is closed inside of them. -/
theorem closes_within {before more left : List Char} (h : closes .outside 0 (before ++ '[' :: more) = true)
    (hb : Mode.outside.after before = .outside) (hi : closes .outside 0 inner = true)
    (he : more ++ ']' :: after = inner ++ ']' :: left) : ∃ tail, more = inner ++ ']' :: tail := by
  obtain ⟨depth, hopen⟩ := exists_closes_of_append h hb
  rw [closes_open] at hopen
  obtain ⟨inner', tail, rfl, hi', -⟩ := closes_split 0 hopen
  rw [List.append_assoc, List.cons_append] at he
  obtain ⟨rfl, -⟩ := closes_unique hi' hi he
  exact ⟨tail, rfl⟩

end Rulebook.Feel
