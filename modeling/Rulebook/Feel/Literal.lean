/-
  Rulebook.Feel.Literal — string literals and square brackets in rule text.

  A literal runs from a double quote to the next one that has no backslash in front of
  it; a backslash makes the character after it part of the literal, whatever it is. A
  bracket is closed by the first closing bracket that leaves no bracket inside it open;
  brackets in literals do not count, and a bracket whose text runs into a literal that
  is never closed is not closed either.
  - `literal?_append`, `bracket?_append`: what is split off and what is left make up the text.
  - `bracket?_length_lt`: the text between brackets is shorter than the text it is in.
-/

namespace Rulebook.Feel

/-- The rest of a literal after its opening quote, closing quote included, and what follows the literal. -/
def literal? : List Char → Option (List Char × List Char)
  | [] => none
  | c :: rest =>
    if c = '"' then some (['"'], rest)
    else if c = '\\' then
      match rest with
      | [] => none
      | d :: after => (literal? after).map fun (content, left) => (c :: d :: content, left)
    else (literal? rest).map fun (content, left) => (c :: content, left)

theorem literal?_append {text content left : List Char} (h : literal? text = some (content, left)) :
    content ++ left = text := by
  fun_induction literal? text generalizing content left with
  | case1 => cases h
  | case2 rest =>
    simp only [Option.some.injEq, Prod.mk.injEq] at h
    obtain ⟨rfl, rfl⟩ := h
    rfl
  | case3 => cases h
  | case4 d after hq ih =>
    obtain ⟨⟨content', left'⟩, hr, he⟩ := Option.map_eq_some_iff.1 h
    simp only [Prod.mk.injEq] at he
    obtain ⟨rfl, rfl⟩ := he
    simp [ih hr]
  | case5 c rest hq hb ih =>
    obtain ⟨⟨content', left'⟩, hr, he⟩ := Option.map_eq_some_iff.1 h
    simp only [Prod.mk.injEq] at he
    obtain ⟨rfl, rfl⟩ := he
    simp [ih hr]

theorem literal?_length_le {text content left : List Char} (h : literal? text = some (content, left)) :
    left.length ≤ text.length := by
  have := congrArg List.length (literal?_append h)
  simp only [List.length_append] at this
  omega

/-- The text up to the bracket that closes the last of `depth` and one more open brackets, and
    what follows that bracket. -/
def bracket? (depth : Nat) : List Char → Option (List Char × List Char)
  | [] => none
  | c :: rest =>
    if c = '"' then
      match _h : literal? rest with
      | none => none
      | some (content, left) =>
        (bracket? depth left).map fun (inner, after) => (c :: (content ++ inner), after)
    else if c = ']' then
      match depth with
      | 0 => some ([], rest)
      | depth + 1 => (bracket? depth rest).map fun (inner, after) => (c :: inner, after)
    else
      (bracket? (if c = '[' then depth + 1 else depth) rest).map fun (inner, after) => (c :: inner, after)
termination_by text => text.length
decreasing_by
  · have := literal?_length_le _h
    simp only [List.length_cons]
    omega
  · simp
  · simp

theorem bracket?_append {depth : Nat} {text inner after : List Char} (h : bracket? depth text = some (inner, after)) :
    inner ++ ']' :: after = text := by
  fun_induction bracket? depth text generalizing inner after with
  | case1 => cases h
  | case2 => cases h
  | case3 =>
    rename_i _ hl ih
    obtain ⟨⟨inner', after'⟩, hr, he⟩ := Option.map_eq_some_iff.1 h
    simp only [Prod.mk.injEq] at he
    obtain ⟨rfl, rfl⟩ := he
    have := ih hr
    rw [List.cons_append, List.append_assoc, this, literal?_append hl]
  | case4 =>
    simp only [Option.some.injEq, Prod.mk.injEq] at h
    obtain ⟨rfl, rfl⟩ := h
    rfl
  | case5 =>
    rename_i ih
    obtain ⟨⟨inner', after'⟩, hr, he⟩ := Option.map_eq_some_iff.1 h
    simp only [Prod.mk.injEq] at he
    obtain ⟨rfl, rfl⟩ := he
    simp [ih hr]
  | case6 =>
    rename_i ih
    obtain ⟨⟨inner', after'⟩, hr, he⟩ := Option.map_eq_some_iff.1 h
    simp only [Prod.mk.injEq] at he
    obtain ⟨rfl, rfl⟩ := he
    simp [ih hr]

theorem bracket?_length_lt {depth : Nat} {text inner after : List Char}
    (h : bracket? depth text = some (inner, after)) :
    inner.length < text.length ∧ after.length < text.length := by
  have := congrArg List.length (bracket?_append h)
  simp only [List.length_append, List.length_cons] at this
  omega

end Rulebook.Feel
