/-
  Rulebook.Proofs.Feel.Closing — the bracket that closes another, by counting.

  Of the characters that stand outside of literals (`bare`), the brackets are counted from
  an opening one on. The bracket that is found to close it stands at the first position
  outside of literals up to which as many are closed as are opened (`EvensAt`), and if
  there is no such position none is found. So a text in brackets is complete: it opens no
  literal that it does not close, its own brackets are balanced, and a reader that starts
  in it stands at each place where a reader of the whole text stands.
  - `exists_closes_of_count`: where more is closed than is opened, a first bracket is left.
  - `isLeast_closing`: what is found is the first position that evens the count.
  - `bracket?_account`: the search by counting, and what stands between the brackets.
-/

import Mathlib.Order.Bounds.Basic
import Rulebook.Proofs.Feel.Enclosed

namespace Rulebook.Feel

/-! ## Counting outside of literals -/

/-- The characters of a text that stand outside of literals, if it is read from a mode on. -/
def bare : Mode → List Char → List Char
  | _, [] => []
  | mode, c :: rest => if mode = .outside then c :: bare (mode.next c) rest else bare (mode.next c) rest

/-- Outside of literals, as many square brackets are closed as are opened. -/
def Evened (text : List Char) : Prop := (bare .outside text).count ']' = (bare .outside text).count '['

/-- A position behind an opening bracket and outside of literals, up to which the brackets are evened. -/
structure EvensAt (text : List Char) (opening closing : Nat) : Prop where
  behind : opening < closing
  within : closing < text.length
  outside : Mode.outside.after (text.take closing) = .outside
  evened : Evened ((text.take (closing + 1)).drop opening)

variable {mode : Mode} {depth opening closing : Nat} {text lead inner after rest xs ys : List Char}

theorem bare_append (mode : Mode) (xs ys : List Char) : bare mode (xs ++ ys) = bare mode xs ++ bare (mode.after xs) ys := by
  induction xs generalizing mode with
  | nil => rfl
  | cons c xs ih =>
    have hafter : mode.after (c :: xs) = (mode.next c).after xs := rfl
    rw [List.cons_append, bare, bare, ih, hafter]
    split
    · rfl
    · rfl

theorem bare_outside (c : Char) (rest : List Char) : bare .outside (c :: rest) = c :: bare (Mode.outside.next c) rest :=
  if_pos rfl

theorem bare_within (h : mode ≠ .outside) (c : Char) (rest : List Char) :
    bare mode (c :: rest) = bare (mode.next c) rest := if_neg h

theorem closes_count (h : closes mode depth (xs ++ ys) = true) :
    ∃ left, closes (mode.after xs) left ys = true ∧
      (bare mode xs).count ']' + left = (bare mode xs).count '[' + depth := by
  induction xs generalizing mode depth with
  | nil => exact ⟨depth, h, rfl⟩
  | cons c xs ih =>
    rw [List.cons_append, closes] at h
    by_cases hm : mode = .outside
    · subst hm
      rw [bare_outside]
      by_cases ho : c = '['
      · subst ho
        obtain ⟨left, hleft, hcount⟩ := ih h
        exact ⟨left, hleft, by simp; omega⟩
      by_cases hc : c = ']'
      · subst hc
        cases depth with
        | zero => cases h
        | succ depth =>
          obtain ⟨left, hleft, hcount⟩ := ih h
          exact ⟨left, hleft, by simp; omega⟩
      · rw [show depthAfter .outside depth c = some depth by simp [depthAfter, ho, hc]] at h
        obtain ⟨left, hleft, hcount⟩ := ih h
        exact ⟨left, hleft, by simpa [List.count_cons, ho, hc] using hcount⟩
    · rw [bare_within hm]
      rw [show depthAfter mode depth c = some depth by simp [depthAfter, hm]] at h
      exact ih h

/-- Where more brackets are closed than are opened and `depth` besides, there is a first one of those left. -/
theorem exists_closes_of_count (h : (bare mode text).count '[' + depth < (bare mode text).count ']') :
    ∃ inner rest, text = inner ++ ']' :: rest ∧ closes mode depth inner = true := by
  induction text generalizing mode depth with
  | nil => simp [bare] at h
  | cons c text ih =>
    -- a character behind which `more` are left to close
    have hnext : ∀ more, depthAfter mode depth c = some more →
        (bare (mode.next c) text).count '[' + more < (bare (mode.next c) text).count ']' →
          ∃ inner rest, c :: text = inner ++ ']' :: rest ∧ closes mode depth inner = true := by
      intro more hd hcount
      obtain ⟨inner, rest, rfl, hinner⟩ := ih hcount
      exact ⟨c :: inner, rest, rfl, by rw [closes, hd]; exact hinner⟩
    by_cases hm : mode = .outside
    · subst hm
      rw [bare_outside] at h
      by_cases ho : c = '['
      · subst ho
        refine hnext (depth + 1) rfl ?_
        simp at h
        omega
      by_cases hc : c = ']'
      · subst hc
        cases depth with
        | zero => exact ⟨[], text, rfl, rfl⟩
        | succ depth =>
          refine hnext depth rfl ?_
          simp at h
          omega
      · exact hnext depth (by simp [depthAfter, ho, hc]) (by simpa [List.count_cons, ho, hc] using h)
    · rw [bare_within hm] at h
      exact hnext depth (by simp [depthAfter, hm]) h

theorem count_of_closes (h : closes .outside 0 text = true) :
    (bare .outside text).count ']' = (bare .outside text).count '[' := by
  have hself : closes .outside 0 (text ++ []) = true := by rwa [List.append_nil]
  obtain ⟨left, hleft, hcount⟩ := closes_count hself
  obtain rfl : left = 0 := by simpa [closes] using (Bool.and_eq_true_iff.mp hleft).2
  exact hcount

theorem evened_iff : Evened ('[' :: text) ↔ (bare .outside text).count ']' = (bare .outside text).count '[' + 1 := by
  have hbare : bare .outside ('[' :: text) = '[' :: bare .outside text := rfl
  simp [Evened, hbare]

/-! ## Positions -/

theorem exists_split {i : Nat} (h : i < text.length) : ∃ xs c ys, text = xs ++ c :: ys ∧ xs.length = i := by
  refine ⟨text.take i, text[i], text.drop (i + 1), ?_, List.length_take_of_le (Nat.le_of_lt h)⟩
  rw [← List.drop_eq_getElem_cons h, List.take_append_drop]

theorem take_behind (lead xs ys : List Char) :
    (lead ++ '[' :: (xs ++ ys)).take (lead.length + 1 + xs.length) = lead ++ '[' :: xs := by
  rw [show lead ++ '[' :: (xs ++ ys) = lead ++ '[' :: xs ++ ys by simp]
  exact List.take_left' (by simp; omega)

theorem drop_behind (lead xs ys : List Char) :
    (lead ++ '[' :: (xs ++ ys)).drop (lead.length + 1 + xs.length) = ys := by
  rw [show lead ++ '[' :: (xs ++ ys) = lead ++ '[' :: xs ++ ys by simp]
  exact List.drop_left' (by simp; omega)

theorem after_behind (hm : Mode.outside.after lead = .outside) (xs : List Char) :
    Mode.outside.after (lead ++ '[' :: xs) = Mode.outside.after xs := by
  rw [Mode.after_append, hm]
  rfl

theorem evensAt_iff {c : Char} (hm : Mode.outside.after lead = .outside) :
    EvensAt (lead ++ '[' :: (xs ++ c :: ys)) lead.length (lead.length + 1 + xs.length) ↔
      Mode.outside.after xs = .outside ∧ Evened ('[' :: (xs ++ [c])) := by
  have hslice : ((lead ++ '[' :: (xs ++ c :: ys)).take (lead.length + 1 + xs.length + 1)).drop lead.length =
      '[' :: (xs ++ [c]) := by
    rw [show lead ++ '[' :: (xs ++ c :: ys) = lead ++ '[' :: (xs ++ [c]) ++ ys by simp, List.take_left' (by simp; omega),
      List.drop_left]
  constructor
  · intro h
    have houtside := h.outside
    have hevened := h.evened
    rw [take_behind, after_behind hm] at houtside
    rw [hslice] at hevened
    exact ⟨houtside, hevened⟩
  · rintro ⟨houtside, hevened⟩
    exact ⟨by omega, by simp; omega, by rw [take_behind, after_behind hm, houtside], by rw [hslice]; exact hevened⟩

theorem exists_of_evensAt (hm : Mode.outside.after lead = .outside)
    (h : EvensAt (lead ++ '[' :: rest) lead.length closing) :
    ∃ inner after, rest = inner ++ ']' :: after ∧ closes .outside 0 inner = true := by
  have hbehind := h.behind
  have hwithin := h.within
  rw [List.length_append, List.length_cons] at hwithin
  obtain ⟨xs, c, ys, rfl, hxs⟩ := exists_split (show closing - (lead.length + 1) < rest.length by omega)
  obtain rfl : closing = lead.length + 1 + xs.length := by omega
  have hcount := evened_iff.mp ((evensAt_iff hm).mp h).2
  have hmore : (bare .outside (xs ++ [c])).count '[' + 0 < (bare .outside (xs ++ [c])).count ']' := by omega
  obtain ⟨inner, left, he, hinner⟩ := exists_closes_of_count hmore
  refine ⟨inner, left ++ ys, ?_, hinner⟩
  rw [← List.cons_append, ← List.append_assoc, ← he, List.append_assoc]
  rfl

/-- The bracket that closes another stands at the first position that evens the count. -/
theorem isLeast_closing (hm : Mode.outside.after lead = .outside) (h : closes .outside 0 inner = true) (after : List Char) :
    IsLeast {i | EvensAt (lead ++ '[' :: (inner ++ ']' :: after)) lead.length i} (lead.length + 1 + inner.length) := by
  constructor
  · refine (evensAt_iff hm).mpr ⟨after_of_closes h, evened_iff.mpr ?_⟩
    rw [bare_append, after_of_closes h, show bare .outside [']'] = [']'] from rfl]
    simpa using count_of_closes h
  · intro i hi
    by_contra hless
    have hbehind : lead.length < i := hi.behind
    obtain ⟨xs, c, ys, rfl, hxs⟩ := exists_split (show i - (lead.length + 1) < inner.length by omega)
    obtain rfl : i = lead.length + 1 + xs.length := by omega
    rw [List.append_assoc, List.cons_append] at hi
    have hcount := evened_iff.mp ((evensAt_iff hm).mp hi).2
    -- what has been read inside the brackets closes no more than it opens
    have hread : closes .outside 0 (xs ++ [c] ++ ys) = true := by simpa using h
    obtain ⟨left, -, hle⟩ := closes_count hread
    omega

/-! ## What stands between brackets -/

def between (text : List Char) (opening closing : Nat) : List Char := (text.take closing).drop (opening + 1)

/-- Between two brackets of a text stands a text of its own. -/
structure SetOff (text : List Char) (opening closing : Nat) : Prop where
  closed : text[closing]? = some ']'
  complete : Mode.outside.after (between text opening closing) = .outside
  balanced : Balanced '[' ']' (between text opening closing)
  /-- A literal that starts between the brackets ends between them. -/
  terminated : ∀ i, opening < i → i < closing → Mode.outside.after (text.take i) = .outside → text[i]? = some '"' →
    ∃ content left, literal? (text.drop (i + 1)) = some (content, left) ∧ i + content.length < closing
  /-- At each position a reader that starts behind the opening bracket has read the same as one of the whole text. -/
  alike : ∀ i, opening < i → i ≤ closing →
    Mode.outside.after (between text opening i) = Mode.outside.after (text.take i)
  literals_eq : literals text =
    literals (text.take opening) ++ literals (between text opening closing) ++ literals (text.drop (closing + 1))

theorem between_brackets (lead xs ys : List Char) :
    between (lead ++ '[' :: (xs ++ ys)) lead.length (lead.length + 1 + xs.length) = xs := by
  rw [between, take_behind, show lead ++ '[' :: xs = lead ++ ['['] ++ xs by simp, List.drop_left' (by simp)]

theorem drop_succ {c : Char} {i : Nat} (h : text.drop i = c :: rest) : text.drop (i + 1) = rest := by
  rw [← List.drop_drop, h]
  rfl

theorem setOff (hm : Mode.outside.after lead = .outside) (h : closes .outside 0 inner = true) (after : List Char) :
    SetOff (lead ++ '[' :: (inner ++ ']' :: after)) lead.length (lead.length + 1 + inner.length) where
  closed := by
    rw [← List.head?_drop, drop_behind]
    rfl
  complete := by
    rw [between_brackets]
    exact after_of_closes h
  balanced := by
    rw [between_brackets]
    exact (closes_iff_depthBehind.mp h).1
  terminated := by
    intro i hbehind hwithin houtside hquote
    obtain ⟨xs, c, ys, rfl, hxs⟩ := exists_split (show i - (lead.length + 1) < inner.length by omega)
    obtain rfl : i = lead.length + 1 + xs.length := by omega
    rw [List.append_assoc, List.cons_append] at houtside hquote ⊢
    rw [take_behind, after_behind hm] at houtside
    rw [← List.head?_drop, drop_behind] at hquote
    obtain rfl := Option.some.inj hquote
    obtain ⟨depth, hopen⟩ := exists_closes_of_append h houtside
    rw [closes_char (by decide) (by decide)] at hopen
    obtain ⟨content, left, rfl, hliteral, -⟩ := exists_literal_of_closes ['"'] hopen
    refine ⟨content, left ++ ']' :: after, ?_, ?_⟩
    · rw [drop_succ (drop_behind ..), List.append_assoc, hliteral.literal?]
    · simp
      omega
  alike := by
    intro i hbehind hwithin
    obtain ⟨xs, ys, rfl, hxs⟩ : ∃ xs ys, inner = xs ++ ys ∧ xs.length = i - (lead.length + 1) :=
      ⟨inner.take _, inner.drop _, (List.take_append_drop ..).symm, List.length_take_of_le (by omega)⟩
    obtain rfl : i = lead.length + 1 + xs.length := by omega
    rw [List.append_assoc, between_brackets, take_behind, after_behind hm]
  literals_eq := by
    rw [between_brackets, List.take_left, drop_succ (drop_behind ..)]
    have hinner : literals ('[' :: (inner ++ ']' :: after)) = literals inner ++ literals after := by
      have hopen : literals ('[' :: (inner ++ ']' :: after)) = literals (inner ++ ']' :: after) := rfl
      rw [hopen, literals, literalsFrom_append, after_of_closes h]
      rfl
    rw [List.append_assoc, ← hinner, literals, literalsFrom_append, hm]
    rfl

/-! ## The search -/

/-- The bracket that is found to close one outside of literals is the first that evens the count of brackets from
    there on, and none is found only if none does. What stands between the two is a text of its own: its brackets are
    balanced, the literals that start in it end in it, and read alone it has the literals that it has in the whole. -/
theorem bracket?_account (hb : text[opening]? = some '[') (hm : Mode.outside.after (text.take opening) = .outside) :
    (∀ inner after, bracket? 0 (text.drop (opening + 1)) = some (inner, after) ↔
        ∃ closing, IsLeast {i | EvensAt text opening i} closing ∧ inner = between text opening closing ∧
          after = text.drop (closing + 1)) ∧
      (bracket? 0 (text.drop (opening + 1)) = none ↔ ∀ i, ¬EvensAt text opening i) ∧
      ∀ closing, IsLeast {i | EvensAt text opening i} closing → SetOff text opening closing := by
  obtain ⟨lead, rest, rfl, rfl⟩ : ∃ lead rest, text = lead ++ '[' :: rest ∧ opening = lead.length := by
    obtain ⟨hlt, hget⟩ := List.getElem?_eq_some_iff.mp hb
    obtain ⟨lead, c, rest, rfl, rfl⟩ := exists_split hlt
    obtain rfl : c = '[' := by simpa using hget
    exact ⟨lead, rest, rfl, rfl⟩
  rw [List.take_left] at hm
  rw [drop_succ (List.drop_left ..)]
  -- a position that evens the count leads to the bracket that is found, which stands at the least one
  have hfound : ∀ {i}, EvensAt (lead ++ '[' :: rest) lead.length i → ∃ inner after, rest = inner ++ ']' :: after ∧
      closes .outside 0 inner = true := exists_of_evensAt hm
  refine ⟨fun inner after => ⟨fun h => ?_, ?_⟩, ⟨fun h i hi => ?_, fun h => ?_⟩, fun closing hleast => ?_⟩
  · obtain ⟨rfl, hinner⟩ := bracket?_eq_some_iff.mp h
    exact ⟨_, isLeast_closing hm hinner after, (between_brackets ..).symm, (drop_succ (drop_behind ..)).symm⟩
  · rintro ⟨closing, hleast, rfl, rfl⟩
    obtain ⟨inner, after, rfl, hinner⟩ := hfound hleast.1
    obtain rfl := hleast.unique (isLeast_closing hm hinner after)
    rw [between_brackets, drop_succ (drop_behind ..), bracket?_of_closes hinner]
  · obtain ⟨inner, after, rfl, hinner⟩ := hfound hi
    rw [bracket?_of_closes hinner] at h
    cases h
  · rw [Option.eq_none_iff_forall_ne_some]
    rintro ⟨inner, after⟩ hsome
    obtain ⟨rfl, hinner⟩ := bracket?_eq_some_iff.mp hsome
    exact h _ (isLeast_closing hm hinner after).1
  · obtain ⟨inner, after, rfl, hinner⟩ := hfound hleast.1
    obtain rfl := hleast.unique (isLeast_closing hm hinner after)
    exact setOff hm hinner after

def keyedIndex : List Char := "m[k[\"]\"]] = n[".toList

theorem bracket?_account_keyed :
    keyedIndex[1]? = some '[' ∧ Mode.outside.after (keyedIndex.take 1) = .outside ∧
      bracket? 0 (keyedIndex.drop 2) = some ("k[\"]\"]".toList, " = n[".toList) ∧
      ∃ closing, IsLeast {i | EvensAt keyedIndex 1 i} closing ∧ "k[\"]\"]".toList = between keyedIndex 1 closing ∧
        " = n[".toList = keyedIndex.drop (closing + 1) := by
  have hb : keyedIndex[1]? = some '[' := by decide
  have hm : Mode.outside.after (keyedIndex.take 1) = .outside := by decide
  have hfound : bracket? 0 (keyedIndex.drop 2) = some ("k[\"]\"]".toList, " = n[".toList) :=
    bracket?_eq_some_iff.mpr ⟨by decide, by decide⟩
  exact ⟨hb, hm, hfound, ((bracket?_account hb hm).1 _ _).mp hfound⟩

end Rulebook.Feel
