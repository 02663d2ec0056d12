/-
  Rulebook.Proofs.Json.Finite — the floats of a text are finite.

  A number comes into the tokens of a text as the number of a literal, which is finite,
  and into the tree of the text from its tokens only.
  - `floatsFinite_tokens`: the floats among the tokens of a text are finite.
  - `floatsFinite_ofText`: so are those of its tree.
-/

import Rulebook.Json.Leaf
import Rulebook.Proofs.Json.Number

namespace Rulebook.Json

/-! ## Tokens -/

def Token.FloatsFinite (token : Token) : Prop := ∀ x, token = .scalar (.ok (.number (.float x))) → x.isFinite = true

theorem Token.floatsFinite_text (content : Except Flaw String) : (Token.text content).FloatsFinite := by simp [Token.FloatsFinite]

theorem Token.floatsFinite_junk : Token.junk.FloatsFinite := by simp [Token.FloatsFinite]

theorem floatsFinite_scanNumber (negative : Bool) (text : List Symbol) : (scanNumber negative text).1.FloatsFinite := by
  intro x hx
  unfold scanNumber at hx
  split at hx
  · simp at hx
  split at hx
  · rename_i hnumber
    obtain rfl : _ = Number.float x := by simpa using hx
    exact isFinite_of_number hnumber
  · simp at hx

theorem floatsFinite_scanIdent {scalar : Scalar} (hs : ∀ n, scalar ≠ .number n) (expected : List Char) (text : List Symbol) :
    (scanIdent scalar expected text).1.FloatsFinite := by
  fun_induction scanIdent scalar expected text with
  | case1 =>
    intro x hx
    exact absurd (by simpa using hx) (hs (.float x))
  | case2 => simp [Token.FloatsFinite]
  | case3 _ _ _ ih => exact ih
  | case4 => simp [Token.FloatsFinite]

theorem floatsFinite_next (c : Char) (rest : List Symbol) : (Token.next c rest).1.FloatsFinite := by
  unfold Token.next
  split
  · rename_i mark hmark
    rintro x rfl
    unfold Token.mark? at hmark
    repeat' split at hmark
    all_goals cases hmark
  split
  · exact Token.floatsFinite_text _
  split
  · exact floatsFinite_scanNumber true rest
  split
  · exact floatsFinite_scanNumber false _
  unfold Token.word
  split
  · exact floatsFinite_scanIdent (by simp) _ rest
  split
  · exact floatsFinite_scanIdent (by simp) _ rest
  split
  · exact floatsFinite_scanIdent (by simp) _ rest
  · exact Token.floatsFinite_junk

theorem floatsFinite_tokens (text : List Symbol) : ∀ token ∈ tokens text, token.FloatsFinite := by
  fun_induction tokens text with
  | case1 => exact List.forall_mem_nil _
  | case2 rest =>
    intro token ht
    obtain rfl := List.mem_singleton.mp ht
    exact Token.floatsFinite_junk
  | case3 c rest hspace ih => exact ih
  | case4 c rest hspace ih => exact List.forall_mem_cons.mpr ⟨floatsFinite_next c rest, ih⟩

/-! ## Trees -/

def Tree.FloatsFinite (tree : Tree) : Prop := tree.MadeOf Token.FloatsFinite

/-- A text has finite floats only, also where it is broken. -/
theorem floatsFinite_ofText (text : String) : (Document.ofText text).root.FloatsFinite :=
  madeOf_ofSymbols (floatsFinite_tokens _)

end Rulebook.Json
