/-
  Rulebook.Proofs.Expr.Item — an item of a list, by its place.

  A place is written as decimal digits, or as a name in brackets less one. Both are read
  as what they say, and the item is the one at that place, counted from 0; where there is
  none it is null.
  - `tokens?_item`, `tokens?_lessOne`: the tokens of an item.
  - `parse?_item`, `parse?_lessOne`: what is read of them.
  - `eval_item`, `eval_lessOne`: what they are in a scope that knows the names.
-/

import Rulebook.Proofs.Expr.Call

namespace Rulebook.Expr

open Rulebook.Text (isWordStart isWordChar IsWord IsNumeral)

variable {digits rest : List Char} {list place : String}

/-! ## Digits as a token -/

theorem spanLength_digits (hd : ∀ c ∈ digits, c.isDigit = true) (hr : rest.head?.any Char.isDigit = false) :
    spanLength Char.isDigit (digits ++ rest) = digits.length := by
  unfold spanLength
  rw [List.takeWhile_append_of_pos hd]
  cases rest with
  | nil => simp
  | cons c rest => simp_all

theorem number?_digits (hn : digits ≠ []) (hd : ∀ c ∈ digits, c.isDigit = true) (rest : List Char) :
    number? (digits ++ ']' :: rest) = some (.int digits, digits.length) := by
  have hspan := spanLength_digits hd (show (']' :: rest).head?.any Char.isDigit = false from rfl)
  have hpos := List.length_pos_iff.mpr hn
  simp only [number?, hspan]
  rw [if_neg]
  · simp [fractionLength, exponentLength, hpos]
  · -- a digit or the bracket stands where hexadecimal digits would have their mark
    split
    · rename_i more he
      obtain ⟨c, digits, rfl⟩ := List.exists_cons_of_ne_nil hn
      cases digits with
      | nil => cases (List.cons.inj he).2
      | cons d digits =>
        obtain ⟨rfl, -⟩ := List.cons.inj (List.cons.inj he).2
        cases hd 'x' (by simp)
    · exact Nat.lt_irrefl 0

theorem token?_digits (hn : digits ≠ []) (hd : ∀ c ∈ digits, c.isDigit = true) (rest : List Char) :
    token? (digits ++ ']' :: rest) = some (.int digits, digits.length) := by
  have hw : ∀ c ∈ digits, isWordChar c = true := fun c hc => Text.isWordChar_of_isDigit (hd c hc)
  have hstops : Stops (']' :: rest) := rfl
  have htext := textLength?_eq_none hw hstops
  have hnumber := number?_digits hn hd rest
  have hbytes : bytesLength? (digits ++ ']' :: rest) = none := by
    obtain ⟨c, more, rfl⟩ := List.exists_cons_of_ne_nil hn
    have hc := hd c (List.mem_cons_self ..)
    rw [List.cons_append, bytesLength?, if_neg]
    rintro (rfl | rfl) <;> cases hc
  rw [token?, hbytes, htext, hnumber]

theorem lex_digits (hn : digits ≠ []) (hd : ∀ c ∈ digits, c.isDigit = true) :
    lex false 0 (digits ++ ']' :: rest) = (lex false 0 (']' :: rest)).map (.int digits :: ·) := by
  have htoken := token?_digits hn hd rest
  obtain ⟨c, more, rfl⟩ := List.exists_cons_of_ne_nil hn
  exact lex_token (Text.isWordChar_of_isDigit (hd c (List.mem_cons_self ..))) htoken

theorem lex_openItem (rest : List Char) : lex false 0 ('[' :: rest) = (lex false 0 rest).map (.mark "[" :: ·) := rfl

theorem intOf?_numeral {m : Nat} (h : m ≤ 9223372036854775807) : intOf? (Text.numeral m) = some (Int64.ofInt m) := by
  unfold intOf?
  split
  · rename_i rest he
    have hx : 'x' ∈ Text.numeral m := by rw [he]; simp
    cases Text.isDigit_of_mem_numeral hx
  · rw [Text.readInt64_numeral h]
    rfl

/-! ## Tokens -/

def itemText (list place : List Char) : List Char := list ++ '[' :: (place ++ [']'])

def lessOne (name : List Char) : List Char := '(' :: (name ++ ") - 1".toList)

theorem tokens?_item (hl : IsWord list.toList) (hn : digits ≠ []) (hd : ∀ c ∈ digits, c.isDigit = true) :
    tokens? (itemText list.toList digits) = some [.name list, .mark "[", .int digits, .mark "]"] := by
  have hstops : Stops ('[' :: (digits ++ [']'])) := rfl
  rw [tokens?, itemText, lex_word hl hstops, lex_openItem, lex_digits hn hd]
  simp [show lex false 0 [']'] = some [.mark "]"] from rfl]

theorem tokens?_lessOne (hl : IsWord list.toList) (hp : IsWord place.toList) :
    tokens? (itemText list.toList (lessOne place.toList)) =
      some [.name list, .mark "[", .mark "(", .name place, .mark ")", .mark "-", .int ['1'], .mark "]"] := by
  have hstops : Stops ('[' :: (lessOne place.toList ++ [']'])) := rfl
  have hend : Stops (") - 1".toList ++ [']']) := rfl
  have htail : lex false 0 (") - 1".toList ++ [']']) = some [.mark ")", .mark "-", .int ['1'], .mark "]"] := by decide
  rw [tokens?, itemText, lex_word hl hstops, lex_openItem, lessOne, List.cons_append, lex_open, List.append_assoc,
    lex_word hp hend, htail]
  simp

/-! ## Reading -/

variable {e : Expr} {tokens left : List Token} {n : Nat}

theorem parseExpr_of_sum (h : parseSum (n + 1) tokens = some (e, left)) (hc : Closes left) :
    parseExpr (n + 5) tokens = some (e, left) :=
  parseExpr_of_either (parseEither_of_both (parseBoth_of_comparison (parseComparison_of_sum h hc) hc) hc) hc

theorem parseExpr_of_signed (h : parseSigned (n + 1) tokens = some (e, left)) (hc : Closes left) :
    parseExpr (n + 7) tokens = some (e, left) :=
  parseExpr_of_sum (parseSum_of_product (parseProduct_of_signed h hc) hc) hc

theorem parseSigned_int {k : Int64} (h : intOf? digits = some k) (hc : Closes left) :
    parseSigned (n + 3) (.int digits :: left) = some (.literal (.int k), left) := by
  have hsimple : parseSimple (n + 1) (.int digits :: left) = some (.literal (.int k), left) := by
    simp [parseSimple, literal?, h]
  simpa [parseSigned] using parseMember_of_simple hsimple hc

theorem parseExpr_lessOne (hp : isPlainName place = true) (hc : Closes left) :
    parseExpr (n + 19) (.mark "(" :: .name place :: .mark ")" :: .mark "-" :: .int ['1'] :: left) =
      some (.binary .sub (.ident place) (.literal (.int 1)), left) := by
  generalize hafter : Token.mark "-" :: .int ['1'] :: left = after
  have hname : parseExpr (n + 10) (.name place :: .mark ")" :: after) = some (.ident place, .mark ")" :: after) :=
    parseExpr_ident hp (Or.inr (Or.inr (Or.inl ⟨_, rfl⟩)))
  have hsimple : parseSimple (n + 11) (.mark "(" :: .name place :: .mark ")" :: after) = some (.ident place, after) := by
    simp [parseSimple, hname]
  have hmember : parseMember (n + 12) (.mark "(" :: .name place :: .mark ")" :: after) = some (.ident place, after) := by
    rw [parseMember, hsimple, ← hafter]
    rfl
  have hsigned : parseSigned (n + 13) (.mark "(" :: .name place :: .mark ")" :: after) = some (.ident place, after) := by
    simp [parseSigned, hmember]
  have hproduct : parseProduct (n + 14) (.mark "(" :: .name place :: .mark ")" :: after) = some (.ident place, after) := by
    rw [parseProduct, hsigned, ← hafter]
    rfl
  have hone : parseProduct (n + 13) (.int ['1'] :: left) = some (.literal (.int 1), left) :=
    parseProduct_of_signed (parseSigned_int (n := n + 9) rfl hc) hc
  have hmore : moreSum (n + 14) (.ident place) after = some (.binary .sub (.ident place) (.literal (.int 1)), left) := by
    rw [← hafter, moreSum]
    simp [sum?, hone, moreSum_closes hc]
  have hsum : parseSum (n + 15) (.mark "(" :: .name place :: .mark ")" :: after) =
      some (.binary .sub (.ident place) (.literal (.int 1)), left) := by
    rw [parseSum, hproduct]
    exact hmore
  exact parseExpr_of_sum hsum hc

theorem parseExpr_item {index : Expr} (hl : isPlainName list = true)
    (h : parseExpr (n + 1) tokens = some (index, .mark "]" :: left)) (hc : Closes left) :
    parseExpr (n + 10) (.name list :: .mark "[" :: tokens) = some (.item (.ident list) index, left) := by
  have hsimple : parseSimple (n + 2) (.name list :: .mark "[" :: tokens) = some (.ident list, .mark "[" :: tokens) := by
    rw [parseSimple_name hl]
    simp [parseNamed, afterMessageName?, hl]
  have hmember : parseMember (n + 3) (.name list :: .mark "[" :: tokens) = some (.item (.ident list) index, left) := by
    have hmore : moreMember (n + 2) (.ident list) (.mark "[" :: tokens) = some (.item (.ident list) index, left) := by
      rw [moreMember]
      simp [h, moreMember_closes hc]
    rw [parseMember, hsimple]
    exact hmore
  exact parseExpr_of_signed (parseSigned_of_member hmember) hc

theorem parse?_item {k : Int64} (hw : IsWord list.toList) (hl : isPlainName list = true) (hn : digits ≠ [])
    (hd : ∀ c ∈ digits, c.isDigit = true) (hk : intOf? digits = some k) :
    parse? (itemText list.toList digits) = some (.item (.ident list) (.literal (.int k))) := by
  have hclose : Closes [.mark "]"] := Or.inr (Or.inr (Or.inr ⟨[], rfl⟩))
  have hindex : parseExpr (82 + 9) [.int digits, .mark "]"] = some (.literal (.int k), [.mark "]"]) :=
    parseExpr_of_signed (parseSigned_int hk hclose) hclose
  have hitem := parseExpr_item (n := 90) hl hindex (Or.inl rfl)
  rw [parse?, tokens?_item hw hn hd]
  simp [hitem]

theorem parse?_lessOne (hw : IsWord list.toList) (hl : isPlainName list = true) (hpw : IsWord place.toList)
    (hp : isPlainName place = true) : parse? (itemText list.toList (lessOne place.toList)) =
      some (.item (.ident list) (.binary .sub (.ident place) (.literal (.int 1)))) := by
  have hclose : Closes [.mark "]"] := Or.inr (Or.inr (Or.inr ⟨[], rfl⟩))
  have hitem := parseExpr_item (n := 170) hl (parseExpr_lessOne (n := 152) hp hclose) (Or.inl rfl)
  rw [parse?, tokens?_lessOne hw hpw]
  simp [hitem]

/-! ## Evaluating -/

variable {scope : Scope} {items : List Datum} {k : Int64}

def itemAt (items : List Datum) (place : Int) : Datum := if place < 0 then .null else (items[place.toNat]?).getD .null

theorem eval_item (hl : scope.data list = some (.list items)) :
    eval (.item (.ident list) (.literal (.int k))) scope = .ok (itemAt items k.toInt) := by
  simp [eval, hl, bind, Except.bind, Datum.item, itemAt]

/-- One is taken from a number that a name stands for, unless that leaves the 64 bits. -/
theorem eval_lessOne (hl : scope.data list = some (.list items)) (hp : scope.data place = some (.int k)) :
    eval (.item (.ident list) (.binary .sub (.ident place) (.literal (.int 1)))) scope =
      if k = Int64.minValue then .error (.overflow .sub (.int k) (.int 1)) else .ok (itemAt items (k.toInt - 1)) := by
  have hone : (1 : Int64).toInt = 1 := rfl
  have hlow := k.le_toInt
  have hhigh := k.toInt_lt
  have hsub : eval (.item (.ident list) (.binary .sub (.ident place) (.literal (.int 1)))) scope =
      (Datum.checkedInt .sub k 1 (k.toInt - 1)).bind (Datum.item (.list items)) := by
    simp only [eval, hl, hp, bind, Except.bind, Datum.operate, Datum.sub, hone]
  rw [hsub, Datum.checkedInt]
  by_cases hk : k = Int64.minValue
  · subst hk
    rfl
  · have hne : k.toInt ≠ -9223372036854775808 := fun he => hk (Int64.toInt_inj.mp he)
    have hfits : Datum.fitsInt64 (k.toInt - 1) = true := by
      simp only [Datum.fitsInt64, Bool.and_eq_true, decide_eq_true_eq]
      omega
    have hback : (Int64.ofInt (k.toInt - 1)).toInt = k.toInt - 1 := Int64.toInt_ofInt_of_le (by omega) (by omega)
    rw [if_pos hfits, if_neg hk]
    simp only [Except.bind, Datum.item, itemAt, hback]

end Rulebook.Expr
