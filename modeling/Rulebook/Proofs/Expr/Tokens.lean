/-
  Rulebook.Proofs.Expr.Tokens — the tokens of a text with other text behind it.

  The longest token is taken at each place, so what follows a text could change its last
  token, or be taken into it. A text that starts with a blank or a closing bracket and
  holds no quotes does neither (`Detached`): it makes no number, name or mark longer, and
  ends no literal. Only a comment takes it in, as it runs on to the end of the line
  (`EndsInComment`).
  - `token?_append`: the first token of a text is the same with other text behind it.
  - `lex_append`: the tokens of a text are followed by those of the text behind it, as far
    as a comment leaves it.
  - `tokens?_trim`: blanks around a text have no tokens, and any that are no space to the
    engine have no place around a rule.
-/

import Rulebook.Proofs.Expr.Call

namespace Rulebook.Expr

open Rulebook.Text (isBlank isWordChar trim isWordChar_of_isDigit)

variable {w rest text : List Char}

/-! ## What may stand behind a text -/

/-- A text that stands apart from what is before it: it starts with a blank or a closing bracket, and holds no quotes. -/
structure Detached (rest : List Char) : Prop where
  head : ∀ c, rest.head? = some c → isBlank c = true ∨ c = ')' ∨ c = ']'
  quotes : ∀ c ∈ rest, c ≠ '"' ∧ c ≠ '\'' ∧ c ≠ '`'

theorem Detached.ne (h : Detached rest) {c : Char} (hc : rest.head? = some c) {d : Char} (hb : isBlank d = false)
    (hd : d ≠ ')' ∧ d ≠ ']') : c ≠ d := by
  rintro rfl
  rcases h.head c hc with h | h | h
  · cases hb.symm.trans h
  · exact hd.1 h
  · exact hd.2 h

theorem Detached.stops (h : Detached rest) {test : Char → Bool} (hb : ∀ c, isBlank c = true → test c = false)
    (hr : test ')' = false) (hs : test ']' = false) : rest.head?.any test = false := by
  cases hc : rest.head? with
  | none => rfl
  | some c =>
    rcases h.head c hc with hblank | rfl | rfl
    · exact hb c hblank
    · exact hr
    · exact hs

theorem Detached.stopsWord (h : Detached rest) {test : Char → Bool} (ht : ∀ c, test c = true → isWordChar c = true) :
    rest.head?.any test = false := by
  have hfalse : ∀ c, isWordChar c = false → test c = false := by
    intro c hc
    cases htest : test c with
    | false => rfl
    | true => cases hc.symm.trans (ht c htest)
  exact h.stops (fun c hc => hfalse c (Text.not_isWordChar_of_isBlank hc)) (hfalse ')' (by decide)) (hfalse ']' (by decide))

theorem isWordChar_of_isHexDigit {c : Char} (h : isHexDigit c = true) : isWordChar c = true := by
  have hrange : c.isDigit = true ∨ ('a' ≤ c ∧ c ≤ 'f') ∨ ('A' ≤ c ∧ c ≤ 'F') := by
    unfold isHexDigit Text.hexValue? at h
    by_cases hd : c.isDigit = true
    · exact Or.inl hd
    by_cases hl : 'a' ≤ c ∧ c ≤ 'f'
    · exact Or.inr (Or.inl hl)
    by_cases hu : 'A' ≤ c ∧ c ≤ 'F'
    · exact Or.inr (Or.inr hu)
    · rw [if_neg hd, if_neg hl, if_neg hu] at h
      cases h
  rcases hrange with h | ⟨h, h'⟩ | ⟨h, h'⟩
  · exact isWordChar_of_isDigit h
  · have hlower : c.isLower = true := by
      simp only [Char.isLower, Bool.and_eq_true, decide_eq_true_eq]
      exact ⟨h, UInt32.le_trans h' (by decide)⟩
    simp [isWordChar, Char.isAlphanum, Char.isAlpha, hlower]
  · have hupper : c.isUpper = true := by
      simp only [Char.isUpper, decide_eq_true_eq]
      exact ⟨h, UInt32.le_trans h' (by decide)⟩
    simp [isWordChar, Char.isAlphanum, Char.isAlpha, hupper]

/-! ## Runs of characters -/

theorem spanLength_append {test : Char → Bool} (h : rest.head?.any test = false) (w : List Char) :
    spanLength test (w ++ rest) = spanLength test w := by
  unfold spanLength
  induction w with
  | nil =>
    cases rest with
    | nil => rfl
    | cons c rest =>
      have hc : test c = false := h
      simp [hc]
  | cons c w ih =>
    cases hc : test c with
    | true => simpa [hc] using ih
    | false => simp [hc]

theorem spanLength_le (test : Char → Bool) (w : List Char) : spanLength test w ≤ w.length :=
  (List.takeWhile_sublist test).length_le

/-- A number of characters that satisfy a test are not completed by what follows. -/
theorem take_all_append {test : Char → Bool} (h : rest.head?.any test = false) (n : Nat) (w : List Char) :
    (((w ++ rest).take n).length = n ∧ ((w ++ rest).take n).all test = true) ↔
      ((w.take n).length = n ∧ (w.take n).all test = true) := by
  by_cases hn : n ≤ w.length
  · rw [List.take_append_of_le_length hn]
  · refine iff_of_false ?_ fun hw => hn (by rw [List.length_take] at hw; omega)
    rintro ⟨hlength, hall⟩
    cases rest with
    | nil =>
      rw [List.append_nil, List.length_take] at hlength
      omega
    | cons c rest =>
      have hc : test c = false := h
      have hmem : c ∈ (w ++ c :: rest).take n := by
        obtain ⟨k, rfl⟩ : ∃ k, n = w.length + 1 + k := Nat.exists_eq_add_of_le (by omega)
        simp [List.take_append, Nat.add_assoc, Nat.add_comm 1]
      cases hc.symm.trans (List.all_eq_true.mp hall c hmem)

/-! ## Literals -/

theorem escapeLength?_append (h : Detached rest) (w : List Char) : escapeLength? (w ++ rest) = escapeLength? w := by
  have hhex : rest.head?.any isHexDigit = false := h.stopsWord fun _ => isWordChar_of_isHexDigit
  have hoctal : rest.head?.any (fun c => decide ('0' ≤ c) && decide (c ≤ '7')) = false := by
    refine h.stopsWord fun c hc => isWordChar_of_isDigit ?_
    simp only [Bool.and_eq_true, decide_eq_true_eq] at hc
    simp only [Char.isDigit, Bool.and_eq_true, decide_eq_true_eq]
    exact ⟨hc.1, UInt32.le_trans hc.2 (by decide)⟩
  cases w with
  | nil =>
    cases rest with
    | nil => rfl
    | cons c rest =>
      have hescape : ∀ d ∈ "abfnrtv\\?\"'`xXuU".toList, c ≠ d := by
        have hall : ∀ d ∈ "abfnrtv\\?\"'`xXuU".toList, isBlank d = false ∧ d ≠ ')' ∧ d ≠ ']' := by decide
        exact fun d hd => h.ne rfl (hall d hd).1 (hall d hd).2
      have hletter : ¬"abfnrtv\\?\"'`".toList.contains c = true := by
        have hsub : ∀ d ∈ "abfnrtv\\?\"'`".toList, d ∈ "abfnrtv\\?\"'`xXuU".toList := by decide
        exact fun hm => hescape c (hsub c (List.contains_iff_mem.mp hm)) rfl
      have hoct : ¬('0' ≤ c ∧ c ≤ '3') := by
        intro hc
        have hfalse : (decide ('0' ≤ c) && decide (c ≤ '7')) = false := hoctal
        have hseven : c ≤ '7' := UInt32.le_trans hc.2 (by decide)
        simp [hc.1, hseven] at hfalse
      have hx : ¬(c = 'x' ∨ c = 'X') := not_or.mpr ⟨hescape _ (by decide), hescape _ (by decide)⟩
      show escapeLength? (c :: rest) = none
      simp only [escapeLength?]
      rw [if_neg hletter, if_neg hx, if_neg (hescape 'u' (by decide)), if_neg (hescape 'U' (by decide)), if_neg hoct]
  | cons c w =>
    have htake := take_all_append hhex
    have htake' := take_all_append hoctal
    simp only [List.cons_append, escapeLength?, htake, htake']

theorem isPrefixOf_append {quotes : List Char} (h : ∀ c ∈ quotes, c ∉ rest) (w : List Char) :
    quotes.isPrefixOf (w ++ rest) = quotes.isPrefixOf w := by
  induction quotes generalizing w with
  | nil => rfl
  | cons q quotes ih =>
    cases w with
    | nil =>
      cases rest with
      | nil => rfl
      | cons c rest =>
        have hq : (q == c) = false := beq_false_of_ne fun he => h q (List.mem_cons_self ..) (he ▸ List.mem_cons_self ..)
        simp [List.isPrefixOf, hq]
    | cons c w =>
      simp only [List.cons_append, List.isPrefixOf]
      rw [ih fun d hd => h d (List.mem_cons_of_mem _ hd)]

theorem bodyLength?_eq_none {quotes : List Char} {raw : Bool} (hq : quotes ≠ []) (h : ∀ c ∈ quotes, c ∉ rest)
    (done skip : Nat) : bodyLength? quotes raw done skip rest = none := by
  induction rest generalizing done skip with
  | nil => rfl
  | cons c rest ih =>
    have hnone : quotes.isPrefixOf (c :: rest) = false := by
      have hquotes := isPrefixOf_append h []
      rw [List.nil_append] at hquotes
      rw [hquotes]
      cases quotes with
      | nil => exact absurd rfl hq
      | cons q quotes => rfl
    have hrest := fun done skip => ih (fun d hd hm => h d hd (List.mem_cons_of_mem _ hm)) done skip
    unfold bodyLength?
    cases skip with
    | succ skip => exact hrest _ _
    | zero =>
      simp only [hnone, Bool.false_eq_true, if_false, hrest]
      split
      · rfl
      split
      · split <;> rfl
      · rfl

theorem bodyLength?_append {quotes : List Char} {raw : Bool} (hq : quotes ≠ []) (h : ∀ c ∈ quotes, c ∉ rest)
    (hr : Detached rest) (done skip : Nat) (w : List Char) :
    bodyLength? quotes raw done skip (w ++ rest) = bodyLength? quotes raw done skip w := by
  induction w generalizing done skip with
  | nil => exact bodyLength?_eq_none hq h done skip
  | cons c w ih =>
    have hquotes := isPrefixOf_append h (c :: w)
    rw [List.cons_append] at hquotes ⊢
    unfold bodyLength?
    cases skip with
    | succ skip => exact ih _ _
    | zero => simp only [hquotes, escapeLength?_append hr, ih]

theorem bodyLength?_le {quotes : List Char} {raw : Bool} {done skip n : Nat} {w : List Char}
    (h : bodyLength? quotes raw done skip w = some n) : n ≤ done + w.length := by
  induction w generalizing done skip with
  | nil => cases h
  | cons c w ih =>
    rw [List.length_cons]
    unfold bodyLength? at h
    cases skip with
    | succ skip =>
      have := ih h
      omega
    | zero =>
      simp only at h
      split at h
      · rename_i hquotes
        have hle := (List.isPrefixOf_iff_prefix.mp hquotes).length_le
        obtain rfl := Option.some.inj h
        rw [List.length_cons] at hle
        omega
      split at h
      · cases h
      split at h
      · split at h
        · cases h
        · have := ih h
          omega
      · have := ih h
        omega

theorem Detached.notMem (h : Detached rest) {q : Char} (hq : q = '"' ∨ q = '\'') : q ∉ rest := by
  intro hm
  obtain ⟨hd, hs, -⟩ := h.quotes q hm
  exact hq.elim hd hs

theorem quotedLength?_append (h : Detached rest) (raw : Bool) (w : List Char) :
    quotedLength? raw (w ++ rest) = quotedLength? raw w := by
  cases w with
  | nil =>
    refine quotedLength?_eq_none (h.stops (fun c hc => ?_) rfl rfl) raw
    have hd : c ≠ '"' := Text.ne_of_class hc (by decide)
    have hs : c ≠ '\'' := Text.ne_of_class hc (by decide)
    simp [isQuote, hd, hs]
  | cons q w =>
    rw [List.cons_append, quotedLength?, quotedLength?]
    by_cases hq : q = '"' ∨ q = '\''
    · have hnone : q ∉ rest := h.notMem hq
      rw [if_pos hq, if_pos hq]
      have hquotes : [q, q].isPrefixOf (w ++ rest) = [q, q].isPrefixOf w := isPrefixOf_append (by simpa using hnone) w
      have hbody : bodyLength? [q] raw 0 0 (w ++ rest) = bodyLength? [q] raw 0 0 w :=
        bodyLength?_append (by simp) (by simpa using hnone) h 0 0 w
      simp only [hquotes, hbody]
      split
      · rename_i htwo
        obtain ⟨more, rfl⟩ := List.isPrefixOf_iff_prefix.mp htwo
        have hthree : bodyLength? [q, q, q] raw 0 0 (more ++ rest) = bodyLength? [q, q, q] raw 0 0 more :=
          bodyLength?_append (by simp) (by simpa using hnone) h 0 0 more
        simp [hthree]
      · rfl
    · rw [if_neg hq, if_neg hq]

theorem quotedLength?_le {raw : Bool} {n : Nat} (h : quotedLength? raw w = some n) : n ≤ w.length := by
  cases w with
  | nil => cases h
  | cons q w =>
    rw [quotedLength?] at h
    split at h
    · rcases Option.or_eq_some_iff.mp h with h | ⟨-, h⟩
      · split at h
        · rename_i htwo
          have hle := (List.isPrefixOf_iff_prefix.mp htwo).length_le
          obtain ⟨m, hm, rfl⟩ := Option.map_eq_some_iff.mp h
          have hbody := bodyLength?_le hm
          simp only [List.length_drop, List.length_cons, List.length_nil] at hbody hle ⊢
          omega
        · cases h
      · obtain ⟨m, hm, rfl⟩ := Option.map_eq_some_iff.mp h
        have hbody := bodyLength?_le hm
        rw [List.length_cons]
        omega
    · cases h

theorem textLength?_append (h : Detached rest) (w : List Char) : textLength? (w ++ rest) = textLength? w := by
  cases w with
  | nil =>
    cases rest with
    | nil => rfl
    | cons c rest =>
      have hr : ¬(c = 'r' ∨ c = 'R') := not_or.mpr ⟨h.ne rfl (by decide) (by decide), h.ne rfl (by decide) (by decide)⟩
      have hquoted := quotedLength?_append h false []
      rw [List.nil_append] at hquoted
      show textLength? (c :: rest) = none
      rw [textLength?, if_neg hr, hquoted]
      rfl
  | cons c w =>
    have hquoted := quotedLength?_append h false (c :: w)
    rw [List.cons_append] at hquoted ⊢
    rw [textLength?, textLength?, quotedLength?_append h, hquoted]

theorem textLength?_le {n : Nat} (h : textLength? w = some n) : n ≤ w.length := by
  cases w with
  | nil => cases h
  | cons c w =>
    rw [textLength?] at h
    split at h
    · obtain ⟨m, hm, rfl⟩ := Option.map_eq_some_iff.mp h
      exact Nat.succ_le_succ (quotedLength?_le hm)
    · exact quotedLength?_le h

theorem bytesLength?_append (h : Detached rest) (hw : w ≠ []) : bytesLength? (w ++ rest) = bytesLength? w := by
  obtain ⟨c, w, rfl⟩ := List.exists_cons_of_ne_nil hw
  rw [List.cons_append, bytesLength?, bytesLength?, textLength?_append h]

theorem bytesLength?_le {n : Nat} (h : bytesLength? w = some n) : n ≤ w.length := by
  cases w with
  | nil => cases h
  | cons c w =>
    rw [bytesLength?] at h
    split at h
    · obtain ⟨m, hm, rfl⟩ := Option.map_eq_some_iff.mp h
      exact Nat.succ_le_succ (textLength?_le hm)
    · cases h

/-! ## Numbers -/

theorem Detached.head?_append (h : Detached rest) {d : Char} (hb : isBlank d = false) (hd : d ≠ ')' ∧ d ≠ ']')
    (w : List Char) : (w ++ rest).head? = some d ↔ w.head? = some d := by
  cases w with
  | nil => exact iff_of_false (fun hc => h.ne hc hb hd rfl) nofun
  | cons c w => exact Iff.rfl

theorem fractionLength_append (h : Detached rest) (w : List Char) : fractionLength (w ++ rest) = fractionLength w := by
  have hdigit : rest.head?.any Char.isDigit = false := h.stopsWord fun _ => isWordChar_of_isDigit
  cases w with
  | nil =>
    cases rest with
    | nil => rfl
    | cons c rest =>
      have hc : c ≠ '.' := h.ne rfl (by decide) (by decide)
      show fractionLength (c :: rest) = 0
      simp [fractionLength, hc]
  | cons c w =>
    by_cases hc : c = '.'
    · subst hc
      simp only [List.cons_append, fractionLength, spanLength_append hdigit]
    · simp [fractionLength, hc]

theorem fractionLength_le (w : List Char) : fractionLength w ≤ w.length := by
  unfold fractionLength
  split
  · rename_i rest
    have hle := spanLength_le Char.isDigit rest
    simp only [List.length_cons]
    split <;> omega
  · exact Nat.zero_le _

theorem exponentLength_append (h : Detached rest) (w : List Char) : exponentLength (w ++ rest) = exponentLength w := by
  have hdigit : rest.head?.any Char.isDigit = false := h.stopsWord fun _ => isWordChar_of_isDigit
  cases w with
  | nil =>
    cases rest with
    | nil => rfl
    | cons c rest =>
      have hc : ¬(c = 'e' ∨ c = 'E') := not_or.mpr ⟨h.ne rfl (by decide) (by decide), h.ne rfl (by decide) (by decide)⟩
      show exponentLength (c :: rest) = 0
      rw [exponentLength, if_neg hc]
  | cons c w =>
    have hplus := h.head?_append (d := '+') (by decide) (by decide) w
    have hminus := h.head?_append (d := '-') (by decide) (by decide) w
    simp only [List.cons_append, exponentLength, hplus, hminus]
    split
    · by_cases hsign : w.head? = some '+' ∨ w.head? = some '-'
      · have hle : 1 ≤ w.length := by
          cases w with
          | nil => rcases hsign with hsign | hsign <;> cases hsign
          | cons d w => simp
        simp only [if_pos hsign, List.drop_append_of_le_length hle, spanLength_append hdigit]
      · simp only [if_neg hsign, List.drop_zero, spanLength_append hdigit]
    · rfl

theorem exponentLength_le (w : List Char) : exponentLength w ≤ w.length := by
  cases w with
  | nil => exact Nat.zero_le _
  | cons c w =>
    rw [exponentLength]
    split
    · simp only
      generalize (if w.head? = some '+' ∨ w.head? = some '-' then 1 else 0) = sign
      have hle := spanLength_le Char.isDigit (w.drop sign)
      rw [List.length_drop] at hle
      split
      · exact Nat.zero_le _
      · rw [List.length_cons]
        omega
    · exact Nat.zero_le _

def hexLength : List Char → Nat
  | '0' :: 'x' :: rest => spanLength isHexDigit rest
  | _ => 0

theorem hexLength_append (h : Detached rest) (w : List Char) : hexLength (w ++ rest) = hexLength w := by
  have hhex : rest.head?.any isHexDigit = false := h.stopsWord fun _ => isWordChar_of_isHexDigit
  have hmark : rest.head? ≠ some '0' ∧ rest.head? ≠ some 'x' :=
    ⟨fun hc => h.ne hc (by decide) (by decide) rfl, fun hc => h.ne hc (by decide) (by decide) rfl⟩
  match w with
  | [] =>
    cases rest with
    | nil => rfl
    | cons c rest =>
      have hc : c ≠ '0' := fun he => hmark.1 (congrArg some he)
      show hexLength (c :: rest) = 0
      simp [hexLength, hc]
  | [c] =>
    cases rest with
    | nil => rfl
    | cons d rest =>
      have hd : d ≠ 'x' := fun he => hmark.2 (congrArg some he)
      show hexLength (c :: d :: rest) = hexLength [c]
      simp [hexLength, hd]
  | c :: d :: w =>
    by_cases hc : c = '0' ∧ d = 'x'
    · obtain ⟨rfl, rfl⟩ := hc
      exact spanLength_append hhex w
    · have hother : ∀ more, hexLength (c :: d :: more) = 0 := by
        intro more
        unfold hexLength
        split
        · rename_i he
          obtain ⟨rfl, hrest⟩ := List.cons.inj he
          obtain ⟨rfl, -⟩ := List.cons.inj hrest
          exact absurd ⟨rfl, rfl⟩ hc
        · rfl
      exact (hother _).trans (hother w).symm

theorem hexLength_le (h : 0 < hexLength w) : hexLength w + 2 ≤ w.length := by
  unfold hexLength at h ⊢
  split at h
  · rename_i rest
    have hle := spanLength_le isHexDigit rest
    simp only [List.length_cons]
    omega
  · exact absurd h (Nat.lt_irrefl 0)

def isUnsignedAt (text : List Char) (n : Nat) : Bool := (text.drop n).head? == some 'u' || (text.drop n).head? == some 'U'

theorem isUnsignedAt_append (h : Detached rest) {n : Nat} (hn : n ≤ w.length) :
    isUnsignedAt (w ++ rest) n = isUnsignedAt w n := by
  unfold isUnsignedAt
  rw [List.drop_append_of_le_length hn, Bool.eq_iff_iff]
  simp only [Bool.or_eq_true, beq_iff_eq, h.head?_append (d := 'u') (by decide) (by decide),
    h.head?_append (d := 'U') (by decide) (by decide)]

theorem lt_of_isUnsignedAt {n : Nat} (h : isUnsignedAt w n = true) : n < w.length := by
  by_contra hn
  rw [isUnsignedAt, List.drop_eq_nil_of_le (Nat.le_of_not_lt hn)] at h
  cases h

theorem number?_eq (text : List Char) : number? text =
    let whole := spanLength Char.isDigit text
    let part := fractionLength (text.drop whole)
    let exponent := exponentLength (text.drop (whole + part))
    let hex := hexLength text
    if 0 < hex then
      if isUnsignedAt text (hex + 2) then some (.uint (text.take (hex + 2)), hex + 3)
      else some (.int (text.take (hex + 2)), hex + 2)
    else if 0 < part ∨ (0 < whole ∧ 0 < exponent) then
      some (.float (text.take (whole + part + exponent)), whole + part + exponent)
    else if 0 < whole then
      if isUnsignedAt text whole then some (.uint (text.take whole), whole + 1) else some (.int (text.take whole), whole)
    else none := rfl

theorem number?_append (h : Detached rest) (w : List Char) : number? (w ++ rest) = number? w := by
  have hdigit : rest.head?.any Char.isDigit = false := h.stopsWord fun _ => isWordChar_of_isDigit
  rw [number?_eq, number?_eq]
  simp only [spanLength_append hdigit, hexLength_append h]
  have hwhole := spanLength_le Char.isDigit w
  generalize spanLength Char.isDigit w = whole at hwhole ⊢
  simp only [List.drop_append_of_le_length hwhole, fractionLength_append h]
  have hpart := fractionLength_le (w.drop whole)
  rw [List.length_drop] at hpart
  generalize fractionLength (w.drop whole) = part at hpart ⊢
  have hboth : whole + part ≤ w.length := by omega
  simp only [List.drop_append_of_le_length hboth, exponentLength_append h]
  have hexponent := exponentLength_le (w.drop (whole + part))
  rw [List.length_drop] at hexponent
  generalize exponentLength (w.drop (whole + part)) = exponent at hexponent ⊢
  have hall : whole + part + exponent ≤ w.length := by omega
  rw [List.take_append_of_le_length hall, isUnsignedAt_append h hwhole, List.take_append_of_le_length hwhole]
  by_cases hx : 0 < hexLength w
  · have hhex := hexLength_le hx
    rw [if_pos hx, if_pos hx, isUnsignedAt_append h hhex, List.take_append_of_le_length hhex]
  · rw [if_neg hx, if_neg hx]

theorem number?_le {token : Token} {n : Nat} (h : number? w = some (token, n)) : n ≤ w.length := by
  rw [number?_eq] at h
  simp only at h
  have hwhole := spanLength_le Char.isDigit w
  generalize spanLength Char.isDigit w = whole at hwhole h
  have hpart := fractionLength_le (w.drop whole)
  rw [List.length_drop] at hpart
  generalize fractionLength (w.drop whole) = part at hpart h
  have hexponent := exponentLength_le (w.drop (whole + part))
  rw [List.length_drop] at hexponent
  generalize exponentLength (w.drop (whole + part)) = exponent at hexponent h
  split at h
  · rename_i hx
    have hhex := hexLength_le hx
    split at h
    · rename_i hu
      obtain ⟨-, rfl⟩ := Prod.mk.inj (Option.some.inj h)
      exact lt_of_isUnsignedAt hu
    · obtain ⟨-, rfl⟩ := Prod.mk.inj (Option.some.inj h)
      exact hhex
  split at h
  · obtain ⟨-, rfl⟩ := Prod.mk.inj (Option.some.inj h)
    omega
  split at h
  · split at h
    · rename_i hu
      obtain ⟨-, rfl⟩ := Prod.mk.inj (Option.some.inj h)
      exact lt_of_isUnsignedAt hu
    · obtain ⟨-, rfl⟩ := Prod.mk.inj (Option.some.inj h)
      exact hwhole
  · cases h

/-! ## Names and marks -/

def inQuotes (c : Char) : Bool := inName c || c == '.' || c == '-' || c == '/' || c == ' '

theorem quotedName?_cons (w : List Char) : quotedName? ('`' :: w) =
    let n := spanLength inQuotes w
    if 0 < n ∧ (w.drop n).head? = some '`' then some (.quotedName (String.ofList (('`' :: w).take (n + 2))), n + 2)
    else none := rfl

theorem quotedName?_other {c : Char} (hc : c ≠ '`') (w : List Char) : quotedName? (c :: w) = none := by
  unfold quotedName?
  split
  · rename_i he
    exact absurd (List.cons.inj he).1 hc
  · rfl

theorem quotedName?_append (h : Detached rest) (hw : w ≠ []) : quotedName? (w ++ rest) = quotedName? w := by
  obtain ⟨c, w, rfl⟩ := List.exists_cons_of_ne_nil hw
  rw [List.cons_append]
  by_cases hc : c = '`'
  · subst hc
    rw [quotedName?_cons, quotedName?_cons]
    by_cases hall : (w.takeWhile inQuotes).length = w.length
    · -- the run goes on to the end of the text, and no back quote follows
      have hleft : ∀ n, ((w ++ rest).drop (w.length + n)).head? ≠ some '`' := by
        intro n hn
        rw [List.drop_append, List.drop_of_length_le (Nat.le_add_right _ _), List.nil_append, Nat.add_sub_cancel_left] at hn
        exact (h.quotes _ (List.mem_of_mem_drop (List.mem_of_head? hn))).2.2 rfl
      have hspan : spanLength inQuotes (w ++ rest) = w.length + spanLength inQuotes rest := by
        rw [spanLength, List.takeWhile_append, if_pos hall, List.length_append]
        rfl
      have hself : spanLength inQuotes w = w.length := hall
      simp only [hspan, hleft, hself, List.drop_length, List.head?_nil, and_false, reduceCtorEq, if_false]
    · have hspan : spanLength inQuotes (w ++ rest) = spanLength inQuotes w := by
        rw [spanLength, List.takeWhile_append, if_neg hall]
        rfl
      have hless : spanLength inQuotes w < w.length := Nat.lt_of_le_of_ne (spanLength_le _ _) hall
      have hhead : ((w ++ rest).drop (spanLength inQuotes w)).head? = (w.drop (spanLength inQuotes w)).head? := by
        rw [List.drop_append_of_le_length (Nat.le_of_lt hless), List.head?_append, List.head?_drop,
          List.getElem?_eq_getElem hless]
        rfl
      have htake : ('`' :: (w ++ rest)).take (spanLength inQuotes w + 2) = ('`' :: w).take (spanLength inQuotes w + 2) := by
        rw [← List.cons_append, List.take_append_of_le_length (by rw [List.length_cons]; omega)]
      simp only [hspan, hhead, htake]
  · rw [quotedName?_other hc, quotedName?_other hc]

theorem quotedName?_le {token : Token} {n : Nat} (h : quotedName? w = some (token, n)) : n ≤ w.length := by
  cases w with
  | nil => cases h
  | cons c w =>
    by_cases hc : c = '`'
    · subst hc
      rw [quotedName?_cons] at h
      simp only at h
      split at h
      · rename_i hq
        obtain ⟨-, rfl⟩ := Prod.mk.inj (Option.some.inj h)
        have hless : spanLength inQuotes w < w.length := by
          by_contra hn
          rw [List.drop_eq_nil_of_le (Nat.le_of_not_lt hn)] at hq
          cases hq.2
        rw [List.length_cons]
        omega
      · cases h
    · rw [quotedName?_other hc] at h
      cases h

theorem mark?_append (h : Detached rest) (hw : w ≠ []) : mark? (w ++ rest) = mark? w := by
  have hmarks : ∀ mark ∈ longMarks, mark.toList.length = 2 ∧
      ∀ d ∈ mark.toList, isBlank d = false ∧ d ≠ ')' ∧ d ≠ ']' := by decide
  obtain ⟨c, w, rfl⟩ := List.exists_cons_of_ne_nil hw
  have hfront : ∀ mark ∈ longMarks, mark.toList.isPrefixOf (c :: (w ++ rest)) = mark.toList.isPrefixOf (c :: w) := by
    intro mark hm
    obtain ⟨htwo, hall⟩ := hmarks mark hm
    match hl : mark.toList with
    | [a, b] =>
      rw [hl] at hall
      obtain ⟨hb, hd⟩ := hall b (by simp)
      have hsecond : ∀ text : List Char, [b].isPrefixOf text = (text.head? == some b) := by
        intro text
        cases text with
        | nil => rfl
        | cons d text => simp [List.isPrefixOf, Bool.beq_comm]
      have hhead : ((w ++ rest).head? == some b) = (w.head? == some b) := by
        rw [Bool.eq_iff_iff, beq_iff_eq, beq_iff_eq]
        exact h.head?_append hb hd w
      rw [List.isPrefixOf, List.isPrefixOf, hsecond, hsecond, hhead]
    | [] => simp [hl] at htwo
    | [_] => simp [hl] at htwo
    | _ :: _ :: _ :: _ => simp [hl] at htwo
  have hfind : (longMarks.find? fun mark => mark.toList.isPrefixOf (c :: (w ++ rest))) =
      longMarks.find? fun mark => mark.toList.isPrefixOf (c :: w) := List.find?_congr hfront
  rw [List.cons_append, mark?, mark?, hfind]

theorem mark?_le {token : Token} {n : Nat} (h : mark? w = some (token, n)) : n ≤ w.length := by
  have hmarks : ∀ mark ∈ longMarks, mark.toList.length = 2 := by decide
  unfold mark? at h
  split at h
  · rename_i mark hfind
    obtain ⟨-, rfl⟩ := Prod.mk.inj (Option.some.inj h)
    have hfront : mark.toList.isPrefixOf w = true :=
      List.find?_some (p := fun mark : String => mark.toList.isPrefixOf w) hfind
    have hle := (List.isPrefixOf_iff_prefix.mp hfront).length_le
    rwa [hmarks mark (List.mem_of_find?_eq_some hfind)] at hle
  · split at h
    · cases h
    · split at h
      · obtain ⟨-, rfl⟩ := Prod.mk.inj (Option.some.inj h)
        simp
      · cases h

/-! ## Tokens -/

/-- The first token of a text is the same with a detached text behind it. -/
theorem token?_append (h : Detached rest) (hw : w ≠ []) : token? (w ++ rest) = token? w := by
  have hname : rest.head?.any inName = false := h.stopsWord fun _ => id
  have hhead : (w ++ rest).head? = w.head? := by
    obtain ⟨c, w, rfl⟩ := List.exists_cons_of_ne_nil hw
    rfl
  unfold token?
  rw [bytesLength?_append h hw, textLength?_append h, number?_append h, spanLength_append hname, quotedName?_append h hw,
    mark?_append h hw, hhead]
  simp only [List.take_append_of_le_length (spanLength_le inName w)]
  cases hb : bytesLength? w with
  | some n =>
    simp only
    rw [List.take_append_of_le_length (bytesLength?_le hb)]
  | none =>
    cases ht : textLength? w with
    | some n =>
      simp only
      rw [List.take_append_of_le_length (textLength?_le ht)]
    | none => rfl

theorem token?_le {token : Token} {n : Nat} (h : token? w = some (token, n)) : n ≤ w.length := by
  unfold token? at h
  split at h
  · rename_i hb
    obtain ⟨-, rfl⟩ := Prod.mk.inj (Option.some.inj h)
    exact bytesLength?_le hb
  split at h
  · rename_i ht
    obtain ⟨-, rfl⟩ := Prod.mk.inj (Option.some.inj h)
    exact textLength?_le ht
  split at h
  · rename_i hn
    obtain rfl := Option.some.inj h
    exact number?_le hn
  split at h
  · obtain ⟨-, rfl⟩ := Prod.mk.inj (Option.some.inj h)
    exact spanLength_le inName w
  · rcases Option.or_eq_some_iff.mp h with h | ⟨-, h⟩
    · exact quotedName?_le h
    · exact mark?_le h

/-! ## Comments -/

/-- Whether a text ends inside of a comment, read as `lex` reads it. -/
def endsInComment (comment : Bool) (skip : Nat) : List Char → Bool
  | [] => comment
  | c :: rest =>
    if comment then endsInComment (c != '\n') 0 rest
    else
      match skip with
      | skip + 1 => endsInComment false skip rest
      | 0 =>
        if isSpace c then endsInComment false 0 rest
        else if c = '/' ∧ rest.head? = some '/' then endsInComment true 0 rest
        else
          match token? (c :: rest) with
          | none => false
          | some (_, length) => endsInComment false (length - 1) rest

def EndsInComment (text : List Char) : Prop := endsInComment false 0 text = true

instance (text : List Char) : Decidable (EndsInComment text) := inferInstanceAs (Decidable (_ = true))

theorem lex_zero (c : Char) (rest : List Char) : lex false 0 (c :: rest) =
    if isSpace c then lex false 0 rest
    else if c = '/' ∧ rest.head? = some '/' then lex true 0 rest
    else
      match token? (c :: rest) with
      | none => none
      | some (token, length) => (lex false (length - 1) rest).map (token :: ·) := rfl

theorem endsInComment_zero (c : Char) (rest : List Char) : endsInComment false 0 (c :: rest) =
    if isSpace c then endsInComment false 0 rest
    else if c = '/' ∧ rest.head? = some '/' then endsInComment true 0 rest
    else
      match token? (c :: rest) with
      | none => false
      | some (_, length) => endsInComment false (length - 1) rest := rfl

/-- Behind a text, tokens are those of the text behind it, or of what a comment leaves of that. -/
theorem lex_append (h : Detached rest) (comment : Bool) {skip : Nat} (hs : skip ≤ w.length) :
    lex comment skip (w ++ rest) = (lex comment skip w).bind fun tokens =>
      (lex (endsInComment comment skip w) 0 rest).map (tokens ++ ·) := by
  induction w generalizing comment skip with
  | nil =>
    obtain rfl : skip = 0 := Nat.le_zero.mp hs
    simp [lex, endsInComment]
  | cons c w ih =>
    have hslash := h.head?_append (d := '/') (by decide) (by decide) w
    have htoken := token?_append h (List.cons_ne_nil c w)
    rw [List.cons_append] at htoken ⊢
    cases comment with
    | true => exact ih _ (Nat.zero_le _)
    | false =>
      cases skip with
      | succ skip => exact ih false (Nat.le_of_succ_le_succ hs)
      | zero =>
        rw [endsInComment_zero, lex_zero, lex_zero, htoken]
        simp only [hslash]
        by_cases hspace : isSpace c = true
        · simp only [if_pos hspace]
          exact ih false (Nat.zero_le _)
        by_cases hcomment : c = '/' ∧ w.head? = some '/'
        · simp only [if_neg hspace, if_pos hcomment]
          exact ih true (Nat.zero_le _)
        simp only [if_neg hspace, if_neg hcomment]
        cases ht : token? (c :: w) with
        | none => rfl
        | some found =>
          obtain ⟨token, length⟩ := found
          have hle := token?_le ht
          rw [List.length_cons] at hle
          simp only
          rw [ih false (by omega)]
          cases lex false (length - 1) w with
          | none => rfl
          | some tokens => cases lex (endsInComment false (length - 1) w) 0 rest <;> simp

/-! ## Blanks -/

theorem mark?_blank {c : Char} (hb : isBlank c = true) (rest : List Char) : mark? (c :: rest) = none := by
  have hlong : ∀ mark ∈ longMarks, mark.toList ≠ [] ∧ ∀ d ∈ mark.toList, isBlank d = false := by decide
  have hshort : ∀ d ∈ shortMarks, isBlank d = false := by decide
  have hnone : (longMarks.find? fun mark => mark.toList.isPrefixOf (c :: rest)) = none := by
    refine List.find?_eq_none.mpr fun mark hm hfront => ?_
    obtain ⟨hn, hall⟩ := hlong mark hm
    obtain ⟨d, more, hd⟩ := List.exists_cons_of_ne_nil hn
    rw [hd] at hfront hall
    obtain ⟨tail, htail⟩ := List.isPrefixOf_iff_prefix.mp hfront
    obtain ⟨rfl, -⟩ := List.cons.inj htail
    cases hb.symm.trans (hall d (List.mem_cons_self ..))
  have hother : ¬shortMarks.contains c = true := by
    intro hm
    cases hb.symm.trans (hshort c (List.contains_iff_mem.mp hm))
  rw [mark?, hnone]
  exact if_neg hother

theorem token?_blank {c : Char} (hb : isBlank c = true) (rest : List Char) : token? (c :: rest) = none := by
  have hne : ∀ d, isBlank d = false → c ≠ d := by
    rintro d hd rfl
    cases hb.symm.trans hd
  have hword := Text.not_isWordChar_of_isBlank hb
  have hbytes : bytesLength? (c :: rest) = none := by
    rw [bytesLength?, if_neg (not_or.mpr ⟨hne 'b' (by decide), hne 'B' (by decide)⟩)]
  have htext : textLength? (c :: rest) = none := by
    have hquote : (c :: rest).head?.any isQuote = false := by
      simp [isQuote, hne '"' (by decide), hne '\'' (by decide)]
    rw [textLength?, if_neg (not_or.mpr ⟨hne 'r' (by decide), hne 'R' (by decide)⟩), quotedLength?_eq_none hquote]
  have hnumber : number? (c :: rest) = none := by
    have hdigit : c.isDigit = false := by
      cases hd : c.isDigit with
      | false => rfl
      | true => cases hword.symm.trans (isWordChar_of_isDigit hd)
    have hwhole : spanLength Char.isDigit (c :: rest) = 0 := by simp [spanLength, hdigit]
    have hpart : fractionLength (c :: rest) = 0 := by simp [fractionLength, hne '.' (by decide)]
    have hhex : hexLength (c :: rest) = 0 := by simp [hexLength, hne '0' (by decide)]
    simp [number?_eq, hwhole, hpart, hhex]
  have hname : startsName c = false := by
    cases hs : startsName c with
    | false => rfl
    | true => cases hword.symm.trans (Text.isWordChar_of_isWordStart hs)
  rw [token?, hbytes, htext, hnumber]
  simp [hname, quotedName?_other (hne '`' (by decide)), mark?_blank hb]

theorem lex_lead {lead : List Char} {tokens : List Token} (hl : ∀ c ∈ lead, isBlank c = true)
    (h : lex false 0 (lead ++ text) = some tokens) : lex false 0 text = some tokens := by
  induction lead with
  | nil => exact h
  | cons c lead ih =>
    have hb := hl c (List.mem_cons_self ..)
    have hslash : c ≠ '/' := Text.ne_of_class hb (by decide)
    rw [List.cons_append, lex_zero, token?_blank hb] at h
    split at h
    · exact ih (fun d hd => hl d (List.mem_cons_of_mem _ hd)) h
    · simp [hslash] at h

theorem detached_blanks {tail : List Char} (ht : ∀ c ∈ tail, isBlank c = true) : Detached tail where
  head c hc := Or.inl (ht c (List.mem_of_head? hc))
  quotes c hc := ⟨Text.ne_of_class (ht c hc) (by decide), Text.ne_of_class (ht c hc) (by decide),
    Text.ne_of_class (ht c hc) (by decide)⟩

theorem lex_blanks {tail : List Char} {comment : Bool} {tokens : List Token} (ht : ∀ c ∈ tail, isBlank c = true)
    (h : lex comment 0 tail = some tokens) : tokens = [] := by
  induction tail generalizing comment with
  | nil => exact (Option.some.inj h).symm
  | cons c tail ih =>
    have hrest : ∀ d ∈ tail, isBlank d = true := fun d hd => ht d (List.mem_cons_of_mem _ hd)
    cases comment with
    | true => exact ih hrest h
    | false =>
      have hblank : ∀ d ∈ [c], isBlank d = true := by simpa using ht c (List.mem_cons_self ..)
      exact ih hrest (lex_lead hblank h)

/-- The tokens of a rule are those of its text between outer blanks. -/
theorem tokens?_trim {tokens : List Token} (h : tokens? text = some tokens) : tokens? (trim text) = some tokens := by
  obtain ⟨lead, tail, htext, hlead, htail⟩ := Text.exists_trim text
  rw [htext] at h
  have hinner := lex_lead hlead h
  rw [lex_append (detached_blanks htail) false (Nat.zero_le _)] at hinner
  obtain ⟨found, hfound, hrest⟩ := Option.bind_eq_some_iff.mp hinner
  obtain ⟨more, hmore, rfl⟩ := Option.map_eq_some_iff.mp hrest
  rw [tokens?, hfound, lex_blanks htail hmore, List.append_nil]

end Rulebook.Expr
