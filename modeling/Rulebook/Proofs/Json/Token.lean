/-
  Rulebook.Proofs.Json.Token — what is written is cut into the tokens that it was written for.

  A string is read up to its closing quote and gives the characters that were written,
  whatever they are, for each is either copied or escaped (`scanText_escapedChar`). A
  number is read as far as its digits go, so what follows it must not be a part of a
  number (`EndsNumber`); the integer that is gathered from the digits of a numeral is the
  one that was written, and only the kind of it may change (`reread`).
  - `tokens_written`: a string as it is written is one token.
  - `readsBack_int`, `readsBack_uint`: so is an integer of 64 bits.
  - `tokens_newLine`: the layout between two tokens is no token.
-/

import Rulebook.Json.Form
import Rulebook.Proofs.Text

namespace Rulebook.Json

open Rulebook.Text (numeral decimal magnitude wordMax digitsPadded)

/-! ## One token after the other -/

theorem tokens_cons {c : Char} (h : isSpace c = false) (rest : List Symbol) :
    tokens (some c :: rest) = (Token.next c rest).1 :: tokens (Token.next c rest).2 := by
  rw [tokens, if_neg (by simp [h])]

theorem tokens_space {c : Char} (h : isSpace c = true) (rest : List Symbol) :
    tokens (some c :: rest) = tokens rest := by
  rw [tokens, if_pos h]

theorem tokens_mark {c : Char} {mark : Token} (h : Token.mark? c = some mark) (hs : isSpace c = false)
    (rest : List Symbol) : tokens (some c :: rest) = mark :: tokens rest := by
  rw [tokens_cons hs]
  simp only [Token.next, h]

theorem tokens_newLine (depth : Nat) (rest : List Symbol) :
    tokens ((newLine depth).map some ++ rest) = tokens rest := by
  have hblanks : ∀ n, tokens ((List.replicate n ' ').map some ++ rest) = tokens rest := by
    intro n
    induction n with
    | zero => rfl
    | succ n ih =>
      simp only [List.replicate_succ, List.map_cons, List.cons_append]
      rw [tokens_space (by decide), ih]
  simp only [newLine, List.map_cons, List.cons_append]
  rw [tokens_space (by decide), hblanks]

/-! ## Strings -/

theorem hex4_append {four : List Symbol} (h : four.length = 4) (rest : List Symbol) :
    hex4 (four ++ rest) = hex4 four := by
  unfold hex4
  rw [List.take_append_of_le_length (by omega)]

theorem hex4_digitsPadded {n : Nat} (h : n < 0x20) : hex4 ((digitsPadded 16 4 n).map some) = .ok n := by
  have hall : ∀ m : Fin 0x20, (hex4 ((digitsPadded 16 4 m.val).map some)).toOption = some m.val := by decide
  have hn := hall ⟨n, h⟩
  cases he : hex4 ((digitsPadded 16 4 n).map some) with
  | error fault => simp [he, Except.toOption] at hn
  | ok m =>
    obtain rfl : m = n := by simpa [he, Except.toOption] using hn
    rfl

theorem length_digitsPadded {n : Nat} (h : n < 0x20) : (digitsPadded 16 4 n).length = 4 := by
  have hall : ∀ m : Fin 0x20, (digitsPadded 16 4 m.val).length = 4 := by decide
  exact hall ⟨n, h⟩

theorem scanText_short (done : List Char) {e d : Char} (he : shortEscape? e = some d) (rest : List Symbol) :
    scanText done none false (some '\\' :: some e :: rest) = scanText (d :: done) none false rest := by
  have hu : e ≠ 'u' := by
    rintro rfl
    simp [shortEscape?] at he
  rw [scanText.eq_def]
  simp [hu, he]

theorem scanText_code (done : List Char) {c : Char} (hc : c.toNat < 0x20) (rest : List Symbol) :
    scanText done none false (some '\\' :: some 'u' :: ((digitsPadded 16 4 c.toNat).map some ++ rest)) =
      scanText (c :: done) none false rest := by
  have hlen : ((digitsPadded 16 4 c.toNat).map some).length = 4 := by
    rw [List.length_map]
    exact length_digitsPadded hc
  have hnumber : Unit16.ofNumber c.toNat rest = .char c rest := by
    have ht : isTrailing c.toNat = false := by simp [isTrailing]; omega
    have hl : isLeading c.toNat = false := by simp [isLeading]; omega
    simp [Unit16.ofNumber, ht, hl]
  have hdrop : ((digitsPadded 16 4 c.toNat).map some ++ rest).drop 4 = rest := List.drop_left' hlen
  rw [scanText.eq_def]
  simp only [Char.reduceEq, if_false, if_true]
  rw [hex4_append hlen, hex4_digitsPadded hc]
  simp only
  split
  · rename_i d more hd
    rw [hdrop, hnumber] at hd
    cases hd
    rfl
  · rename_i fault hd
    rw [hdrop, hnumber] at hd
    cases hd
  · rename_i fault hd
    rw [hdrop, hnumber] at hd
    cases hd

theorem scanText_escapedChar (done : List Char) (c : Char) (rest : List Symbol) :
    scanText done none false ((escapedChar c).map some ++ rest) = scanText (c :: done) none false rest := by
  unfold escapedChar
  split
  · subst c
    exact scanText_short done (by decide) rest
  split
  · subst c
    exact scanText_short done (by decide) rest
  split
  · subst c
    exact scanText_short done (by decide) rest
  split
  · subst c
    exact scanText_short done (by decide) rest
  split
  · subst c
    exact scanText_short done (by decide) rest
  split
  · subst c
    exact scanText_short done (by decide) rest
  split
  · subst c
    exact scanText_short done (by decide) rest
  split
  · rename_i hc
    exact scanText_code done hc rest
  · rename_i hq hb _ _ _ _ _ hc
    simp only [List.map_cons, List.map_nil, List.cons_append, List.nil_append]
    rw [scanText.eq_def]
    simp [hq, hb, hc]

theorem scanText_escaped (done text : List Char) (rest : List Symbol) :
    scanText done none false ((text.flatMap escapedChar).map some ++ some '"' :: rest) =
      (.ok (String.ofList (done.reverse ++ text)), rest) := by
  induction text generalizing done with
  | nil =>
    simp only [List.flatMap_nil, List.map_nil, List.nil_append, List.append_nil]
    rw [scanText.eq_def]
    simp
  | cons c text ih =>
    simp only [List.flatMap_cons, List.map_append, List.append_assoc]
    rw [scanText_escapedChar, ih]
    simp

theorem tokens_written (text : List Char) (rest : List Symbol) :
    tokens ((written text).map some ++ rest) = .text (.ok (String.ofList text)) :: tokens rest := by
  have hscan := scanText_escaped [] text rest
  simp only [written, List.map_cons, List.map_append, List.map_nil, List.cons_append, List.append_assoc,
    List.nil_append]
  rw [tokens_cons (by decide)]
  simp only [Token.next, show Token.mark? '"' = none by decide, if_true, hscan, List.reverse_nil, List.nil_append]

/-! ## Numbers -/

def EndsNumber (rest : List Symbol) : Prop :=
  ∀ c, rest.head? = some (some c) → c.isDigit = false ∧ c ≠ '.' ∧ c ≠ 'e' ∧ c ≠ 'E'

def digitValues (text : List Char) : List Nat := text.map fun c => c.toNat - '0'.toNat

theorem EndsNumber.nil : EndsNumber [] := by
  intro c h
  cases h

theorem EndsNumber.cons {c : Char} (h : c.isDigit = false ∧ c ≠ '.' ∧ c ≠ 'e' ∧ c ≠ 'E') (rest : List Symbol) :
    EndsNumber (some c :: rest) := by
  intro d hd
  obtain rfl : c = d := by simpa using hd
  exact h

theorem spanDigits_append {text : List Char} (ht : ∀ c ∈ text, c.isDigit = true) {rest : List Symbol}
    (hr : EndsNumber rest) : spanDigits (text.map some ++ rest) = (digitValues text, rest) := by
  induction text with
  | nil =>
    match rest, hr with
    | [], _ => rfl
    | none :: _, _ => rfl
    | some c :: rest, hr =>
      have hc : c.isDigit = false := (hr c rfl).1
      simp [spanDigits, hc, digitValues]
  | cons c text ih =>
    have hc : c.isDigit = true := ht c (by simp)
    simp only [List.map_cons, List.cons_append, spanDigits, hc, if_true]
    rw [ih fun d hd => ht d (by simp [hd])]
    rfl

theorem head?_numeral {n : Nat} (h : 0 < n) : (numeral n).head? ≠ some '0' := by
  induction n using Nat.strongRecOn with
  | _ n ih =>
    by_cases hn : n < 10
    · have hall : ∀ m : Fin 10, 0 < m.val → (numeral m.val).head? ≠ some '0' := by decide
      exact hall ⟨n, hn⟩ h
    · have hrec := ih (n / 10) (by omega) (by omega)
      unfold numeral at hrec ⊢
      rw [Nat.toDigits_of_base_le (by omega) (by omega), List.head?_append]
      cases hd : (Nat.toDigits 10 (n / 10)).head? with
      | none => exact absurd (List.head?_eq_none_iff.mp hd) Nat.toDigits_ne_nil
      | some c =>
        rw [hd] at hrec
        simpa using hrec

theorem eq_zero_of_digitValue {c : Char} (hc : c.isDigit = true) (h : c.toNat - '0'.toNat = 0) : c = '0' := by
  have hle : c.toNat ≤ 48 := by
    have : '0'.toNat = 48 := rfl
    omega
  have hge : 48 ≤ c.toNat := by
    simp only [Char.isDigit, Bool.and_eq_true, decide_eq_true_eq] at hc
    exact hc.1
  have heq : c.toNat = '0'.toNat := Nat.le_antisymm hle hge
  rw [← Char.ofNat_toNat c, heq]
  rfl

theorem digitValues_numeral_ne (n second : Nat) (more : List Nat) :
    digitValues (numeral n) ≠ 0 :: second :: more := by
  intro h
  by_cases hn : n = 0
  · subst n
    cases h
  · have hhead := head?_numeral (Nat.pos_of_ne_zero hn)
    have hdigits : ∀ c ∈ numeral n, c.isDigit = true := fun c hc => Text.isDigit_of_mem_numeral hc
    generalize numeral n = text at h hhead hdigits
    cases text with
    | nil => cases h
    | cons c rest =>
      have hc : c.toNat - '0'.toNat = 0 := (List.cons.inj h).1
      rw [eq_zero_of_digitValue (hdigits c (by simp)) hc] at hhead
      exact hhead rfl

/-- Digits that are read as a number within 64 bits are gathered to it. -/
theorem gather_digitValues {beyond : Text.DigitFault} {n m : Nat} {text : List Char}
    (h : magnitude wordMax beyond n text = .ok m) : gather n (digitValues text) = (m, []) := by
  induction text generalizing n with
  | nil =>
    cases h
    rfl
  | cons c rest ih =>
    rw [magnitude] at h
    split at h
    · simp only at h
      split at h
      · cases h
      · rename_i hle
        have hrest := ih h
        simp only [digitValues, List.map_cons, gather]
        rw [if_neg hle]
        exact hrest
    · cases h

theorem gather_numeral {n : Nat} (h : n ≤ wordMax) : gather 0 (digitValues (numeral n)) = (n, []) :=
  gather_digitValues (Text.magnitude_numeral wordMax n .tooLarge h)

def numeralLiteral (negative : Bool) (n : Nat) : Literal := ⟨negative, digitValues (numeral n), [], none⟩

theorem scanExponent_ends (literal : Literal) {rest : List Symbol} (hr : EndsNumber rest) :
    scanExponent literal rest = (.ok literal, rest) := by
  match rest, hr with
  | [], _ => rfl
  | none :: _, _ => rfl
  | some c :: rest, hr =>
    obtain ⟨-, -, he, hE⟩ := hr c rfl
    have hne : ¬ (c = 'e' ∨ c = 'E') := by
      rintro (h | h)
      · exact he h
      · exact hE h
    simp only [scanExponent, hne, if_false]

theorem scanFraction_ends (literal : Literal) {rest : List Symbol} (hr : EndsNumber rest) :
    scanFraction literal rest = (.ok literal, rest) := by
  unfold scanFraction
  split
  · exact absurd rfl (hr '.' rfl).2.1
  · exact scanExponent_ends literal hr

theorem scanWhole_numeral (negative : Bool) (n : Nat) {rest : List Symbol} (hr : EndsNumber rest) :
    scanWhole negative ((numeral n).map some ++ rest) = (.ok (numeralLiteral negative n), rest) := by
  have hdigits : ∀ c ∈ numeral n, c.isDigit = true := fun c hc => Text.isDigit_of_mem_numeral hc
  have hspan := spanDigits_append hdigits hr
  unfold scanWhole
  rw [hspan]
  split
  · rename_i after h
    have hnil : digitValues (numeral n) = [] := (Prod.mk.inj h).1
    exact absurd (List.map_eq_nil_iff.mp hnil) (Text.numeral_ne_nil n)
  · rename_i second more after h
    exact absurd (Prod.mk.inj h).1 (digitValues_numeral_ne n second more)
  · rename_i ds after _ _ h
    obtain ⟨rfl, rfl⟩ := Prod.mk.inj h
    exact scanFraction_ends _ hr

theorem next_digit {c : Char} (hc : c.isDigit = true) (rest : List Symbol) :
    isSpace c = false ∧ Token.next c rest = scanNumber false (some c :: rest) := by
  have hne : ∀ d : Char, d.isDigit = false → c ≠ d := fun d hd => Text.ne_of_class hc hd
  have hmark : Token.mark? c = none := by
    simp [Token.mark?, hne '[' (by decide), hne ']' (by decide), hne '\x7b' (by decide), hne '\x7d' (by decide),
      hne ',' (by decide), hne ':' (by decide)]
  constructor
  · simp [isSpace, hne ' ' (by decide), hne '\n' (by decide), hne '\t' (by decide), hne '\r' (by decide)]
  · simp [Token.next, hmark, hne '"' (by decide), hne '-' (by decide), hc]

theorem scanNumber_numeral {negative : Bool} {n : Nat} {number : Number}
    (h : (numeralLiteral negative n).number = .ok number) {rest : List Symbol} (hr : EndsNumber rest) :
    scanNumber negative ((numeral n).map some ++ rest) = (.scalar (.ok (.number number)), rest) := by
  unfold scanNumber
  rw [scanWhole_numeral negative n hr]
  simp only [h]

theorem tokens_numeral {n : Nat} {number : Number} (h : (numeralLiteral false n).number = .ok number)
    {rest : List Symbol} (hr : EndsNumber rest) :
    tokens ((numeral n).map some ++ rest) = .scalar (.ok (.number number)) :: tokens rest := by
  have hscan := scanNumber_numeral h hr
  cases hn : numeral n with
  | nil => exact absurd hn (Text.numeral_ne_nil n)
  | cons c text =>
    have hd : c.isDigit = true := Text.isDigit_of_mem_numeral (n := n) (by simp [hn])
    obtain ⟨hspace, hnext⟩ := next_digit hd (text.map some ++ rest)
    rw [hn] at hscan
    simp only [List.map_cons, List.cons_append] at hscan ⊢
    rw [tokens_cons hspace, hnext, hscan]

theorem tokens_minus_numeral {n : Nat} {number : Number} (h : (numeralLiteral true n).number = .ok number)
    {rest : List Symbol} (hr : EndsNumber rest) :
    tokens (some '-' :: ((numeral n).map some ++ rest)) = .scalar (.ok (.number number)) :: tokens rest := by
  have hnext : Token.next '-' ((numeral n).map some ++ rest) = scanNumber true ((numeral n).map some ++ rest) := by
    simp [Token.next, show Token.mark? '-' = none by decide]
  rw [tokens_cons (by decide), hnext, scanNumber_numeral h hr]

/-- What a number is read as where it has been written: a whole number is unsigned only if it must be. -/
def reread : Number → Scalar
  | .int n => .number (.int n)
  | .uint n => .number (if n.toNat ≤ 9223372036854775807 then .int (Int64.ofNat n.toNat) else .uint n)
  | .float x => if x.isNaN || x.isInf then .null else .number (.float x)

/-- A number that is read again where it has been written. -/
def ReadsBack (n : Number) : Prop :=
  ∀ rest, EndsNumber rest → tokens ((writtenNumber n).map some ++ rest) = .scalar (.ok (reread n)) :: tokens rest

theorem readsBack_uint (n : UInt64) : ReadsBack (.uint n) := by
  intro rest hr
  have hle : n.toNat ≤ wordMax := by
    have := n.toNat_lt
    simp only [wordMax]
    omega
  refine tokens_numeral ?_ hr
  unfold Literal.number
  simp only [numeralLiteral, gather_numeral hle, Bool.false_eq_true, if_false]
  split
  · rfl
  · rw [UInt64.ofNat_toNat]

theorem readsBack_int (n : Int64) : ReadsBack (.int n) := by
  intro rest hr
  have hlow := n.le_toInt
  have hhigh := n.toInt_lt
  have hle : n.toInt.natAbs ≤ wordMax := by
    simp only [wordMax]
    omega
  unfold writtenNumber decimal reread
  by_cases hneg : n.toInt < 0
  · have hnumber : (numeralLiteral true n.toInt.natAbs).number = .ok (.int n) := by
      have hrange : 0 < n.toInt.natAbs ∧ n.toInt.natAbs ≤ 9223372036854775808 := by omega
      have hvalue : -(n.toInt.natAbs : Int) = n.toInt := by omega
      unfold Literal.number
      simp only [numeralLiteral, gather_numeral hle, if_true]
      rw [if_pos hrange, hvalue, Int64.ofInt_toInt]
    simp only [hneg, if_true, List.map_cons, List.cons_append]
    exact tokens_minus_numeral hnumber hr
  · have hnumber : (numeralLiteral false n.toInt.natAbs).number = .ok (.int n) := by
      have hrange : n.toInt.natAbs ≤ 9223372036854775807 := by omega
      have hvalue : (n.toInt.natAbs : Int) = n.toInt := by omega
      unfold Literal.number
      simp only [numeralLiteral, gather_numeral hle, Bool.false_eq_true, if_false]
      rw [if_pos hrange, ← Int64.ofInt_eq_ofNat, hvalue, Int64.ofInt_toInt]
    simp only [hneg, if_false]
    exact tokens_numeral hnumber hr

end Rulebook.Json
