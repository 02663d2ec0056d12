/-
  Rulebook.Text.Digits — integers written in decimal, read within bounds.

  A text is read from the left and the first fault wins: no text at all, a sign alone
  or a character that is no digit, then the digit at which the number leaves its
  bounds. A signed number may start with one `+` or `-`, an unsigned one with one `+`.
  - `magnitude_numeral`: the decimal text of a number within the bound is read as it.
-/

namespace Rulebook.Text

inductive DigitFault where
  | empty
  | invalidDigit
  | tooLarge
  | tooSmall
  deriving DecidableEq, Repr

def DigitFault.message : DigitFault → String
  | .empty => "cannot parse integer from empty string"
  | .invalidDigit => "invalid digit found in string"
  | .tooLarge => "number too large to fit in target type"
  | .tooSmall => "number too small to fit in target type"

/-- Reads digits on from the number `n`; passing `limit` is the fault `beyond`. -/
def magnitude (limit : Nat) (beyond : DigitFault) (n : Nat) : List Char → Except DigitFault Nat
  | [] => .ok n
  | c :: rest =>
    if c.isDigit then
      let m := 10 * n + (c.toNat - '0'.toNat)
      if limit < m then .error beyond else magnitude limit beyond m rest
    else .error .invalidDigit

def readSigned (low high : Nat) : List Char → Except DigitFault Int
  | [] => .error .empty
  | ['+'] => .error .invalidDigit
  | ['-'] => .error .invalidDigit
  | '+' :: rest => (magnitude high .tooLarge 0 rest).map Int.ofNat
  | '-' :: rest => (magnitude low .tooSmall 0 rest).map fun n => -Int.ofNat n
  | text => (magnitude high .tooLarge 0 text).map Int.ofNat

def readUnsigned (high : Nat) : List Char → Except DigitFault Nat
  | [] => .error .empty
  | ['+'] => .error .invalidDigit
  | '+' :: rest => magnitude high .tooLarge 0 rest
  | text => magnitude high .tooLarge 0 text

def wordMax : Nat := 18446744073709551615

def readInt64 (text : List Char) : Except DigitFault Int :=
  readSigned 9223372036854775808 9223372036854775807 text

def readWord (text : List Char) : Except DigitFault Nat := readUnsigned wordMax text

def numeral (n : Nat) : List Char := Nat.toDigits 10 n

def decimal (n : Int) : List Char := if n < 0 then '-' :: numeral n.natAbs else numeral n.natAbs

/-- The digits of `n` in `base`, on at least `width` places. -/
def digitsPadded (base width n : Nat) : List Char :=
  let text := Nat.toDigits base n
  List.replicate (width - text.length) '0' ++ text

def hexValue? (c : Char) : Option Nat :=
  if c.isDigit then some (c.toNat - '0'.toNat)
  else if 'a' ≤ c ∧ c ≤ 'f' then some (c.toNat - 'a'.toNat + 10)
  else if 'A' ≤ c ∧ c ≤ 'F' then some (c.toNat - 'A'.toNat + 10)
  else none

/-- Whether a character is a digit in a base of up to 16. -/
def isDigitIn (base : Nat) (c : Char) : Bool :=
  match hexValue? c with
  | some d => d < base
  | none => false

def valueIn (base : Nat) (digits : List Char) : Nat :=
  digits.foldl (fun n c => base * n + (hexValue? c).getD 0) 0

/-- The number that hexadecimal digits write, read on from `n`. -/
def hexNumber? (n : Nat) : List Char → Option Nat
  | [] => some n
  | c :: rest => (hexValue? c).bind fun d => hexNumber? (16 * n + d) rest

theorem magnitude_append (limit : Nat) (beyond : DigitFault) (n : Nat) (xs ys : List Char) :
    magnitude limit beyond n (xs ++ ys) = (magnitude limit beyond n xs).bind fun m => magnitude limit beyond m ys := by
  induction xs generalizing n with
  | nil => rfl
  | cons c rest ih =>
    simp only [List.cons_append, magnitude]
    split
    · split
      · rfl
      · exact ih _
    · rfl

theorem magnitude_digit (limit n d : Nat) (beyond : DigitFault) (hd : d < 10) (h : 10 * n + d ≤ limit) :
    magnitude limit beyond n [d.digitChar] = .ok (10 * n + d) := by
  have hc : d.digitChar.isDigit = true := by
    have := Nat.isDigit_of_mem_toDigits (n := d) (c := d.digitChar) (b := 10) (by omega) (by omega)
      (by rw [Nat.toDigits_of_lt_base hd]; exact List.mem_singleton_self _)
    exact this
  have hv : d.digitChar.toNat - '0'.toNat = d := by
    have : ∀ e : Fin 10, (Nat.digitChar e.val).toNat - '0'.toNat = e.val := by decide
    exact this ⟨d, hd⟩
  simp only [magnitude, hc, hv, if_true]
  rw [if_neg (by omega)]

theorem magnitude_numeral (limit n : Nat) (beyond : DigitFault) (h : n ≤ limit) :
    magnitude limit beyond 0 (numeral n) = .ok n := by
  induction n using Nat.strongRecOn with
  | _ n ih =>
    unfold numeral at ih ⊢
    by_cases hn : n < 10
    · rw [Nat.toDigits_of_lt_base hn]
      simpa using magnitude_digit limit 0 n beyond hn (by omega)
    · rw [Nat.toDigits_of_base_le (by omega) (by omega), magnitude_append,
        ih (n / 10) (by omega) (by omega)]
      have := magnitude_digit limit (n / 10) (n % 10) beyond (by omega) (by omega)
      simp only [Except.bind, this]
      congr 1
      omega

end Rulebook.Text
