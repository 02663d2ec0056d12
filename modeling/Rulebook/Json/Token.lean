/-
  Rulebook.Json.Token — JSON text cut into tokens.

  The text is given as symbols: its characters, with `none` for a byte that is none. A
  token that breaks off or cannot be read on is the last one. A string with an unpaired
  surrogate or a byte that is no character is whole, but only to be skipped; so is a
  number beyond the floats.
  - `scanText_length_le`, `scanNumber_length_le`, `scanIdent_length_le`: what follows a
    token is no longer than what it was cut from, so the cutting ends.
-/

import Rulebook.Json.Number

namespace Rulebook.Json

open Rulebook.Text (hexValue?)

/-- A character of the text, or a byte that belongs to none. -/
abbrev Symbol := Option Char

/-- A value without parts, strings apart. -/
inductive Scalar where
  | null
  | boolean (b : Bool)
  | number (n : Number)
  deriving DecidableEq

inductive Token where
  | openList
  | closeList
  | openObject
  | closeObject
  | comma
  | colon
  | text (content : Except Flaw String)
  | scalar (content : Except Flaw Scalar)
  | junk

def isSpace (c : Char) : Bool := c == ' ' || c == '\n' || c == '\t' || c == '\r'

def Symbol.size : Symbol → Nat
  | some c => c.utf8Size
  | none => 1

/-! ## Strings -/

def hex4 (text : List Symbol) : Except Fault Nat :=
  let four := text.take 4
  if (four.map Symbol.size).foldl (· + ·) 0 < 4 then .error (.breaksOff .string)
  else
    match four.mapM fun s => s.bind hexValue? with
    | some ds => .ok (ds.foldl (fun n d => 16 * n + d) 0)
    | none => .error .invalidEscape

def shortEscape? (c : Char) : Option Char :=
  if c = '"' ∨ c = '\\' ∨ c = '/' then some c
  else if c = 'b' then some '\x08'
  else if c = 'f' then some '\x0c'
  else if c = 'n' then some '\n'
  else if c = 'r' then some '\r'
  else if c = 't' then some '\t'
  else none

def isLeading (n : Nat) : Bool := 0xD800 ≤ n && n ≤ 0xDBFF

def isTrailing (n : Nat) : Bool := 0xDC00 ≤ n && n ≤ 0xDFFF

def paired (leading trailing : Nat) : Char := Char.ofNat (0x10000 + 0x400 * (leading - 0xD800) + (trailing - 0xDC00))

/-- What a `\u` escape with the number `n` stands for before `rest`: a character and what follows it, or a fault. -/
inductive Unit16 where
  | char (c : Char) (rest : List Symbol)
  | unpaired (fault : Fault)
  | broken (fault : Fault)

def Unit16.ofLeading (n : Nat) (rest : List Symbol) : Unit16 :=
  match rest with
  | [] => .broken (.breaksOff .string)
  | s :: after =>
    if s = some '\\' then
      match after with
      | [] => .broken (.breaksOff .string)
      | t :: digits =>
        if t = some 'u' then
          match hex4 digits with
          | .error fault => .broken fault
          | .ok m => if isTrailing m then .char (paired n m) (digits.drop 4) else .unpaired .loneSurrogate
        else .unpaired .openSurrogate
    else .unpaired .openSurrogate

def Unit16.ofNumber (n : Nat) (rest : List Symbol) : Unit16 :=
  if isTrailing n then .unpaired .loneSurrogate
  else if isLeading n then Unit16.ofLeading n rest
  else .char (Char.ofNat n) rest

theorem Unit16.ofLeading_length_le {n : Nat} {rest after : List Symbol} {c : Char}
    (h : Unit16.ofLeading n rest = .char c after) : after.length ≤ rest.length := by
  unfold Unit16.ofLeading at h
  repeat' split at h
  all_goals simp only [reduceCtorEq, Unit16.char.injEq] at h
  obtain ⟨-, rfl⟩ := h
  simp only [List.length_drop, List.length_cons]
  omega

theorem Unit16.ofNumber_length_le {n : Nat} {rest after : List Symbol} {c : Char}
    (h : Unit16.ofNumber n rest = .char c after) : after.length ≤ rest.length := by
  unfold Unit16.ofNumber at h
  split at h
  · cases h
  · split at h
    · exact Unit16.ofLeading_length_le h
    · simp only [Unit16.char.injEq] at h
      exact h.2 ▸ Nat.le_refl _

/-- The content of a string of which `done` is read in reverse; `flaw` is the first fault that only readers mind. -/
def scanText (done : List Char) (flaw : Option Fault) (stray : Bool) :
    List Symbol → Except Flaw String × List Symbol
  | [] => (.error ⟨flaw.getD (.breaksOff .string), some (.breaksOff .string)⟩, [])
  | none :: rest => scanText done flaw true rest
  | some c :: rest =>
    if c = '"' then
      match flaw, stray with
      | some fault, _ => (.error (.forgiven fault), rest)
      | none, true => (.error (.forgiven .invalidCodePoint), rest)
      | none, false => (.ok (String.ofList done.reverse), rest)
    else if c = '\\' then
      match rest with
      | [] => (.error ⟨flaw.getD (.breaksOff .string), some (.breaksOff .string)⟩, [])
      | some 'u' :: after =>
        match hex4 after with
        | .error fault => (.error ⟨flaw.getD fault, some fault⟩, [])
        | .ok n =>
          match _hu : Unit16.ofNumber n (after.drop 4) with
          | .char d more => scanText (d :: done) flaw stray more
          | .unpaired fault => scanText done (some (flaw.getD fault)) stray (after.drop 4)
          | .broken fault => (.error ⟨flaw.getD fault, some fault⟩, [])
      | e :: after =>
        match e.bind shortEscape? with
        | some d => scanText (d :: done) flaw stray after
        | none => (.error ⟨flaw.getD .invalidEscape, some .invalidEscape⟩, [])
    else if c.toNat < 0x20 then (.error ⟨flaw.getD .controlCharacter, some .controlCharacter⟩, [])
    else scanText (c :: done) flaw stray rest
termination_by text => text.length
decreasing_by
  · simp
  · have := Unit16.ofNumber_length_le _hu
    simp only [List.length_cons, List.length_drop] at *
    omega
  · simp only [List.length_cons, List.length_drop]
    omega
  · simp only [List.length_cons]
    omega
  · simp

theorem scanText_length_le (done : List Char) (flaw : Option Fault) (stray : Bool) (text : List Symbol) :
    (scanText done flaw stray text).2.length ≤ text.length := by
  fun_induction scanText done flaw stray text with
  | case1 => simp
  | case2 done flaw stray rest ih => simpa using Nat.le_succ_of_le ih
  | case3 => simp
  | case4 => simp
  | case5 => simp
  | case6 => simp
  | case7 => simp
  | case8 =>
    rename_i hu _ ih
    have := Unit16.ofNumber_length_le hu
    simp only [List.length_cons, List.length_drop] at *
    omega
  | case9 =>
    rename_i ih
    simp only [List.length_cons, List.length_drop] at *
    omega
  | case10 => simp
  | case11 =>
    rename_i ih
    simp only [List.length_cons] at *
    omega
  | case12 => simp
  | case13 => simp
  | case14 done flaw stray c rest hq hb hc ih => simpa using Nat.le_succ_of_le ih

/-! ## Numbers -/

def spanDigits : List Symbol → List Nat × List Symbol
  | some c :: rest =>
    if c.isDigit then
      let (ds, after) := spanDigits rest
      ((c.toNat - '0'.toNat) :: ds, after)
    else ([], some c :: rest)
  | text => ([], text)

theorem spanDigits_length_le (text : List Symbol) : (spanDigits text).2.length ≤ text.length := by
  fun_induction spanDigits text with
  | case1 c rest hc ds after he ih =>
    rw [he] at ih
    simpa using Nat.le_succ_of_le ih
  | case2 => simp
  | case3 => simp

/-- Where a digit must stand and none does: at the end of the text, or before something else. -/
def Flaw.noDigit : List Symbol → Flaw
  | [] => ⟨.breaksOff .value, some .invalidNumber⟩
  | _ => .stop .invalidNumber

def scanExponent (literal : Literal) (text : List Symbol) : Except Flaw Literal × List Symbol :=
  match text with
  | some c :: rest =>
    if c = 'e' ∨ c = 'E' then
      let (negative, rest) := match rest with
        | some '-' :: after => (true, after)
        | some '+' :: after => (false, after)
        | after => (false, after)
      match spanDigits rest with
      | ([], after) => (.error (.noDigit after), [])
      | (ds, after) => (.ok { literal with exponent := some (negative, ds) }, after)
    else (.ok literal, text)
  | _ => (.ok literal, text)

def scanFraction (literal : Literal) (text : List Symbol) : Except Flaw Literal × List Symbol :=
  match text with
  | some '.' :: rest =>
    match spanDigits rest with
    | ([], after) => (.error (.noDigit after), [])
    | (ds, after) => scanExponent { literal with fraction := ds } after
  | _ => scanExponent literal text

def scanWhole (negative : Bool) (text : List Symbol) : Except Flaw Literal × List Symbol :=
  match spanDigits text with
  | ([], after) => (.error (.noDigit after), [])
  | (0 :: _ :: _, _) => (.error (.stop .invalidNumber), [])
  | (ds, after) => scanFraction ⟨negative, ds, [], none⟩ after

def scanNumber (negative : Bool) (text : List Symbol) : Token × List Symbol :=
  match scanWhole negative text with
  | (.error flaw, rest) => (.scalar (.error flaw), rest)
  | (.ok literal, rest) =>
    match literal.number with
    | .ok n => (.scalar (.ok (.number n)), rest)
    | .error fault => (.scalar (.error (.forgiven fault)), rest)

theorem scanExponent_length_le (literal : Literal) (text : List Symbol) :
    (scanExponent literal text).2.length ≤ text.length := by
  unfold scanExponent
  split
  · rename_i c rest
    split
    · have hsign : ∀ p : Bool × List Symbol, p = (match rest with
          | some '-' :: after => (true, after)
          | some '+' :: after => (false, after)
          | after => (false, after)) → p.2.length ≤ rest.length := by
        intro p hp
        subst hp
        split <;> simp
      generalize hp : (match rest with
          | some '-' :: after => (true, after)
          | some '+' :: after => (false, after)
          | after => (false, after)) = p
      have h := hsign p hp.symm
      obtain ⟨negative, more⟩ := p
      simp only at h ⊢
      have hd := spanDigits_length_le more
      split
      · simp
      · rename_i he
        rw [he] at hd
        simp only [List.length_cons] at hd ⊢
        omega
    · exact Nat.le_refl _
  · exact Nat.le_refl _

theorem scanFraction_length_le (literal : Literal) (text : List Symbol) :
    (scanFraction literal text).2.length ≤ text.length := by
  unfold scanFraction
  split
  · rename_i rest
    have hd := spanDigits_length_le rest
    split
    · simp
    · rename_i he
      rw [he] at hd
      refine Nat.le_trans (scanExponent_length_le ..) ?_
      simp only [List.length_cons] at hd ⊢
      omega
  · exact scanExponent_length_le ..

theorem scanWhole_length_le (negative : Bool) (text : List Symbol) :
    (scanWhole negative text).2.length ≤ (spanDigits text).2.length := by
  unfold scanWhole
  split
  · simp
  · simp
  · rename_i he
    rw [he]
    exact scanFraction_length_le ..

theorem scanNumber_length_le (negative : Bool) (text : List Symbol) :
    (scanNumber negative text).2.length ≤ (spanDigits text).2.length := by
  have h := scanWhole_length_le negative text
  unfold scanNumber
  split
  · rename_i he
    rwa [he] at h
  · rename_i he
    rw [he] at h
    split <;> exact h

theorem spanDigits_cons_length_le {c : Char} (hc : c.isDigit = true) (rest : List Symbol) :
    (spanDigits (some c :: rest)).2.length ≤ rest.length := by
  rw [spanDigits, if_pos hc]
  exact spanDigits_length_le rest

/-! ## Words -/

/-- The rest of the words `null`, `true` and `false`. -/
def scanIdent (scalar : Scalar) (expected : List Char) (text : List Symbol) : Token × List Symbol :=
  match expected, text with
  | [], _ => (.scalar (.ok scalar), text)
  | _ :: _, [] => (.scalar (.error (.stop (.breaksOff .value))), [])
  | c :: more, s :: rest =>
    if s = some c then scanIdent scalar more rest else (.scalar (.error (.stop .expectedIdent)), [])

theorem scanIdent_length_le (scalar : Scalar) (expected : List Char) (text : List Symbol) :
    (scanIdent scalar expected text).2.length ≤ text.length := by
  fun_induction scanIdent scalar expected text with
  | case1 => exact Nat.le_refl _
  | case2 => exact Nat.le_refl _
  | case3 =>
    rename_i ih
    simpa using Nat.le_succ_of_le ih
  | case4 => simp

/-! ## Tokens -/

def Token.mark? (c : Char) : Option Token :=
  if c = '[' then some .openList
  else if c = ']' then some .closeList
  else if c = '\x7b' then some .openObject
  else if c = '\x7d' then some .closeObject
  else if c = ',' then some .comma
  else if c = ':' then some .colon
  else none

def Token.word (c : Char) (rest : List Symbol) : Token × List Symbol :=
  if c = 'n' then scanIdent .null ['u', 'l', 'l'] rest
  else if c = 't' then scanIdent (.boolean true) ['r', 'u', 'e'] rest
  else if c = 'f' then scanIdent (.boolean false) ['a', 'l', 's', 'e'] rest
  else (.junk, [])

/-- The token that a character which is no blank starts, and what follows the token. -/
def Token.next (c : Char) (rest : List Symbol) : Token × List Symbol :=
  match Token.mark? c with
  | some mark => (mark, rest)
  | none =>
    if c = '"' then
      let (content, after) := scanText [] none false rest
      (.text content, after)
    else if c = '-' then scanNumber true rest
    else if c.isDigit then scanNumber false (some c :: rest)
    else Token.word c rest

theorem Token.word_length_le (c : Char) (rest : List Symbol) : (Token.word c rest).2.length ≤ rest.length := by
  unfold Token.word
  split
  · exact scanIdent_length_le ..
  split
  · exact scanIdent_length_le ..
  split
  · exact scanIdent_length_le ..
  · exact Nat.zero_le _

theorem Token.next_length_le (c : Char) (rest : List Symbol) : (Token.next c rest).2.length ≤ rest.length := by
  unfold Token.next
  split
  · exact Nat.le_refl _
  split
  · exact scanText_length_le ..
  split
  · exact Nat.le_trans (scanNumber_length_le ..) (spanDigits_length_le _)
  split
  · rename_i hc
    exact Nat.le_trans (scanNumber_length_le ..) (spanDigits_cons_length_le hc rest)
  · exact Token.word_length_le ..

def tokens : List Symbol → List Token
  | [] => []
  | none :: _ => [.junk]
  | some c :: rest => if isSpace c then tokens rest else (Token.next c rest).1 :: tokens (Token.next c rest).2
termination_by text => text.length
decreasing_by
  · simp
  · simpa using Nat.lt_succ_of_le (Token.next_length_le c rest)

end Rulebook.Json
