/-
  Rulebook.Proofs.Utf8 — the bytes of a text are read as the text.

  Every character is written as the bytes that its leading byte announces, so these are
  read as one piece, whatever follows them (`next_encodeChar`).
  - `decode?_encode`, `symbols_encode`: what is written is read.
  - `length_le_length_encode`: no text has more characters than bytes.
-/

import Rulebook.Text.Utf8

namespace Rulebook.Text.Utf8

variable {bits size follow low high n v : Nat} {rest : List UInt8}

theorem toNat_byte (h : n < 256) : (UInt8.ofNat n).toNat = n := by
  rw [UInt8.toNat_ofNat']
  exact Nat.mod_eq_of_lt h

/-- A byte within the range that is announced adds six bits. -/
theorem extend_byte (hn : n < 256) (h : low ≤ n ∧ n ≤ high) :
    Piece.extend bits size (follow + 1) low high (UInt8.ofNat n :: rest) =
      Piece.extend (64 * bits + (n - 0x80)) (size + 1) follow 0x80 0xBF rest := by
  rw [Piece.extend, toNat_byte hn, if_pos h]

theorem next_lead (hn : n < 256) (h : Lead.ofByte? n = some ⟨bits, follow, low, high⟩) :
    Piece.next (UInt8.ofNat n) rest = Piece.extend bits 1 follow low high rest := by
  rw [Piece.next, toNat_byte hn, h]

theorem next_two (h : 0x7F < v) (h' : v ≤ 0x7FF) :
    Piece.next (UInt8.ofNat (v / 64 % 32 + 192)) (UInt8.ofNat (v % 64 + 128) :: rest) = (.char (Char.ofNat v), rest) := by
  have hlead : Lead.ofByte? (v / 64 % 32 + 192) = some ⟨v / 64 % 32 + 192 - 0xC0, 1, 0x80, 0xBF⟩ := by
    rw [Lead.ofByte?, if_neg (by omega), if_neg (by omega), if_pos (by omega)]
  have hbits : 64 * (v / 64 % 32 + 192 - 0xC0) + (v % 64 + 128 - 0x80) = v := by omega
  rw [next_lead (by omega) hlead, extend_byte (by omega) (by omega), Piece.extend, hbits]

theorem next_three (h : 0x7FF < v) (h' : v ≤ 0xFFFF) (hv : v < 0xD800 ∨ 0xDFFF < v) :
    Piece.next (UInt8.ofNat (v / 4096 % 16 + 224)) (UInt8.ofNat (v / 64 % 64 + 128) :: UInt8.ofNat (v % 64 + 128) :: rest) =
      (.char (Char.ofNat v), rest) := by
  obtain ⟨low, high, hlead, hlow, hhigh⟩ : ∃ low high,
      Lead.ofByte? (v / 4096 % 16 + 224) = some ⟨v / 4096 % 16 + 224 - 0xE0, 2, low, high⟩ ∧
        low ≤ v / 64 % 64 + 128 ∧ v / 64 % 64 + 128 ≤ high := by
    unfold Lead.ofByte?
    rw [if_neg (by omega), if_neg (by omega), if_neg (by omega)]
    by_cases hfirst : v / 4096 % 16 + 224 = 0xE0
    · rw [if_pos hfirst, hfirst]
      exact ⟨0xA0, 0xBF, rfl, by omega, by omega⟩
    by_cases hlast : v / 4096 % 16 + 224 = 0xED
    · rw [if_neg hfirst, if_pos hlast, hlast]
      exact ⟨0x80, 0x9F, rfl, by omega, by omega⟩
    · rw [if_neg hfirst, if_neg hlast, if_pos (by omega)]
      exact ⟨0x80, 0xBF, rfl, by omega, by omega⟩
  have hbits : 64 * (64 * (v / 4096 % 16 + 224 - 0xE0) + (v / 64 % 64 + 128 - 0x80)) + (v % 64 + 128 - 0x80) = v := by
    omega
  rw [next_lead (by omega) hlead, extend_byte (by omega) ⟨hlow, hhigh⟩, extend_byte (by omega) (by omega), Piece.extend,
    hbits]

theorem next_four (h : 0xFFFF < v) (h' : v < 0x110000) :
    Piece.next (UInt8.ofNat (v / 262144 % 8 + 240)) (UInt8.ofNat (v / 4096 % 64 + 128) ::
      UInt8.ofNat (v / 64 % 64 + 128) :: UInt8.ofNat (v % 64 + 128) :: rest) = (.char (Char.ofNat v), rest) := by
  obtain ⟨low, high, hlead, hlow, hhigh⟩ : ∃ low high,
      Lead.ofByte? (v / 262144 % 8 + 240) = some ⟨v / 262144 % 8 + 240 - 0xF0, 3, low, high⟩ ∧
        low ≤ v / 4096 % 64 + 128 ∧ v / 4096 % 64 + 128 ≤ high := by
    unfold Lead.ofByte?
    rw [if_neg (by omega), if_neg (by omega), if_neg (by omega), if_neg (by omega), if_neg (by omega), if_neg (by omega)]
    by_cases hfirst : v / 262144 % 8 + 240 = 0xF0
    · rw [if_pos hfirst, hfirst]
      exact ⟨0x90, 0xBF, rfl, by omega, by omega⟩
    by_cases hlast : v / 262144 % 8 + 240 < 0xF4
    · rw [if_neg hfirst, if_pos hlast]
      exact ⟨0x80, 0xBF, rfl, by omega, by omega⟩
    · have hfour : v / 262144 % 8 + 240 = 0xF4 := by omega
      rw [if_neg hfirst, if_neg hlast, if_pos hfour, hfour]
      exact ⟨0x80, 0x8F, rfl, by omega, by omega⟩
  have hbits : 64 * (64 * (64 * (v / 262144 % 8 + 240 - 0xF0) + (v / 4096 % 64 + 128 - 0x80)) +
      (v / 64 % 64 + 128 - 0x80)) + (v % 64 + 128 - 0x80) = v := by omega
  rw [next_lead (by omega) hlead, extend_byte (by omega) ⟨hlow, hhigh⟩, extend_byte (by omega) (by omega),
    extend_byte (by omega) (by omega), Piece.extend, hbits]

/-- The bytes of a character are read as the character, whatever follows them. -/
theorem next_encodeChar (c : Char) (rest : List UInt8) :
    ∃ b more, String.utf8EncodeChar c = b :: more ∧ Piece.next b (more ++ rest) = (.char c, rest) := by
  have hc : Char.ofNat c.val.toNat = c := Char.ofNat_toNat c
  have hv : c.val.toNat < 0xD800 ∨ 0xDFFF < c.val.toNat ∧ c.val.toNat < 0x110000 := c.valid
  unfold String.utf8EncodeChar
  generalize c.val.toNat = v at hc hv
  subst hc
  by_cases h1 : v ≤ 0x7F
  · have hlead : Lead.ofByte? v = some ⟨v, 0, 0x80, 0xBF⟩ := by rw [Lead.ofByte?, if_pos (by omega)]
    refine ⟨UInt8.ofNat v, [], by rw [if_pos h1], ?_⟩
    rw [next_lead (by omega) hlead, Piece.extend]
    rfl
  by_cases h2 : v ≤ 0x7FF
  · exact ⟨_, _, by rw [if_neg h1, if_pos h2], next_two (Nat.lt_of_not_le h1) h2⟩
  by_cases h3 : v ≤ 0xFFFF
  · exact ⟨_, _, by rw [if_neg h1, if_neg h2, if_pos h3], next_three (Nat.lt_of_not_le h2) h3 (by omega)⟩
  · exact ⟨_, _, by rw [if_neg h1, if_neg h2, if_neg h3], next_four (Nat.lt_of_not_le h3) (by omega)⟩

theorem pieces_encode (text : List Char) : pieces (encode text) = text.map .char := by
  induction text with
  | nil => simp [encode, pieces]
  | cons c text ih =>
    obtain ⟨b, more, hbytes, hnext⟩ := next_encodeChar c (encode text)
    have hcons : encode (c :: text) = b :: (more ++ encode text) := by
      rw [encode, List.flatMap_cons, hbytes]
      rfl
    rw [hcons, pieces, hnext, ih, List.map_cons]

/-- The bytes of a text are well formed, and are read as the text. -/
theorem decode?_encode (text : List Char) : decode? (encode text) = some text := by
  rw [decode?, pieces_encode]
  induction text with
  | nil => rfl
  | cons c text ih => simp [ih]

/-- Read as symbols, they are all characters. -/
theorem symbols_encode (text : List Char) : symbols (encode text) = text.map some := by
  rw [symbols, pieces_encode]
  induction text with
  | nil => rfl
  | cons c text ih =>
    simp only [List.map_cons, List.flatMap_cons, ih, Piece.symbols]
    rfl

theorem length_le_length_encode (text : List Char) : text.length ≤ (encode text).length := by
  induction text with
  | nil => exact Nat.le_refl 0
  | cons c text ih =>
    have hpos : 0 < (String.utf8EncodeChar c).length := by
      rw [String.length_utf8EncodeChar]
      exact c.utf8Size_pos
    rw [encode, List.flatMap_cons, List.length_append, List.length_cons, ← encode]
    omega

end Rulebook.Text.Utf8
