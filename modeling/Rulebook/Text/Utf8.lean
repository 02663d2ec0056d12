/-
  Rulebook.Text.Utf8 — bytes as UTF-8 text.

  A byte stream is cut into pieces: a character where its bytes are well formed, and
  otherwise a stray piece, the longest run of bytes that some character could start
  with (one byte at least). So bytes that are no text still have one reading:
  - `decode?` takes well-formed text only;
  - `lossy` writes U+FFFD for each stray piece;
  - `symbols` keeps the place of every stray byte.
-/

namespace Rulebook.Text.Utf8

/-- A stretch of bytes: one character, or bytes that belong to none. -/
inductive Piece where
  | char (c : Char)
  | stray (size : Nat)
  deriving DecidableEq, Repr

/-- What a leading byte announces: its own bits, the number of bytes to follow, and the range of
    the first of them. -/
structure Lead where
  bits : Nat
  follow : Nat
  low : Nat := 0x80
  high : Nat := 0xBF

/-- The leading bytes of well-formed text; all others start no character. -/
def Lead.ofByte? (b : Nat) : Option Lead :=
  if b < 0x80 then some ⟨b, 0, 0x80, 0xBF⟩
  else if b < 0xC2 then none
  else if b < 0xE0 then some ⟨b - 0xC0, 1, 0x80, 0xBF⟩
  else if b = 0xE0 then some ⟨0, 2, 0xA0, 0xBF⟩
  else if b = 0xED then some ⟨0xD, 2, 0x80, 0x9F⟩
  else if b < 0xF0 then some ⟨b - 0xE0, 2, 0x80, 0xBF⟩
  else if b = 0xF0 then some ⟨0, 3, 0x90, 0xBF⟩
  else if b < 0xF4 then some ⟨b - 0xF0, 3, 0x80, 0xBF⟩
  else if b = 0xF4 then some ⟨4, 3, 0x80, 0x8F⟩
  else none

/-- Reads `follow` more bytes of a character of which `size` bytes with the bits `bits` are read. -/
def Piece.extend (bits size : Nat) : Nat → Nat → Nat → List UInt8 → Piece × List UInt8
  | 0, _, _, rest => (.char (Char.ofNat bits), rest)
  | _ + 1, _, _, [] => (.stray size, [])
  | follow + 1, low, high, b :: rest =>
    if low ≤ b.toNat ∧ b.toNat ≤ high then
      Piece.extend (64 * bits + (b.toNat - 0x80)) (size + 1) follow 0x80 0xBF rest
    else (.stray size, b :: rest)

theorem Piece.extend_length_le (bits size follow low high : Nat) (rest : List UInt8) :
    (Piece.extend bits size follow low high rest).2.length ≤ rest.length := by
  induction follow generalizing bits size low high rest with
  | zero => simp [Piece.extend]
  | succ follow ih =>
    cases rest with
    | nil => simp [Piece.extend]
    | cons b rest =>
      simp only [Piece.extend]
      split
      · exact Nat.le_succ_of_le (ih ..)
      · exact Nat.le_refl _

/-- The piece that a byte and those after it start with, and what follows the piece. -/
def Piece.next (b : UInt8) (rest : List UInt8) : Piece × List UInt8 :=
  match Lead.ofByte? b.toNat with
  | none => (.stray 1, rest)
  | some lead => Piece.extend lead.bits 1 lead.follow lead.low lead.high rest

theorem Piece.next_length_le (b : UInt8) (rest : List UInt8) : (Piece.next b rest).2.length ≤ rest.length := by
  unfold Piece.next
  split
  · exact Nat.le_refl _
  · exact Piece.extend_length_le ..

def pieces : List UInt8 → List Piece
  | [] => []
  | b :: rest => (Piece.next b rest).1 :: pieces (Piece.next b rest).2
termination_by bytes => bytes.length
decreasing_by simpa using Nat.lt_succ_of_le (Piece.next_length_le b rest)

/-- The characters of a piece, a stray byte being none. -/
def Piece.symbols : Piece → List (Option Char)
  | .char c => [some c]
  | .stray size => List.replicate size none

/-- The characters of a byte stream, with `none` for each stray byte. -/
def symbols (bytes : List UInt8) : List (Option Char) := (pieces bytes).flatMap Piece.symbols

/-- The text of a byte stream, with U+FFFD for each stray piece. -/
def lossy (bytes : List UInt8) : List Char :=
  (pieces bytes).map fun
    | .char c => c
    | .stray _ => '\uFFFD'

def decode? (bytes : List UInt8) : Option (List Char) :=
  (pieces bytes).mapM fun
    | .char c => some c
    | .stray _ => none

def encode (text : List Char) : List UInt8 := text.flatMap String.utf8EncodeChar

end Rulebook.Text.Utf8
