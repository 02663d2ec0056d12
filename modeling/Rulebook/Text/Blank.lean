/-
  Rulebook.Text.Blank — blank characters, and the text around and between them.

  A character is blank when Unicode gives it the property White_Space: 25 characters,
  six of them ASCII. Trimming takes blanks off one end or both; `words` cuts a text at
  every run of blanks and keeps no empty word.
  - `takeWhile_append_skip`: skipping blanks loses only blanks.
  - `skip_length_le`: skipping never lengthens a text.
-/

namespace Rulebook.Text

/-- Whether a character has the Unicode property White_Space. -/
def isBlank (c : Char) : Bool :=
  let n := c.toNat
  (0x09 ≤ n && n ≤ 0x0D) || n == 0x20 || n == 0x85 || n == 0xA0 || n == 0x1680 ||
    (0x2000 ≤ n && n ≤ 0x200A) || n == 0x2028 || n == 0x2029 || n == 0x202F || n == 0x205F || n == 0x3000

def skipBlank (text : List Char) : List Char := text.dropWhile isBlank

def trimEnd (text : List Char) : List Char := (skipBlank text.reverse).reverse

def trim (text : List Char) : List Char := trimEnd (skipBlank text)

def firstInk (text : List Char) : Option Char := (skipBlank text).head?

/-- The words of a text that reads on from the word `current`, which is kept in reverse. -/
def wordsFrom (current : List Char) : List Char → List (List Char)
  | [] => if current.isEmpty then [] else [current.reverse]
  | c :: rest =>
    if isBlank c then
      if current.isEmpty then wordsFrom [] rest else current.reverse :: wordsFrom [] rest
    else wordsFrom (c :: current) rest

/-- The longest stretches of a text that hold no blank, in order. -/
def words (text : List Char) : List (List Char) := wordsFrom [] text

theorem takeWhile_append_skip (text : List Char) : text.takeWhile isBlank ++ skipBlank text = text :=
  List.takeWhile_append_dropWhile

theorem skip_length_le (text : List Char) : (skipBlank text).length ≤ text.length :=
  (List.dropWhile_suffix isBlank).length_le

end Rulebook.Text
