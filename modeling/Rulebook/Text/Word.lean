/-
  Rulebook.Text.Word — the characters of a name in rule text.

  Names are ASCII: a letter or an underscore starts one, and digits may follow. A
  character of any other alphabet ends a name and starts none.
-/

namespace Rulebook.Text

/-- Whether a character may start a name: an ASCII letter or an underscore. -/
def isWordStart (c : Char) : Bool := c.isAlpha || c == '_'

/-- Whether a character may stand inside a name: an ASCII letter, a digit or an underscore. -/
def isWordChar (c : Char) : Bool := c.isAlphanum || c == '_'

def leadingWord (text : List Char) : List Char := text.takeWhile isWordChar

def afterWord (text : List Char) : List Char := text.dropWhile isWordChar

theorem leadingWord_append_afterWord (text : List Char) : leadingWord text ++ afterWord text = text :=
  List.takeWhile_append_dropWhile

theorem isWordChar_of_isWordStart {c : Char} (h : isWordStart c = true) : isWordChar c = true := by
  simp only [isWordStart, isWordChar, Char.isAlphanum, Bool.or_eq_true] at *
  exact h.imp Or.inl id

end Rulebook.Text
