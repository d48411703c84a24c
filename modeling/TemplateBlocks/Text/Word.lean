import TemplateBlocks.Text.Basic
import TemplateBlocks.Text.WordRanges

/-!
# Words and names

Three classes of characters: word characters, whose runs are bounded by word
boundaries; the characters of a key, which are the ASCII letters, digits and `_`;
and the characters of a variable's name, which does not begin with a digit.
-/

namespace TemplateBlocks

def isKeyChar (c : Char) : Bool := c.isAlphanum || c == '_'

def isNameStart (c : Char) : Bool := c.isAlpha || c == '_'

theorem isKeyChar_of_isNameStart {c : Char} (h : isNameStart c = true) : isKeyChar c = true := by
  simp only [isNameStart, Bool.or_eq_true] at h
  simp only [isKeyChar, Char.isAlphanum, Bool.or_eq_true]
  exact h.imp Or.inl id

def isWordChar (c : Char) : Bool :=
  if c.toNat < 128 then isKeyChar c
  else wordRanges.any fun r => r.1 ≤ c.toNat && c.toNat ≤ r.2

theorem isWordChar_of_ascii {c : Char} (h : c.toNat < 128) : isWordChar c = isKeyChar c := by
  simp [isWordChar, h]

/-- Whether a word can begin after the character `before`, which is absent at the start of a text. -/
def wordMayStart (before : Option Char) : Bool := !before.any isWordChar

def wordEnds (rest : Text) : Bool := !rest.head?.any isWordChar

end TemplateBlocks
