import TemplateBlocks.Text.Order

/-!
# Names and paths

Names and paths are bytes. They are taken for the characters that the bytes mean in UTF-8, and
where they mean none, the bytes are kept as they are, each stretch of them in the place of one
character.
-/

namespace TemplateBlocks

inductive OsChar
  | char (c : Char)
  /-- Bytes that mean no character. -/
  | stray (bytes : List UInt8)
  deriving DecidableEq, Repr

abbrev OsText := List OsChar

def OsChar.bytes : OsChar → List UInt8
  | char c => String.utf8EncodeChar c
  | stray bytes => bytes

/-- What stands for the character where the text is shown. -/
def OsChar.shown : OsChar → Char
  | char c => c
  | stray _ => '\uFFFD'

def Text.os (s : Text) : OsText := s.map .char

namespace OsText

def bytes (s : OsText) : List UInt8 := s.flatMap OsChar.bytes

def byteLength (s : OsText) : Nat := s.bytes.length

def before (s t : OsText) : Bool := dictionary (fun a b => a < b) s.bytes t.bytes

def shown (s : OsText) : Text := s.map OsChar.shown

/-- The text that the bytes mean, if all of them mean characters. -/
def text? : OsText → Option Text
  | [] => some []
  | .char c :: s => (text? s).map (c :: ·)
  | .stray _ :: _ => none

end OsText

end TemplateBlocks
