import TemplateBlocks.Text.Basic

/-!
# Lines of a text

A text is read as physical lines numbered from 1. Only the newline character separates
lines, so a carriage return stays with its line, and the empty text has no lines.

Ranges of lines are inclusive at both ends and are cut to the lines that exist. Byte spans
count UTF-8 bytes and leave out the newline behind the last line.
-/

namespace TemplateBlocks

def Text.lines : Text → List Text
  | [] => []
  | c :: s => Text.splitAt '\n' (c :: s)

theorem Text.join_lines (s : Text) : Text.join ['\n'] s.lines = s := by
  cases s with
  | nil => rfl
  | cons c s => exact Text.join_splitAt '\n' (c :: s)

/-- A range of byte offsets, its end exclusive. -/
structure Span where
  start : Nat
  stop : Nat
  deriving DecidableEq, Repr

namespace Lines

def numbered (ls : List Text) : List (Text × Nat) := ls.zipIdx 1

def line? (ls : List Text) (n : Nat) : Option Text := if n = 0 then none else ls[n - 1]?

def slice (ls : List Text) (start stop : Nat) : List Text := (ls.take stop).drop (start - 1)

def text (ls : List Text) (start stop : Nat) : Text := Text.join ['\n'] (slice ls start stop)

def offset : (ls : List Text) → (i : Nat) → Nat
  | _, 0 => 0
  | [], _ => 0
  | l :: ls, i + 1 => l.byteLength + 1 + offset ls i

/-- The bytes from the start of line `start` to the end of line `stop`.

A number before the first line means the first line, one behind the last line means the last,
and a range that ends before it starts covers its first line. -/
def span (ls : List Text) (start stop : Nat) : Span :=
  if ls.isEmpty then ⟨0, 0⟩
  else
    let first := min (start - 1) (ls.length - 1)
    let last := min (max stop (first + 1)) ls.length - 1
    ⟨offset ls first, offset ls last + (ls.getD last []).byteLength⟩

end Lines

end TemplateBlocks
