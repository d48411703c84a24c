import TemplateBlocks.Text.Blank
import TemplateBlocks.Text.Match
import TemplateBlocks.Text.Word

/-!
# Control structures

Control structures are written with a header that ends in a colon, such as `if (…):`, and
with a closing word such as `endif`. A continuation like `else:` or `elseif (…):` stays inside
the structure and counts as neither.

Headers and closing words are counted line by line. Lines are balanced when the number of
structures that are open after each line never falls below zero and is zero at the end.
-/

namespace TemplateBlocks.Control

def openWords : List Text := ["if".toList, "foreach".toList, "for".toList, "while".toList]

def closeWords : List Text :=
  ["endif".toList, "endforeach".toList, "endfor".toList, "endwhile".toList]

def afterHeaderEnd? (s : Text) : Option Text := do
  let s ← s.after? ")".toList
  let s ← s.dropBlanks.after? ":".toList
  return s.dropBlanks

/-- Reads a header: one of the words, a parenthesis, and everything on the line up to the first
closing parenthesis with a colon behind it. No word character may come before. -/
def header (before : Option Char) : Matcher Unit := fun s => do
  guard (wordMayStart before)
  let inner ← openWords.findSome? fun w => do
    let s ← s.after? w
    s.dropBlanks.after? "(".toList
  let (_, rest) ← inner.shortest0 (· != '\n') afterHeaderEnd?
  return ((), rest)

def closer (before : Option Char) : Matcher Unit := fun s => do
  guard (wordMayStart before)
  let rest ← closeWords.findSome? fun w => (s.after? w).filter wordEnds
  return ((), rest)

def opens (line : Text) : Nat := (line.occurrences header none).length

def closes (line : Text) : Nat := (line.occurrences closer none).length

def balancedFrom : Nat → List Text → Bool
  | depth, [] => depth == 0
  | depth, l :: ls =>
    if depth + opens l.trim < closes l.trim then false
    else balancedFrom (depth + opens l.trim - closes l.trim) ls

def balanced (ls : List Text) : Bool := balancedFrom 0 ls

/-- The number of open structures behind a line. A closing word with nothing to close does not
count. -/
def depthAfter (depth : Nat) (line : Text) : Nat := depth + opens line.trim - closes line.trim

end TemplateBlocks.Control
