import TemplateBlocks.Block
import TemplateBlocks.Control
import TemplateBlocks.Label
import TemplateBlocks.Lines

/-!
# Conditionals

A conditional is a control structure at the top level that spans several lines. It is named
after the condition in its header, or after its first line when the condition gives no name.

A stack holds the structures that are open, each with the number of those that were open before
it. On each line the headers are counted before the closing words, so a structure that opens and
closes on one line leaves no trace.
-/

namespace TemplateBlocks.Detect

structure OpenControl where
  line : Nat
  label : Option Text
  depth : Nat
  deriving DecidableEq, Repr

def OpenControl.block (c : OpenControl) (stop : Nat) : Block :=
  { name := c.label.getD ("condition_L".toList ++ Text.ofNat c.line)
    kind := .conditional, start := c.line, stop := stop }

/-- The conditional that a structure makes when it is closed on line `n`. -/
def OpenControl.ended? (c : OpenControl) (n : Nat) : Option Block :=
  if c.depth = 0 ∧ c.line < n then some (c.block n) else none

/-- One more open structure. Only a structure at the top level is looked at for a label. -/
def pushOpen (line : Text) (n : Nat) (stack : List OpenControl) : List OpenControl :=
  let label := if stack.length = 0 then Label.ofCondition? line.trim else none
  ⟨n, label, stack.length⟩ :: stack

def pushOpens (stack : List OpenControl) (line : Text) (n : Nat) : List OpenControl :=
  Nat.repeat (pushOpen line n) (Control.opens line.trim) stack

def popCloses (stack : List OpenControl) (line : Text) : List OpenControl :=
  stack.drop (Control.closes line.trim)

def stackAfter (stack : List OpenControl) (line : Text) (n : Nat) : List OpenControl :=
  popCloses (pushOpens stack line n) line

/-- The conditionals among the structures that are closed on line `n`. -/
def endedBy (stack : List OpenControl) (line : Text) (n : Nat) : List Block :=
  (stack.take (Control.closes line.trim)).filterMap fun c => c.ended? n

def conditionalsFrom : List OpenControl → List (Text × Nat) → List Block
  | _, [] => []
  | stack, (line, n) :: ls =>
    endedBy (pushOpens stack line n) line n ++ conditionalsFrom (stackAfter stack line n) ls

def conditionals (ls : List Text) : List Block := conditionalsFrom [] (Lines.numbered ls)

end TemplateBlocks.Detect
