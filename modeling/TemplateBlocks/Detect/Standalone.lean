import TemplateBlocks.Block
import TemplateBlocks.Code
import TemplateBlocks.Control
import TemplateBlocks.Label
import TemplateBlocks.Lines

/-!
# Standalones

A standalone is a line that makes a block by itself: it loads a sub-template, renders a
layout or prints a property of the current item. Only lines with at most one control
structure open behind them are considered.
-/

namespace TemplateBlocks.Detect

def subTemplateCall : Matcher Text := Code.wholeCall "$this->loadTemplate".toList

def isPathChar (c : Char) : Bool := isKeyChar c || c == '.'

def layoutCall : Matcher Text := Code.call "LayoutHelper::render".toList isPathChar

def output (owner : Text) : Matcher Text := fun s => do
  let s ← s.dropBlanks.after? "<?php".toList >>= Text.dropBlanks1?
  let s ← s.after? "echo".toList >>= Text.dropBlanks1?
  let (property, s) ← s.after? owner >>= Text.run1? isKeyChar
  let s ← s.dropBlanks.after? ";".toList
  return (property, s)

def item : Text := "$this->item->".toList

def itemEvent : Text := "$this->item->event->".toList

def classify? (line : Text) : Option (Text × Kind) :=
  let anywhere (m : Matcher Text) (title : String) (kind : Kind) : Option (Text × Kind) :=
    (line.find m).map fun f => (title.toList ++ f.value, kind)
  let atStart (m : Matcher Text) (title : String) (kind : Kind) : Option (Text × Kind) :=
    (m line).map fun r => (title.toList ++ r.1, kind)
  anywhere subTemplateCall "Sub: " .subTemplate <|>
    anywhere layoutCall "Layout: " .layout <|>
    atStart (output itemEvent) "Event: " .expression <|>
    atStart (output item) "Output: " .expression

/-- The block that line `n` makes when `depth` structures are open behind it. -/
def standalone? (depth : Nat) (line : Text) (n : Nat) : Option Block :=
  if 1 < depth then none
  else (classify? line.trim).map fun (name, kind) =>
    { name := name, kind := kind, start := n, stop := n }

def standalonesFrom : Nat → List (Text × Nat) → List Block
  | _, [] => []
  | depth, (line, n) :: ls =>
    let depth := Control.depthAfter depth line
    (standalone? depth line n).toList ++ standalonesFrom depth ls

def standalones (ls : List Text) : List Block := standalonesFrom 0 (Lines.numbered ls)

end TemplateBlocks.Detect
