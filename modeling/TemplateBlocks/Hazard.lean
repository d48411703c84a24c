import TemplateBlocks.Diagnostic

/-!
# Hazards

A hazard is evidence that a new order of blocks breaks the flow of variables: a block would
run before the block that assigns what it reads. It is advice, and the caller decides.
-/

namespace TemplateBlocks

/-- What made a block run too early. -/
inductive Direction
  /-- The block that assigns the variables moved behind it. -/
  | losesDefinitions
  /-- The block itself moved ahead of the one that assigns the variables. -/
  | providesDefinitions
  deriving DecidableEq, Repr

namespace Direction

def word : Direction → Text
  | losesDefinitions => "loses_definitions".toList
  | providesDefinitions => "provides_definitions".toList

def ofWord? (w : Text) : Option Direction :=
  [losesDefinitions, providesDefinitions].find? fun d => d.word == w

def note : Direction → Text
  | losesDefinitions => "the block defining these variables would now run after this one".toList
  | providesDefinitions => "this block reads variables defined by a block it would skip".toList

end Direction

structure Hazard where
  block : Text
  names : List Text
  direction : Direction
  deriving DecidableEq, Repr

namespace Hazard

def message (h : Hazard) : Text :=
  let listed := Text.join ", ".toList (h.names.map ('$' :: ·))
  let what := match h.direction with
    | .losesDefinitions => " would run before the definition of ".toList
    | .providesDefinitions => " would be moved ahead of the definition of ".toList
  "block ".toList ++ quotedName h.block ++ what ++ listed

/-- The hazard as a diagnostic about the text `s`. It points at the first delimited block with
the name, if there is one. -/
def diagnostic (s : Text) (fileId : Nat) (h : Hazard) : Diagnostic :=
  let ls := s.lines
  let label (b : Block) : DiagnosticLabel :=
    { fileId := fileId, span := Lines.span ls b.start b.stop
      message := "block ".toList ++ quotedName b.name }
  let block := (Scan.ofLines ls).blocks.find? fun b => b.name == h.block
  { code := some h.direction.word, message := h.message
    labels := (block.map label).toList, notes := [h.direction.note] }

end Hazard

end TemplateBlocks
