import TemplateBlocks.Hazard
import TemplateBlocks.Toml.Value

/-!
# Expectations

What a fixture says about its template: whether markers delimit the blocks, the blocks, and
the hazards of some moves and new orders. All of it is optional. The front matter gives it in
TOML; fields with other names are passed over.
-/

namespace TemplateBlocks

structure ExpectedBlock where
  name : Text
  start : Nat
  /-- The last line; the first line when it is not given. -/
  stop : Option Nat
  movable : Bool
  deriving DecidableEq, Repr

/-- The hazards expected of moving one block; an empty `after` means the front. -/
structure ExpectedMove where
  block : Text
  after : Text
  hazards : List Hazard
  deriving DecidableEq, Repr

structure ExpectedOrder where
  original : List Text
  new : List Text
  hazards : List Hazard
  deriving DecidableEq, Repr

structure Expectation where
  description : Option Text
  delimited : Option Bool
  blocks : Option (List ExpectedBlock)
  strings : List (Text × Text)
  moves : List ExpectedMove
  orders : List ExpectedOrder
  deriving DecidableEq, Repr

open Toml (Value)

/-! ### Reading from TOML -/

def textsOfToml? (v : Value) : Option (List Text) := v.list? Value.string?

def stringsOfToml? (v : Value) : Option (List (Text × Text)) := do
  return (← v.optional? 0 "strings" Value.strings?).getD []

def Hazard.ofToml? (v : Value) : Option Hazard := do
  let block ← v.required? 0 "block" Value.string?
  let names ← v.required? 1 "variables" textsOfToml?
  let direction ← v.required? 2 "direction" fun d => d.word? >>= Direction.ofWord?
  return ⟨block, names, direction⟩

def hazardsOfToml? (v : Value) : Option (List Hazard) := do
  return (← v.optional? 2 "expect" (Value.list? Hazard.ofToml?)).getD []

def ExpectedBlock.ofToml? (v : Value) : Option ExpectedBlock := do
  let name ← v.required? 0 "name" Value.string?
  let start ← v.required? 1 "line_start" Value.nat?
  let stop ← v.optional? 2 "line_end" Value.nat?
  let movable ← v.optional? 3 "movable" Value.bool?
  return ⟨name, start, stop, movable.getD true⟩

def ExpectedMove.ofToml? (v : Value) : Option ExpectedMove := do
  let block ← v.required? 0 "block" Value.string?
  let after ← v.optional? 1 "after" Value.string?
  return ⟨block, after.getD [], ← hazardsOfToml? v⟩

def ExpectedOrder.ofToml? (v : Value) : Option ExpectedOrder := do
  let original ← v.required? 0 "original" textsOfToml?
  let new ← v.required? 1 "new" textsOfToml?
  return ⟨original, new, ← hazardsOfToml? v⟩

def Expectation.ofToml? (v : Value) : Option Expectation := do
  let description ← v.optional? 0 "description" Value.string?
  let delimited ← v.optional? 1 "expect_has_delimiters" Value.bool?
  let blocks ← v.optional? 2 "expect_blocks" (Value.list? ExpectedBlock.ofToml?)
  let strings ← v.optional? 3 "translations" stringsOfToml?
  let moves ← v.optional? 4 "moves" (Value.list? ExpectedMove.ofToml?)
  let orders ← v.optional? 5 "reorders" (Value.list? ExpectedOrder.ofToml?)
  return ⟨description, delimited, blocks, strings.getD [], moves.getD [], orders.getD []⟩

end TemplateBlocks
