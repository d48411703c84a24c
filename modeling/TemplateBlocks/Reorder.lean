import TemplateBlocks.Flow
import TemplateBlocks.Hazard
import TemplateBlocks.Marker.Enclosed

/-!
# Reordering blocks

The blocks of a text have an order in which they run. This module finds the hazards of two
changes of that order: moving one block, and running the blocks in a wholly new order.

A hazard arises for a pair of blocks that change places, when the one that ran first assigns
a variable which the other mentions.
-/

namespace TemplateBlocks

/-! ### The blocks that can change places -/

structure BlockFlow where
  name : Text
  flow : Flow

/-- The outermost delimited blocks of a text in their order. Where no marker begins a line, they
are the marked blocks. -/
def BlockFlow.ofText (s : Text) : List BlockFlow :=
  let ls := s.lines
  match Block.outermost (Scan.ofLines ls).blocks with
  | [] => (MarkedBlock.all s).map fun b => ⟨b.name, .ofCode b.body⟩
  | blocks => blocks.map fun b => ⟨b.name, .ofCode (Lines.text ls b.start b.stop)⟩

theorem BlockFlow.ofText_of_outermost {s : Text}
    (h : Block.outermost (Scan.ofText s).blocks ≠ []) :
    BlockFlow.ofText s = (Block.outermost (Scan.ofText s).blocks).map
      fun b => ⟨b.name, .ofCode (Lines.text s.lines b.start b.stop)⟩ := by
  unfold BlockFlow.ofText
  cases hbs : Block.outermost (Scan.ofText s).blocks with
  | nil => exact absurd hbs h
  | cons a as => simp only [← Scan.ofText.eq_1, hbs]

def hazard? (block : Text) (names : List Text) (direction : Direction) : Option Hazard :=
  if names.isEmpty then none else some ⟨block, names, direction⟩

/-! ### Moving one block -/

def BlockFlow.missedBy (moved other : BlockFlow) : Option Hazard :=
  hazard? other.name (moved.flow.definitions.common other.flow.usages) .losesDefinitions

def BlockFlow.misses (moved other : BlockFlow) : Option Hazard :=
  hazard? moved.name (moved.flow.usages.common other.flow.definitions) .providesDefinitions

def moveHazards (blocks : List BlockFlow) (i target : Nat) : List Hazard :=
  match blocks[i]? with
  | none => []
  | some moved =>
    if i < target then ((blocks.take target).drop (i + 1)).filterMap moved.missedBy
    else ((blocks.take i).drop target).filterMap moved.misses

def gapAfter? (blocks : List BlockFlow) (after : Text) : Option Nat :=
  if after.isEmpty then some 0
  else (blocks.findIdx? fun b => b.name == after).map (· + 1)

/-- The hazards of moving the block called `moved` behind the block called `after`, or to the
front when `after` is empty. A name that no block has gives no hazard. -/
def checkMove (s moved after : Text) : List Hazard :=
  let blocks := BlockFlow.ofText s
  if blocks.length < 2 then []
  else match blocks.findIdx? fun b => b.name == moved, gapAfter? blocks after with
    | some i, some target =>
      if i = target ∨ after = moved then [] else (moveHazards blocks i target).eraseDups
    | _, _ => []

/-! ### A new order -/

def lastIndex? (order : List Text) (name : Text) : Option Nat :=
  (order.zipIdx.reverse.find? fun p => p.1 == name).map fun p => p.2

structure Placed where
  block : BlockFlow
  old : Nat

def placed? (blocks : List BlockFlow) (original : List Text) (name : Text) : Option Placed := do
  let block ← blocks.reverse.find? fun b => b.name == name
  let old ← lastIndex? original name
  return ⟨block, old⟩

/-- The hazards seen from the block at index `k` of the new order. When its index has grown, the
blocks that it has let pass may miss what it assigns. When its index has shrunk, it may miss
what the blocks assign that it has passed. -/
def placeHazards (before behind : List Placed) (k : Nat) (p : Placed) : List Hazard :=
  if p.old < k then
    (before.filter fun q => p.old < q.old).filterMap fun q => p.block.missedBy q.block
  else if k < p.old then
    (behind.filter fun q => q.old < p.old).filterMap fun q => p.block.misses q.block
  else []

/-- The hazards of running the blocks in the order `new`, when they ran in the order `original`.
Names that are missing from an order or from the text are passed over, but keep their index. -/
def checkReorder (s : Text) (original new : List Text) : List Hazard :=
  let blocks := BlockFlow.ofText s
  if blocks.length < 2 then []
  else
    let place := placed? blocks original
    let hazards := new.zipIdx.flatMap fun (name, k) =>
      match place name with
      | none => []
      | some p => placeHazards ((new.take k).filterMap place) ((new.drop (k + 1)).filterMap place) k p
    hazards.eraseDups

end TemplateBlocks
