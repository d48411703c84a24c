import TemplateBlocks.Detect
import TemplateBlocks.Marker.Scan
import TemplateBlocks.Markup

/-!
# Outlines

The outline of a template lists its blocks. When markers delimit any block, these blocks are
the outline and nothing else is looked for. Otherwise the blocks are detected: one of several
lines is movable when its control structures and its structural tags are balanced within it,
and any of them may get a better name from hints on its lines.
-/

namespace TemplateBlocks

/-- Whether lines can move as a unit: control structures and structural tags are balanced. -/
def selfContained (ls : List Text) : Bool := Control.balanced ls && Markup.balanced ls

structure Outline where
  delimited : Bool
  blocks : List Block
  deriving DecidableEq, Repr

namespace Outline

def settle (translation : Label.Translation) (ls : List Text) (b : Block) : Block :=
  let own := Lines.slice ls b.start b.stop
  { b with
    movable := if b.movable && !b.isSingleLine then selfContained own else b.movable
    name := (Label.refine? translation own).getD b.name }

def ofLines (translation : Label.Translation) (ls : List Text) : Outline :=
  match (Scan.ofLines ls).blocks with
  | [] => ⟨false, (Detect.blocks ls).map (settle translation ls)⟩
  | found => ⟨true, found⟩

def ofText (translation : Label.Translation) (s : Text) : Outline := ofLines translation s.lines

def groups (o : Outline) : List Group := Group.main o.blocks

def block? (o : Outline) (name : Text) : Option Block := o.blocks.find? fun b => b.name == name

end Outline

end TemplateBlocks
