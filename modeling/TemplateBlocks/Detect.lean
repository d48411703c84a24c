import TemplateBlocks.Detect.Conditional
import TemplateBlocks.Detect.Standalone

/-!
# Detected blocks

The blocks of a text without markers: its conditionals, and the standalones outside them. A
conditional around exactly one standalone takes the name of that standalone.
-/

namespace TemplateBlocks.Detect

def renamed (standalones : List Block) (conditional : Block) : Block :=
  match standalones.filter conditional.contains with
  | [only] => { conditional with name := only.name }
  | _ => conditional

/-- The conditionals, and after them the standalones that none of them contains. -/
def merge (conditionals standalones : List Block) : List Block :=
  conditionals.map (renamed standalones) ++
    standalones.filter fun s => !conditionals.any (·.contains s)

def blocks (ls : List Text) : List Block := Block.sort (merge (conditionals ls) (standalones ls))

end TemplateBlocks.Detect
