import TemplateBlocks.Text.Basic

/-!
# Commands

What the command line can ask for.
-/

namespace TemplateBlocks

inductive Command
  | outline (file : Text) (translations : Option Text) (json : Bool)
  /-- Checks a move, and makes it when `apply` is set and it is safe or forced. -/
  | move (file block after : Text) (json apply force : Bool)
  | reorder (file : Text) (original new : List Text) (json : Bool)
  | test (path : Text) (categories : List Text)
  | categories (path : Text)
  deriving DecidableEq, Repr

def Command.paths : Command → List Text
  | outline file translations _ => file :: translations.toList
  | move file _ _ _ _ _ => [file]
  | reorder file _ _ _ => [file]
  | test path _ => [path]
  | categories path => [path]

structure Invocation where
  color : Bool
  command : Command
  deriving DecidableEq, Repr

end TemplateBlocks
