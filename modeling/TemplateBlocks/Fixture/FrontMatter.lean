import TemplateBlocks.Text.Match

/-!
# Front matter

A fixture begins with its front matter between two lines of three hyphens; the template
follows. Byte order marks at the very start do not count. One line end of either kind is cut
behind each delimiter, so that the lines of the template are numbered from its own start.
-/

namespace TemplateBlocks.FrontMatter

def delimiter : Text := "---".toList

inductive Problem
  | noOpening
  | noClosing
  | malformed
  deriving DecidableEq, Repr

def Problem.message : Problem → Text
  | noOpening => "missing opening --- front matter delimiter".toList
  | noClosing => "missing closing --- front matter delimiter".toList
  | malformed => "TOML parse error".toList

def dropLineEnd (s : Text) : Text :=
  match s with
  | '\n' :: rest => rest
  | '\r' :: '\n' :: rest => rest
  | s => s

def closing : Matcher Unit := fun s => (s.after? ('\n' :: delimiter)).map ((), ·)

def split (s : Text) : Except Problem (Text × Text) :=
  match Text.after? (s.dropWhile (· == '\uFEFF')) delimiter with
  | none => .error .noOpening
  | some inner =>
    match (dropLineEnd inner).find closing with
    | none => .error .noClosing
    | some f => .ok (f.before.dropEndWhile (· == '\r'), dropLineEnd f.rest)

end TemplateBlocks.FrontMatter
