import TemplateBlocks.Code

/-!
# Labels

Names for blocks that carry no marker. A conditional is named after its condition. Any
detected block gets a better name when its lines hold a text to translate or load a
sub-template; the first such text wins over the first such call.
-/

namespace TemplateBlocks.Label

/-! ### Conditions -/

/-- Reads an `if` with its condition in parentheses and a colon; the value is the condition,
which is as short as it can be and stays on one line. -/
def condition : Matcher Text := fun s => do
  let s ← s.after? "if".toList
  let s ← s.dropBlanks.after? "(".toList
  Text.shortest (· != '\n') (fun t => do
    let t ← t.after? ")".toList
    t.dropBlanks.after? ":".toList) s

def chainEnd (last s : Text) : Text :=
  match s.after? "->".toList >>= Text.run1? isKeyChar with
  | none => last
  | some (property, rest) => if rest.length < s.length then chainEnd property rest else last
termination_by s.length

def chain : Matcher Text := fun s => do
  let s ← s.after? "$this->".toList
  let (property, rest) ← Text.run1? isKeyChar s
  return (chainEnd property rest, rest)

def bareVariable : Matcher Text := fun s => s.after? "$".toList >>= Text.run1? isKeyChar

/-- The name that a condition gives: the key of a parameter, the last property of a chain, or a
variable, whichever of them it holds first in this list. -/
def ofExpression? (expression : Text) : Option Text :=
  let value (m : Matcher Text) : Option Text := (expression.find m).map fun f => f.value
  value (Code.call "->get".toList isKeyChar) <|> value chain <|> value bareVariable

def ofCondition? (line : Text) : Option Text := line.find condition >>= fun f => ofExpression? f.value

/-! ### Hints inside a block -/

abbrev Translation := Text → Option Text

def noTranslation : Translation := fun _ => none

def isTranslationChar (c : Char) : Bool := ('A' ≤ c && c ≤ 'Z') || c.isDigit || c == '_'

def translated : Matcher Text := fun s =>
  Code.call "Text::_".toList isTranslationChar s <|> Code.call "JText::_".toList isTranslationChar s

def subTemplate : Matcher Text := Code.wholeCall "->loadTemplate".toList

/-- A better name for the block with these lines. A key stands for itself when it has no
translation. -/
def refine? (translation : Translation) (ls : List Text) : Option Text :=
  let s := Text.join ['\n'] ls
  match s.find translated with
  | some f => some ((translation f.value).getD f.value)
  | none => (s.find subTemplate).map fun f => "Template: ".toList ++ f.value

end TemplateBlocks.Label
