import TemplateBlocks.Text.Blank
import TemplateBlocks.Text.Match

/-!
# Structural tags

The tags that give a page its structure, such as `div` or `table`, must be closed in the
order in which they were opened. Inline tags are of no concern. A tag that ends in `/>` opens
nothing.

The names are read without regard to case, in which the long s (U+017F) is an s; two tags
belong together when their names agree after lowering the ASCII capitals.
-/

namespace TemplateBlocks.Markup

def names : List Text :=
  ["div", "section", "article", "form", "main", "header", "footer", "aside", "nav", "ul", "ol",
    "table", "h1", "h2", "h3", "h4", "h5", "h6"].map String.toList

inductive Tag
  | opening (name : Text)
  | closing (name : Text)
  | empty (name : Text)
  deriving DecidableEq, Repr

/-- A character as it counts for the comparison of names. -/
def fold (c : Char) : Char := if c = 'ſ' then 's' else c.toLower

def afterName? (s name : Text) : Option (Text × Text) :=
  let written := s.take name.length
  if written.map fold = name then some (written, s.drop name.length) else none

def tagEnd : Matcher Bool
  | [] => none
  | '>' :: s => some (false, s)
  | c :: s =>
    if isBlank c then
      let attributes := c :: s.takeWhile (· != '>')
      match s.dropWhile (· != '>') with
      | [] => none
      | _ :: rest => some (attributes.getLast? == some '/', rest)
    else none

def tag : Matcher Tag := fun s => do
  let s ← s.after? "<".toList
  let closes := Text.startsWith s "/".toList
  let (written, s) ← names.findSome? (afterName? (Text.dropStart s "/".toList))
  let (slash, rest) ← tagEnd s
  let name := written.map Char.toLower
  return (if closes then .closing name else if slash then .empty name else .opening name, rest)

def tags (s : Text) : List Tag := s.allMatches tag

def balancedFrom : List Text → List Tag → Bool
  | pending, [] => pending.isEmpty
  | pending, .opening name :: ts => balancedFrom (name :: pending) ts
  | pending, .empty _ :: ts => balancedFrom pending ts
  | [], .closing _ :: _ => false
  | top :: pending, .closing name :: ts => if top = name then balancedFrom pending ts else false

/-- Whether the structural tags of the lines close in the order they opened and none stays open. -/
def balanced (ls : List Text) : Bool := balancedFrom [] (tags (Text.join ['\n'] ls))

end TemplateBlocks.Markup
