import TemplateBlocks.Text.Basic

/-!
# JSON text

The values that this library writes as JSON, and their text over several lines: two spaces
for each level, one element or field a line, and nothing between the brackets of an empty
array or object. Fields keep their order.
-/

namespace TemplateBlocks

/-- A JSON value without fractions. -/
inductive Json
  | string (s : Text)
  | number (n : Nat)
  | boolean (b : Bool)
  | array (items : List Json)
  | object (fields : List (Text × Json))

namespace Json

def hexDigit (n : Nat) : Char := (Nat.digitChar (n % 16))

def escape (c : Char) : Text :=
  match c with
  | '"' => ['\\', '"']
  | '\\' => ['\\', '\\']
  | '\x08' => ['\\', 'b']
  | '\x0c' => ['\\', 'f']
  | '\n' => ['\\', 'n']
  | '\r' => ['\\', 'r']
  | '\t' => ['\\', 't']
  | c =>
    if c.toNat < 0x20 then ['\\', 'u', '0', '0', hexDigit (c.toNat / 16), hexDigit c.toNat]
    else [c]

def quoted (s : Text) : Text := ['"'] ++ s.flatMap escape ++ ['"']

def lineBreak (depth : Nat) : Text := '\n' :: List.replicate (2 * depth) ' '

def bracketed (opening closing : Char) (depth : Nat) : List Text → Text
  | [] => [opening, closing]
  | items =>
    let sep := ',' :: lineBreak (depth + 1)
    opening :: lineBreak (depth + 1) ++ Text.join sep items ++ lineBreak depth ++ [closing]

mutual

def prettyAt (depth : Nat) : Json → Text
  | string s => quoted s
  | number n => Text.ofNat n
  | boolean true => "true".toList
  | boolean false => "false".toList
  | array items => bracketed '[' ']' depth (prettyItems (depth + 1) items)
  | object fields => bracketed '\x7b' '\x7d' depth (prettyFields (depth + 1) fields)

def prettyItems (depth : Nat) : List Json → List Text
  | [] => []
  | v :: vs => prettyAt depth v :: prettyItems depth vs

def prettyFields (depth : Nat) : List (Text × Json) → List Text
  | [] => []
  | (k, v) :: fs => (quoted k ++ ": ".toList ++ prettyAt depth v) :: prettyFields depth fs

end

def pretty (v : Json) : Text := prettyAt 0 v

def strings (ss : List Text) : Json := array (ss.map string)

end Json

end TemplateBlocks
