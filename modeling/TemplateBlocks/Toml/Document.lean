import TemplateBlocks.Toml.Scalar

/-!
# TOML documents

A document is a sequence of lines: headers, which enter a table, and keys with their values,
which go into the table entered last. Arrays and tables in braces nest less than 80 deep, and a
key has fewer than 80 parts.
-/

namespace TemplateBlocks.Toml

/-! ### Between the values -/

/-- The bound on the depth of values and on the number of a key's parts. -/
def nestingLimit : Nat := 80

def dropComment : Text → Text
  | '#' :: s => s.dropWhile isPlain
  | s => s

def afterLine? (s : Text) : Option Text :=
  match dropComment (dropSpace s) with
  | [] => some []
  | s => afterLineEnd? s

def dropFiller (s : Text) : Text :=
  let s' := dropSpace s
  match afterLineEnd? (dropComment s') with
  | some rest => if rest.length < s.length then dropFiller rest else rest
  | none => s'
termination_by s.length

/-! ### Keys -/

def isBareKeyChar (c : Char) : Bool := c.isAlphanum || c == '_' || c == '-'

def keyPart : Matcher Text := fun s => do
  let s := dropSpace s
  let (k, s) ← match s with
    | '"' :: _ => single s
    | '\'' :: _ => single s
    | _ => Text.run1? isBareKeyChar s
  return (k, dropSpace s)

def keyParts (s : Text) : Option (List Text × Text) :=
  match keyPart s with
  | none => none
  | some (k, rest) =>
    match rest with
    | '.' :: more =>
      if more.length < s.length then (keyParts more).map fun (ks, rest) => (k :: ks, rest) else none
    | _ => some ([k], rest)
termination_by s.length

def key : Matcher DottedKey := fun s => do
  let (ks, rest) ← keyParts s
  guard (ks.length < nestingLimit)
  let last ← ks.getLast?
  return (⟨ks.dropLast, last⟩, rest)

/-! ### Values -/

def items (element : Matcher Value) (s : Text) : Option (List Value × Text) :=
  match dropFiller s with
  | ']' :: rest => some ([], rest)
  | start =>
    match element start with
    | none => none
    | some (v, rest) =>
      match dropFiller rest with
      | ',' :: more =>
        if more.length < s.length then (items element more).map fun (vs, rest) => (v :: vs, rest)
        else none
      | ']' :: rest => some ([v], rest)
      | _ => none
termination_by s.length

def assignment (element : Matcher Value) : Matcher (DottedKey × Value) := fun s => do
  let (k, s) ← key s
  let s ← s.after? "=".toList
  let (v, s) ← element (dropSpace s)
  return ((k, v), s)

/-- Reads the entries of a table in braces, of which there is at least one, and adds them to `es`. -/
def entriesFrom (element : Matcher Value) (es : Entries) (s : Text) : Option (Entries × Text) :=
  match assignment element s with
  | none => none
  | some ((k, v), rest) =>
    match insert? k v es with
    | none => none
    | some es =>
      match dropSpace rest with
      | ',' :: more => if more.length < s.length then entriesFrom element es more else none
      | '\x7d' :: rest => some (es, rest)
      | _ => none
termination_by s.length

def entries (element : Matcher Value) (s : Text) : Option (Entries × Text) :=
  match dropSpace s with
  | '\x7d' :: rest => some ([], rest)
  | s => entriesFrom element [] s

def value : (depth : Nat) → Matcher Value
  | 0, '[' :: _ => none
  | 0, '\x7b' :: _ => none
  | depth + 1, '[' :: s => (items (value depth) s).map fun (vs, rest) => (.array vs, rest)
  | depth + 1, '\x7b' :: s =>
    (entries (value depth) s).map fun (es, rest) => (.table .braces es, rest)
  | _, s => scalar s

/-! ### Documents -/

inductive Line
  | filler
  | entry (key : DottedKey) (v : Value)
  | table (key : DottedKey)
  | element (key : DottedKey)

def header (close : String) (make : DottedKey → Line) : Matcher Line := fun s => do
  let (k, s) ← key s
  let s ← s.after? close.toList
  return (make k, s)

def lineStart : Matcher Line := fun s =>
  match dropSpace s with
  | [] => some (.filler, [])
  | '[' :: '[' :: s => header "]]" .element s
  | '[' :: s => header "]" .table s
  | c :: s =>
    if c == '#' || c == '\n' || c == '\r' then some (.filler, c :: s)
    else (assignment (value (nestingLimit - 1)) (c :: s)).map fun ((k, v), rest) =>
      (.entry k v, rest)

def documentLines (s : Text) : Option (List Line) :=
  match s with
  | [] => some []
  | c :: s =>
    match lineStart (c :: s) with
    | none => none
    | some (line, rest) =>
      match afterLine? rest with
      | none => none
      | some rest =>
        if rest.length ≤ s.length then (documentLines rest).map (line :: ·) else none
termination_by s.length

/-- The document with the remaining lines, given the path of the table entered last. -/
def build? : List Text → Entries → List Line → Option Entries
  | _, es, [] => some es
  | current, es, .filler :: ls => build? current es ls
  | current, es, .entry k v :: ls => do build? current (← insertUnder? current k v es) ls
  | _, es, .table k :: ls => do build? (k.path ++ [k.last]) (← openTable? k es) ls
  | _, es, .element k :: ls => do build? (k.path ++ [k.last]) (← openElement? k es) ls

/-- The document that a text writes, if it writes one. A byte order mark may come first. -/
def parse? (s : Text) : Option Value := do
  let ls ← documentLines (s.dropStart ['\uFEFF'])
  let es ← build? [] [] ls
  return .table .header es

end TemplateBlocks.Toml
