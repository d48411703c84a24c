import TemplateBlocks.Text.Match

/-!
# TOML strings

The four spellings of a string: basic strings in double quotes, with escapes; literal strings
in single quotes, without; and both over several lines in triple quotes. Over several lines,
a newline behind the opening quotes is left out, a line end of either kind is a newline, and
a backslash at the end of a line takes away all white space up to the next character.
-/

namespace TemplateBlocks.Toml

/-! ### Characters -/

def isPlain (c : Char) : Bool := c == '\t' || (0x20 ≤ c.toNat && c.toNat ≠ 0x7F)

def isSpace (c : Char) : Bool := c == ' ' || c == '\t'

def dropSpace (s : Text) : Text := s.dropWhile isSpace

def afterLineEnd? : Text → Option Text
  | '\n' :: s => some s
  | '\r' :: '\n' :: s => some s
  | _ => none

def dropSpaceLines : Text → Text
  | [] => []
  | c :: s =>
    if isSpace c || c == '\n' || (c == '\r' && s.head? == some '\n') then dropSpaceLines s else c :: s

/-! ### Escapes -/

def hexDigit? (c : Char) : Option Nat :=
  if c.isDigit then some (c.toNat - '0'.toNat)
  else if 'a' ≤ c && c ≤ 'f' then some (c.toNat - 'a'.toNat + 10)
  else if 'A' ≤ c && c ≤ 'F' then some (c.toNat - 'A'.toNat + 10)
  else none

def codePoint (n : Nat) : Matcher Char := fun s => do
  let digits ← (s.take n).mapM hexDigit?
  let code := digits.foldl (fun value d => 16 * value + d) 0
  if digits.length = n ∧ code.isValidChar then return (Char.ofNat code, s.drop n)
  else none

def escape : Matcher Char
  | 'b' :: s => some ('\x08', s)
  | 't' :: s => some ('\t', s)
  | 'n' :: s => some ('\n', s)
  | 'f' :: s => some ('\x0c', s)
  | 'r' :: s => some ('\r', s)
  | '"' :: s => some ('"', s)
  | '\\' :: s => some ('\\', s)
  | 'u' :: s => codePoint 4 s
  | 'U' :: s => codePoint 8 s
  | _ => none

/-! ### Strings on one line -/

def basicRest (s : Text) : Option (Text × Text) :=
  match s with
  | [] => none
  | '"' :: s => some ([], s)
  | '\\' :: s =>
    match escape s with
    | none => none
    | some (c, rest) =>
      if rest.length ≤ s.length then (basicRest rest).map fun (t, rest) => (c :: t, rest) else none
  | c :: s => if isPlain c then (basicRest s).map fun (t, rest) => (c :: t, rest) else none
termination_by s.length

def literalRest : Text → Option (Text × Text)
  | [] => none
  | '\'' :: s => some ([], s)
  | c :: s => if isPlain c then (literalRest s).map fun (t, rest) => (c :: t, rest) else none

/-! ### Strings over several lines -/

/-- Reads the end of a string over several lines: three quotes, before which one or two more may
stand, which belong to the string. -/
def tripleEnd (quote : Char) : Matcher Text := fun s =>
  let n := (s.takeWhile (· == quote)).length
  if n < 3 then none
  else some (List.replicate (min n 5 - 3) quote, s.drop (min n 5))

def afterBrokenLine? (s : Text) : Option Text := (afterLineEnd? (dropSpace s)).map dropSpaceLines

/-- Reads one part of a string over several lines: a line end, an escape or a character. The
value is empty for a backslash at the end of a line. -/
def triplePart (escapes : Bool) : Matcher Text := fun s =>
  match afterLineEnd? s with
  | some rest => some (['\n'], rest)
  | none =>
    match s with
    | [] => none
    | c :: s =>
      if escapes && c == '\\' then
        match afterBrokenLine? s with
        | some rest => some ([], rest)
        | none => (escape s).map fun (e, rest) => ([e], rest)
      else if isPlain c then some ([c], s)
      else none

def tripleRest (quote : Char) (escapes : Bool) (s : Text) : Option (Text × Text) :=
  match tripleEnd quote s with
  | some r => some r
  | none =>
    match triplePart escapes s with
    | none => none
    | some (part, rest) =>
      if rest.length < s.length then
        (tripleRest quote escapes rest).map fun (t, rest) => (part ++ t, rest)
      else none
termination_by s.length

def triple (quote : Char) (escapes : Bool) : Matcher Text := fun s => do
  let s ← s.after? (List.replicate 3 quote)
  tripleRest quote escapes ((afterLineEnd? s).getD s)

def single : Matcher Text
  | '"' :: s => basicRest s
  | '\'' :: s => literalRest s
  | _ => none

/-- Reads a string. Three quotes always begin one over several lines. -/
def quoted : Matcher Text := fun s =>
  if s.startsWith (List.replicate 3 '"') then triple '"' true s
  else if s.startsWith (List.replicate 3 '\'') then triple '\'' false s
  else single s

end TemplateBlocks.Toml
