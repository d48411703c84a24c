import TemplateBlocks.Code
import TemplateBlocks.NameSet

/-!
# Variable flow

The flow of a piece of code is the set of variables it assigns and the set of variables it
mentions. It is found by reading the characters alone: names in comments and in strings
count, and no statement is understood beyond the forms below.

A variable is assigned by

- an assignment operator behind it, plain or compound;
- a binding behind the word `as`, of one variable or of a key and a value;
- a list of variables in brackets or in `list(…)` with an equals sign behind it.
-/

namespace TemplateBlocks

namespace Code

/-! ### Assignments -/

def operators : List Text :=
  ["", ".", "+", "-", "*", "/", "%", "&", "|", "^", "<<", ">>", "??"].map String.toList

/-- Cuts an assignment operator off the start of `s` together with the character behind it, which
must not make a comparison or an arrow of it. -/
def afterAssign? (s : Text) : Option Text :=
  operators.findSome? fun op => do
    let s ← s.after? op >>= (Text.after? · "=".toList)
    let (_, s) ← Text.char? (fun c => c != '=' && c != '>') s
    return s

def assignment : Matcher Text := fun s => do
  let (n, s) ← reference s
  let s ← afterAssign? (Text.dropBlanks s)
  return (n, s)

/-! ### Bindings -/

def boundValue : Matcher Text := fun s => do
  let s ← s.dropBlanks.after? "=>".toList
  reference (Text.dropBlanks s)

def binding (before : Option Char) : Matcher (List Text) := fun s => do
  guard (wordMayStart before)
  let s ← s.after? "as".toList >>= Text.dropBlanks1?
  let (key, s) ← reference s
  match boundValue s with
  | some (value, s) => return ([key, value], s)
  | none => return ([key], s)

/-! ### Destructuring -/

def references (s : Text) : List Text × Text :=
  match reference s with
  | none => ([], s)
  | some (n, rest) =>
    let rest := rest.dropWhile fun c => isBlank c || c == ','
    if rest.length < s.length then
      let (ns, rest) := references rest
      (n :: ns, rest)
    else ([n], rest)
termination_by s.length

def listStart? (s : Text) : Option Text :=
  match s.after? "list".toList >>= fun s => (Text.dropBlanks s).after? "(".toList with
  | some rest => some rest
  | none => s.after? "[".toList

def destructuring : Matcher (List Text) := fun s => do
  let s ← listStart? s
  let (ns, s) := references (Text.dropBlanks s)
  guard (!ns.isEmpty)
  let (_, s) ← (Text.dropBlanks s).char? fun c => c == ')' || c == ']'
  let s ← (Text.dropBlanks s).after? "=".toList
  return (ns, s)

end Code

/-! ### The flow of code -/

/-- The names that count neither as mentioned nor as missing: the current object and the
variables that exist everywhere. -/
def ambientNames : List Text :=
  ["this", "_GET", "_POST", "_REQUEST", "_SESSION", "_COOKIE", "_SERVER", "_FILES", "_ENV",
    "GLOBALS"].map String.toList

structure Flow where
  definitions : NameSet
  usages : NameSet

namespace Flow

def definitionsOf (code : Text) : NameSet :=
  .ofList (code.allMatches Code.assignment ++ (code.occurrences Code.binding none).flatten ++
    (code.allMatches Code.destructuring).flatten)

def usagesOf (code : Text) : NameSet :=
  .ofList ((code.allMatches Code.reference).filter fun n => !ambientNames.contains n)

def ofCode (code : Text) : Flow := ⟨definitionsOf code, usagesOf code⟩

end Flow

end TemplateBlocks
