import TemplateBlocks.Text.Basic

/-!
# TOML values

The values of a TOML document. A table remembers what made it, because that decides whether
later lines may add to it: `insert?` puts a key with a dotted path into a table, and
`openTable?` and `openElement?` enter a header.

A document is a table. Its parts are reached by a path of keys, on which an array of tables
stands for its last element.
-/

namespace TemplateBlocks.Toml

inductive Origin
  | header
  | implied
  | dotted
  | braces
  deriving DecidableEq, Repr

/-- A value. Of floats and dates no more is kept than that they are there. -/
inductive Value
  | string (s : Text)
  | integer (n : Int)
  | float
  | boolean (b : Bool)
  | date
  | array (items : List Value)
  | table (origin : Origin) (entries : List (Text × Value))
  | tables (elements : List (List (Text × Value)))

abbrev Entries := List (Text × Value)

/-- What reads a document: its value, or nothing when it is not well-formed. -/
abbrev Reader := Text → Option Value

/-! ### Changing a table -/

def Entries.alter? (key : Text) (f : Option Value → Option Value) : Entries → Option Entries
  | [] => (f none).map fun v => [(key, v)]
  | (k, v) :: es =>
    if k = key then (f (some v)).map fun v => (k, v) :: es
    else (Entries.alter? key f es).map ((k, v) :: ·)

def alterLast? {α : Type} (f : α → Option α) : List α → Option (List α)
  | [] => none
  | [a] => (f a).map ([·])
  | a :: as => (alterLast? f as).map (a :: ·)

/-- Changes the table at the end of a path by `f`, which is told what made the table.

Tables on the way that do not exist are made. A dotted key (`dotted`) does not pass through
tables that have a header, and nothing passes through values and tables in braces. -/
def descend? (dotted : Bool) (f : Origin → Entries → Option Entries) :
    List Text → Origin → Entries → Option Entries
  | [], origin, es => f origin es
  | key :: path, _, es => es.alter? key fun
    | none =>
      let origin := if dotted then .dotted else .implied
      (descend? dotted f path origin []).map (.table origin)
    | some (.table origin sub) =>
      if origin = .braces || (dotted && origin == .header) then none
      else (descend? dotted f path origin sub).map (.table origin)
    | some (.tables elements) =>
      (alterLast? (descend? dotted f path .header) elements).map .tables
    | some _ => none

structure DottedKey where
  path : List Text
  last : Text
  deriving DecidableEq, Repr

/-- The entries with a new value. The key must be new, and a key with dots goes into tables that
only dotted keys have made. -/
def insert? (key : DottedKey) (v : Value) (es : Entries) : Option Entries :=
  let put (origin : Origin) (es : Entries) : Option Entries :=
    if (origin == .dotted) == key.path.isEmpty then none
    else es.alter? key.last fun
      | none => some v
      | some _ => none
  descend? true put key.path .header es

/-- The document with the table of a header. The table must be new, or implied by headers so far. -/
def openTable? (key : DottedKey) (es : Entries) : Option Entries :=
  let enter (_ : Origin) (es : Entries) : Option Entries := es.alter? key.last fun
    | none => some (.table .header [])
    | some (.table .implied sub) => some (.table .header sub)
    | some _ => none
  descend? false enter key.path .header es

def openElement? (key : DottedKey) (es : Entries) : Option Entries :=
  let enter (_ : Origin) (es : Entries) : Option Entries := es.alter? key.last fun
    | none => some (.tables [[]])
    | some (.tables elements) => some (.tables (elements ++ [[]]))
    | some _ => none
  descend? false enter key.path .header es

def insertUnder? (current : List Text) (key : DottedKey) (v : Value) (es : Entries) :
    Option Entries :=
  descend? false (fun _ => insert? key v) current .header es

/-! ### Reading values -/

namespace Value

def string? : Value → Option Text
  | string s => some s
  | _ => none

def nat? : Value → Option Nat
  | integer (.ofNat n) => some n
  | _ => none

def bool? : Value → Option Bool
  | boolean b => some b
  | _ => none

def items? : Value → Option (List Value)
  | array items => some items
  | tables elements => some (elements.map (table .header))
  | _ => none

def list? {α : Type} (f : Value → Option α) (v : Value) : Option (List α) := do
  let items ← v.items?
  items.mapM f

/-- The value of the field `name` of a record, which is absent when the record does not give it.

A record is a table, or an array that gives the fields in their order, this one at index `i`. A
date is a record that gives no field. Other values are no records. -/
def field? (v : Value) (i : Nat) (name : String) : Option (Option Value) :=
  match v with
  | table _ entries => some (entries.lookup name.toList)
  | date => some none
  | v => v.items?.map (·[i]?)

def required? {α : Type} (v : Value) (i : Nat) (name : String) (f : Value → Option α) :
    Option α := do
  let field ← v.field? i name
  field >>= f

def optional? {α : Type} (v : Value) (i : Nat) (name : String) (f : Value → Option α) :
    Option (Option α) := do
  match ← v.field? i name with
  | none => return none
  | some w => some <$> f w

def strings? : Value → Option (List (Text × Text))
  | table _ entries => entries.mapM fun (k, v) => v.string?.map (k, ·)
  | date => some []
  | _ => none

/-- A word, as a string or as the only key of a table with nothing in it. -/
def word? : Value → Option Text
  | string s => some s
  | table _ [(k, array [])] => some k
  | table _ [(k, table _ [])] => some k
  | _ => none

end Value

end TemplateBlocks.Toml
