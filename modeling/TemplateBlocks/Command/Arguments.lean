import TemplateBlocks.Command

/-!
# Command-line arguments

Arguments are options and positions. A long option is two hyphens and a name, a short one a
hyphen and a letter; short options without a value can share one hyphen. A value stands
behind an equals sign or in the next argument, which must then not begin with a hyphen unless
it is a single hyphen; behind a short option it can also follow at once. After `--` every
argument is a position.

Arguments are read from left to right, and the first of them that is wrong or that asks for
help decides. What is missing, and what cannot go together, is found only at the end.
-/

namespace TemplateBlocks.Arguments

/-! ### Options -/

inductive Form
  | flag
  | counter
  | value
  | path
  | values
  | help
  | version
  deriving DecidableEq, Repr

structure Spec where
  name : Text
  letter : Option Char
  form : Form
  deriving DecidableEq, Repr

def Form.takesValue : Form → Bool
  | .value | .path | .values => true
  | _ => false

def Form.repeats : Form → Bool
  | .counter | .values => true
  | _ => false

inductive Refusal
  | usage
  | help
  | version
  deriving DecidableEq, Repr

structure Given where
  options : List (Text × Text) := []
  positions : List Text := []
  deriving DecidableEq, Repr

namespace Given

def values (g : Given) (name : String) : List Text :=
  (g.options.filter fun o => o.1 == name.toList).map fun o => o.2

def has (g : Given) (name : String) : Bool := !(g.values name).isEmpty

def value? (g : Given) (name : String) : Option Text := (g.values name).head?

end Given

/-- Takes an option with its value, which is empty for an option without one. -/
def take (s : Spec) (v : Text) (g : Given) : Except Refusal Given :=
  match s.form with
  | .help => .error .help
  | .version => .error .version
  | form =>
    if !form.repeats && g.options.any fun o => o.1 == s.name then .error .usage
    else if form = .path && v.isEmpty then .error .usage
    else .ok { g with options := g.options ++ [(s.name, v)] }

def nextValue : List Text → Except Refusal (Text × List Text)
  | [] => .error .usage
  | v :: rest =>
    if v.startsWith "-".toList && v != "-".toList then .error .usage else .ok (v, rest)

def long (specs : List Spec) (arg : Text) (rest : List Text) (g : Given) :
    Except Refusal (Given × List Text) := do
  let name := arg.takeWhile (· != '=')
  let attached := (arg.dropWhile (· != '=')).tail?
  match specs.find? fun s => s.name == name with
  | none => throw .usage
  | some s =>
    match attached, s.form.takesValue with
    | some v, true => return (← take s v g, rest)
    | some _, false => throw .usage
    | none, true =>
      let (v, rest) ← nextValue rest
      return (← take s v g, rest)
    | none, false => return (← take s [] g, rest)

def short (specs : List Spec) (rest : List Text) : Text → Given → Except Refusal (Given × List Text)
  | [], g => .ok (g, rest)
  | c :: cs, g =>
    match specs.find? fun s => s.letter == some c with
    | none => .error .usage
    | some s =>
      if s.form.takesValue then
        if cs.isEmpty then do
          let (v, rest) ← nextValue rest
          return (← take s v g, rest)
        else do return (← take s (Text.dropStart cs "=".toList) g, rest)
      else do short specs rest cs (← take s [] g)

def option (specs : List Spec) (arg : Text) (rest : List Text) (g : Given) :
    Except Refusal (Given × List Text) :=
  match arg with
  | '-' :: '-' :: name => long specs name rest g
  | '-' :: letters => short specs rest letters g
  | _ => .error .usage

def isOption (arg : Text) : Bool := arg.startsWith "-".toList && arg != "-".toList

def read (specs : List Spec) (limit : Nat) (args : List Text) (g : Given) : Except Refusal Given :=
  match args with
  | [] => .ok g
  | arg :: rest =>
    if arg = "--".toList then
      if g.positions.length + rest.length ≤ limit then
        .ok { g with positions := g.positions ++ rest }
      else .error .usage
    else if isOption arg then
      match option specs arg rest g with
      | .error e => .error e
      | .ok (g, left) => if left.length ≤ rest.length then read specs limit left g else .error .usage
    else if g.positions.length < limit then
      read specs limit rest { g with positions := g.positions ++ [arg] }
    else .error .usage
termination_by args.length

/-! ### The commands -/

def spec (name : String) (letter : Option Char) (form : Form) : Spec := ⟨name.toList, letter, form⟩

def sharedSpecs : List Spec :=
  [spec "no-color" none .flag, spec "verbose" (some 'v') .counter, spec "help" (some 'h') .help]

def rootSpecs : List Spec := sharedSpecs ++ [spec "version" (some 'V') .version]

def outline (args : List Text) : Except Refusal (Command × Given) := do
  let specs := [spec "json" none .flag, spec "translations" (some 't') .path]
  let g ← read (sharedSpecs ++ specs) 1 args {}
  match g.positions with
  | [file] => return (.outline file (g.value? "translations") (g.has "json"), g)
  | _ => throw .usage

/-- Reads the arguments of the command that checks a move. A move is not both made and reported
as JSON. Only what is made can be forced, but beside JSON the force is passed over. -/
def move (args : List Text) : Except Refusal (Command × Given) := do
  let specs := [spec "after" (some 'a') .value, spec "json" none .flag, spec "apply" none .flag,
    spec "force" none .flag]
  let g ← read (sharedSpecs ++ specs) 2 args {}
  let json := g.has "json"
  let apply := g.has "apply"
  let force := g.has "force"
  if apply && json then throw .usage
  if force && !apply && !json then throw .usage
  match g.positions with
  | [file, block] => return (.move file block ((g.value? "after").getD []) json apply force, g)
  | _ => throw .usage

def names (g : Given) (option : String) : List Text := (g.values option).flatMap (Text.splitAt ',')

def reorder (args : List Text) : Except Refusal (Command × Given) := do
  let specs := [spec "original" none .values, spec "new" none .values, spec "json" none .flag]
  let g ← read (sharedSpecs ++ specs) 1 args {}
  if !g.has "original" || !g.has "new" then throw .usage
  match g.positions with
  | [file] => return (.reorder file (names g "original") (names g "new") (g.has "json"), g)
  | _ => throw .usage

def test (args : List Text) : Except Refusal (Command × Given) := do
  let specs := [spec "category" (some 'c') .values, spec "list-categories" none .flag]
  let g ← read (sharedSpecs ++ specs) 1 args {}
  match g.positions with
  | [path] =>
    if g.has "list-categories" then return (.categories path, g)
    else return (.test path (g.values "category"), g)
  | _ => throw .usage

def commands : List (Text × (List Text → Except Refusal (Command × Given))) :=
  [("parse".toList, outline), ("check-move".toList, move), ("check-reorder".toList, reorder),
    ("test".toList, test)]

def helpName : Text := "help".toList

/-- What a request for help comes to: help is there for the program, for each command, and for the
request itself. -/
def helpOn : List Text → Refusal
  | [] => .help
  | [name] => if name = helpName || (commands.lookup name).isSome then .help else .usage
  | _ => .usage

def readFrom (args : List Text) (g : Given) : Except Refusal Invocation :=
  match args with
  | [] => .error .usage
  | arg :: rest =>
    if arg = "--".toList then .error .usage
    else if isOption arg then
      match option rootSpecs arg rest g with
      | .error e => .error e
      | .ok (g, left) => if left.length ≤ rest.length then readFrom left g else .error .usage
    else if arg = helpName then .error (helpOn rest)
    else
      match commands.lookup arg with
      | none => .error .usage
      | some readCommand =>
        match readCommand rest with
        | .error e => .error e
        | .ok (command, own) => .ok ⟨!(g.has "no-color" || own.has "no-color"), command⟩
termination_by args.length

def parse (args : List Text) : Except Refusal Invocation := readFrom args {}

end TemplateBlocks.Arguments
