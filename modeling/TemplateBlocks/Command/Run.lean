import TemplateBlocks.Command
import TemplateBlocks.Fixture.Report
import TemplateBlocks.Json
import TemplateBlocks.Rewrite
import TemplateBlocks.Toml.Document

/-!
# Running commands

A command reads files and gives what it prints, the diagnostics it finds, and an exit code or
an error. The code is 0, or 2 when a check has found hazards, or 1 when fixtures have failed.
-/

namespace TemplateBlocks

inductive CommandError
  | unreadable (path : Text) (e : ReadError)
  | catalog (path : Text)
  | missingOrder
  | rewrite (e : RewriteError)
  deriving DecidableEq, Repr

def CommandError.message : CommandError → Text
  | unreadable path e => "cannot read '".toList ++ path ++ "': ".toList ++ e.message
  | catalog path => "invalid translation catalog '".toList ++ path ++ "'".toList
  | missingOrder => "original and new order must both be non-empty".toList
  | rewrite e => e.message

/-- Runs a fixture whose front matter is read as the commands read TOML. -/
def Fixture.run (s : Text) : FixtureResult := runWith Toml.parse? s

structure Outcome where
  output : Text := []
  messages : Text := []
  diagnostics : List Diagnostic := []
  result : Except CommandError Nat

def Outcome.failed (e : CommandError) : Outcome := { result := .error e }

namespace Command

/-! ### Forms of output -/

def blockJson (b : Block) : Json := .object
  [("name".toList, .string b.name), ("type".toList, .string b.kind.word),
    ("line_start".toList, .number b.start), ("line_end".toList, .number b.stop),
    ("movable".toList, .boolean b.movable)]

def groupJson (g : Group) : Json := .object
  [("name".toList, .string g.name), ("width".toList, .string g.width),
    ("blocks".toList, Json.strings g.blocks)]

def outlineJson (o : Outline) : Json := .object
  [("has_delimiters".toList, .boolean o.delimited), ("blocks".toList, .array (o.blocks.map blockJson)),
    ("groups".toList, .array (o.groups.map groupJson))]

def hazardsJson (hs : List Hazard) : Json := .array (hs.map fun h => .object
  [("block".toList, .string h.block), ("variables".toList, Json.strings h.names),
    ("direction".toList, .string h.direction.word)])

def rangeText (b : Block) : Text :=
  if b.isSingleLine then 'L' :: Text.ofNat b.start
  else 'L' :: Text.ofNat b.start ++ "-".toList ++ Text.ofNat b.stop

def blockLine (b : Block) : Text :=
  let movable := if b.movable then "movable".toList else "fixed".toList
  Report.line ("  ".toList ++ Text.padRight 10 (rangeText b) ++ " ".toList ++ b.kind.label ++
    " ".toList ++ Text.padRight 8 movable ++ " ".toList ++ b.name)

def listing (file : Text) (o : Outline) : Text :=
  let mode := if o.delimited then "delimited".toList else "auto-detected".toList
  Report.line (file ++ " (".toList ++ Text.ofNat o.blocks.length ++ " blocks, ".toList ++ mode ++
    ")".toList) ++ o.blocks.flatMap blockLine

/-! ### The commands -/

/-- The translations of a catalog file; without a file there are none. -/
def catalog (d : Disk) : Option Text → Except CommandError (List (Text × Text))
  | none => .ok []
  | some path =>
    match d.read? path.os with
    | .error e => .error (.unreadable path e)
    | .ok s =>
      match Toml.parse? s >>= stringsOfToml? with
      | none => .error (.catalog path)
      | some strings => .ok strings

def runOutline (d : Disk) (file : Text) (translations : Option Text) (json : Bool) : Outcome :=
  match d.read? file.os with
  | .error e => .failed (.unreadable file e)
  | .ok s =>
    match catalog d translations with
    | .error e => .failed e
    | .ok strings =>
      let o := Outline.ofText (Fixture.translation strings) s
      { output := if json then Report.line (outlineJson o).pretty else listing file o
        diagnostics := (Notice.ofText 0 s).map Notice.diagnostic
        result := .ok 0 }

def checkCode (hs : List Hazard) : Nat := if hs.isEmpty then 0 else 2

def reportHazards (s : Text) (hs : List Hazard) (json : Bool) : Outcome :=
  if json then
    { output := Report.line (hazardsJson hs).pretty, result := .ok (checkCode hs) }
  else if hs.isEmpty then
    { messages := Report.line "ok: no variable dependency hazards".toList, result := .ok 0 }
  else { diagnostics := hs.map (Hazard.diagnostic s 0), result := .ok (checkCode hs) }

def runMove (d : Disk) (file block after : Text) (json apply force : Bool) : Outcome :=
  match d.read? file.os with
  | .error e => .failed (.unreadable file e)
  | .ok s =>
    let hs := checkMove s block after
    let report := reportHazards s hs json
    if !apply then report
    else if hs.isEmpty || force then
      match moveBlock s block (some after) with
      | .error e => { report with result := .error (.rewrite e) }
      | .ok moved => { report with output := report.output ++ moved }
    else
      let refusal := "not applied: hazards found (use --force to rewrite anyway)".toList
      { report with messages := report.messages ++ Report.line refusal }

def runReorder (d : Disk) (file : Text) (original new : List Text) (json : Bool) : Outcome :=
  if original.isEmpty || new.isEmpty then .failed .missingOrder
  else match d.read? file.os with
    | .error e => .failed (.unreadable file e)
    | .ok s => reportHazards s (checkReorder s original new) json

def run (d : Disk) (i : Invocation) : Outcome :=
  match i.command with
  | .outline file translations json => runOutline d file translations json
  | .move file block after json apply force => runMove d file block after json apply force
  | .reorder file original new json => runReorder d file original new json
  | .test path requested =>
    let v := Report.run Toml.parse? d path.os i.color requested
    { messages := v.output, result := .ok v.code }
  | .categories path => { messages := Report.list d path.os, result := .ok 0 }

end Command

end TemplateBlocks
