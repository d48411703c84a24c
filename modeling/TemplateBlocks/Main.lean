import TemplateBlocks.Command.Arguments
import TemplateBlocks.Command.Run

/-!
# The command line

Reads the files that the command names, runs it, and prints what it gives.
-/

open TemplateBlocks

def contentOf (path : String) : IO Content := do
  try
    match String.fromUTF8? (← IO.FS.readBinFile path) with
    | some s => return .text s.toList
    | none => return .binary
  catch _ => return .closed

def below (path name : String) : String :=
  if path.endsWith "/" then path ++ name else path ++ "/" ++ name

/-- Adds what is at a path to the disk, a directory with everything below it. -/
partial def addTree (path : String) (d : Disk) : IO Disk := do
  let place ← IO.FS.realPath path
  if ← place.isDir then
    match ← place.readDir.toBaseIO with
    | .error _ => return d.addDirectory path.toList ⟨false, true⟩
    | .ok entries =>
      let mut d := d.addDirectory path.toList .full
      for e in entries do
        d ← addTree (below path e.fileName) d
      return d
  else if ← place.pathExists then
    return d.addFile path.toList (← contentOf path)
  else return d

def addWay (path : String) (d : Disk) : IO Disk := do
  let steps := Text.splitAt '/' path.toList
  let ways := (List.range steps.length).map fun n => Text.join ['/'] (steps.take n)
  ways.foldlM (fun d way => do
    let place ← IO.FS.realPath (String.ofList way)
    if ← place.isDir then return d.addDirectory way .full else return d) d

def printDiagnostic (d : Diagnostic) : IO Unit := do
  IO.eprintln ("warning: " ++ String.ofList d.message)
  for note in d.notes do
    IO.eprintln ("  = " ++ String.ofList note)

def runInvocation (i : Invocation) : IO UInt32 := do
  let here ← IO.currentDir
  let mut d := Disk.empty ((Text.splitAt '/' here.toString.toList).filter (· ≠ []))
  for path in i.command.paths do
    d ← addWay (String.ofList path) d
    d ← addTree (String.ofList path) d
  let o := Command.run d i
  IO.print (String.ofList o.output)
  IO.eprint (String.ofList o.messages)
  o.diagnostics.forM printDiagnostic
  match o.result with
  | .ok code => return code.toUInt32
  | .error e =>
    IO.eprintln ("error: " ++ String.ofList e.message)
    return 1

def usage : String :=
  "Find movable template blocks and check reorders for variable hazards\n\n" ++
  "Usage:\n" ++
  "  parse FILE [--json] [-t PATH]\n" ++
  "  check-move FILE BLOCK [-a BLOCK] [--json] [--apply [--force]]\n" ++
  "  check-reorder FILE --original NAMES --new NAMES [--json]\n" ++
  "  test PATH [-c CATEGORY]... [--list-categories]\n\n" ++
  "Options for all: [--no-color] [-v]... [-h]"

def main (args : List String) : IO UInt32 := do
  match Arguments.parse (args.map String.toList) with
  | .ok i => runInvocation i
  | .error .help => IO.println usage; return 0
  | .error .version => IO.println "0.1.0"; return 0
  | .error .usage => IO.eprintln usage; return 2
