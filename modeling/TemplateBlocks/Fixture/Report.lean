import TemplateBlocks.Fixture.Suite

/-!
# Reports on fixtures

What is printed about a run of fixtures: a line for each fixture, the failures with their
reasons, and a summary. Colours are escape codes around a word and can be left out.
-/

namespace TemplateBlocks

structure FixtureRun where
  file : FixtureFile
  result : FixtureResult

def FixtureRun.ofFile (toml : Toml.Reader) (d : Disk) (f : FixtureFile) : FixtureRun :=
  ⟨f, Fixture.runAt toml d f.path⟩

def FixtureRun.title (r : FixtureRun) : Text := r.result.description.getD r.file.title

def FixtureRun.passed (r : FixtureRun) : Bool := r.result.failure.isNone

structure Verdict where
  output : Text
  code : Nat
  deriving DecidableEq, Repr

namespace Report

def line (s : Text) : Text := s ++ ['\n']

def paint (color : Bool) (code : String) (s : Text) : Text :=
  if color then "\x1b[".toList ++ code.toList ++ "m".toList ++ s ++ "\x1b[0m".toList else s

def green : String := "32"

def red : String := "31"

def bold : String := "1"

def categoryName (c : Text) : Text := if c.isEmpty then "(root)".toList else c

/-- The lines of a message. A line end of either kind separates them, and one at the end of the
message begins no line. -/
def messageLines (s : Text) : List Text :=
  let pieces := s.splitAt '\n'
  let whole := pieces.dropLast.map (Text.dropEnd · ['\r'])
  match pieces.getLast? with
  | none => whole
  | some [] => whole
  | some last => whole ++ [last]

def runLine (color : Bool) (r : FixtureRun) : Text :=
  let word := if r.passed then paint color green "PASS".toList else paint color red "FAIL".toList
  line ("  ".toList ++ word ++ "  ".toList ++ r.title)

def heading (color : Bool) (c : Text) : Text := line [] ++ line (paint color bold (categoryName c))

def failureLines (r : FixtureRun) : Text :=
  match r.result.failure with
  | none => []
  | some f =>
    line [] ++ line ("  --- ".toList ++ r.file.path.shown ++ " ---".toList) ++
      (messageLines f.message).flatMap fun l => line ("  ".toList ++ l)

def failures (rs : List FixtureRun) : Text :=
  let failed := rs.filter fun r => !r.passed
  if failed.isEmpty then [] else line [] ++ line "failures:".toList ++ failed.flatMap failureLines

def summary (color : Bool) (rs : List FixtureRun) : Text :=
  let passed := (rs.filter FixtureRun.passed).length
  let failed := rs.length - passed
  let result := "test result: ".toList
  line [] ++
    if failed = 0 then
      line (result ++ paint color green "ok".toList ++ ". ".toList ++ Text.ofNat passed ++
        " passed, 0 failed".toList)
    else
      line (result ++ paint color red "FAILED".toList ++ ". ".toList ++ Text.ofNat passed ++
        " passed, ".toList ++ Text.ofNat failed ++ " failed (of ".toList ++ Text.ofNat rs.length ++
        ")".toList)

def noFixtures (path : OsText) : Text :=
  line ("no ".toList ++ FixtureFile.extension ++ " files found in ".toList ++ path.shown)

def unmetRequest (s : Suite) (request : Text) : Text :=
  line ("warning: category '".toList ++ request ++ "' not found (available: ".toList ++
    Text.join ", ".toList (s.categories.map categoryName) ++ ")".toList)

def exitCode (rs : List FixtureRun) : Nat := if rs.all FixtureRun.passed then 0 else 1

/-- The verdict on files that were run, given what is printed before the failures. -/
def verdict (color : Bool) (progress : Text) (rs : List FixtureRun) : Verdict :=
  ⟨progress ++ failures rs ++ summary color rs, exitCode rs⟩

def categoryLines (toml : Toml.Reader) (d : Disk) (color : Bool) (c : Text × List FixtureFile) :
    Text :=
  heading color c.1 ++ (c.2.map (FixtureRun.ofFile toml d)).flatMap (runLine color)

def runSuite (toml : Toml.Reader) (d : Disk) (color : Bool) (rs : List Text) (s : Suite) :
    Verdict :=
  let warnings := (s.unmet rs).flatMap (unmetRequest s)
  let selected := s.select rs
  if selected.isEmpty then ⟨warnings ++ line "no matching categories found".toList, 1⟩
  else
    verdict color (warnings ++ selected.flatMap (categoryLines toml d color))
      (selected.files.map (FixtureRun.ofFile toml d))

def run (toml : Toml.Reader) (d : Disk) (path : OsText) (color : Bool) (rs : List Text) :
    Verdict :=
  match FixtureTarget.ofPath d path with
  | .file f => verdict color (runLine color (.ofFile toml d f)) [.ofFile toml d f]
  | .suite s => if s.isEmpty then ⟨noFixtures path, 1⟩ else runSuite toml d color rs s

def categoryCount (c : Text × List FixtureFile) : Text :=
  line ("  ".toList ++ categoryName c.1 ++ " (".toList ++ Text.ofNat c.2.length ++
    " cases)".toList)

def list (d : Disk) (path : OsText) : Text :=
  match FixtureTarget.ofPath d path with
  | .file _ => line "(single file, no categories)".toList
  | .suite s =>
    if s.isEmpty then noFixtures path
    else line "available categories:".toList ++ s.flatMap categoryCount

end Report

end TemplateBlocks
