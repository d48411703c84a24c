import TemplateBlocks.Fixture
import TemplateBlocks.NameSet

/-!
# Fixture suites

The fixtures of a directory, grouped by category. The category of a fixture is the directory
it lies in, relative to the directory of the suite. Categories, and the fixtures of each, are
sorted by name.

A request names a category and means everything below it too; the empty request means the
fixtures in the directory of the suite itself.
-/

namespace TemplateBlocks

structure FixtureFile where
  folders : List OsText
  name : OsText
  path : OsText
  deriving DecidableEq, Repr

namespace FixtureFile

def extension : Text := ".case.php".toList

/-- The category of the file; a backslash in a name reads as a slash. -/
def category (f : FixtureFile) : Text :=
  (Text.join ['/'] (f.folders.map OsText.shown)).replaceChar '\\' '/'

def title (f : FixtureFile) : Text :=
  match f.name.text? with
  | none => "?".toList
  | some name => Text.dropEnds extension name

def steps (f : FixtureFile) : List OsText := f.folders ++ [f.name]

/-- The fixture at a path, when its name is a text that ends as the name of a fixture does. -/
def ofName (folders : List OsText) (name path : OsText) : List FixtureFile :=
  if name.text?.any (·.endsWith extension) then [⟨folders, name, path⟩] else []

def sort (fs : List FixtureFile) : List FixtureFile :=
  fs.mergeSort fun a b => !dictionary OsText.before b.steps a.steps

end FixtureFile

/-! ### Finding fixtures -/

def joinPath (path name : OsText) : OsText :=
  if path.getLast? == some FileTree.slash then path ++ name else path ++ FileTree.slash :: name

mutual

/-- The fixtures from an entry of a directory on, where `searched` says whether it may be looked up.
What cannot be looked up is not known to be a directory, and a directory that cannot be listed is
passed over. -/
def FileTree.fixtures (searched : Bool) (folders : List OsText) (name path : OsText) :
    FileTree → List FixtureFile
  | .file _ => FixtureFile.ofName folders name path
  | .directory access entries =>
    if searched && Disk.fits path then
      if access.listed then
        FileTree.fixturesIn access.searched (folders ++ [name]) path entries
      else []
    else FixtureFile.ofName folders name path

def FileTree.fixturesIn (searched : Bool) (folders : List OsText) (path : OsText) :
    List (OsText × FileTree) → List FixtureFile
  | [] => []
  | (name, tree) :: entries =>
    tree.fixtures searched folders name (joinPath path name) ++
      FileTree.fixturesIn searched folders path entries

end

/-- The fixtures below a path of the disk. -/
def Disk.fixtures (d : Disk) (path : OsText) : List FixtureFile :=
  match d.find? path with
  | .ok (.directory access entries) =>
    if access.listed then FileTree.fixturesIn access.searched [] path entries else []
  | _ => []

/-! ### Suites -/

abbrev Suite := List (Text × List FixtureFile)

namespace Suite

def ofFiles (fs : List FixtureFile) : Suite :=
  (NameSet.ofList (fs.map FixtureFile.category)).toList.map fun c =>
    (c, FixtureFile.sort (fs.filter fun f => f.category == c))

def categories (s : Suite) : List Text := s.map fun c => c.1

def trimRequest (request : Text) : Text :=
  Text.dropEndWhile (· == '/') (request.dropWhile (· == '/'))

/-- Whether a request means a category: the same one, or one above it. -/
def requests (request category : Text) : Bool :=
  category == request || category.startsWith (request ++ "/".toList)

def unmet (s : Suite) (rs : List Text) : List Text :=
  (rs.map trimRequest).filter fun r => !s.categories.any (requests r)

/-- The categories that some request means; all of them when nothing is requested. -/
def select (s : Suite) (rs : List Text) : Suite :=
  if rs.isEmpty then s else s.filter fun c => rs.any fun r => requests (trimRequest r) c.1

def files (s : Suite) : List FixtureFile := s.flatMap fun c => c.2

end Suite

/-! ### What a path names -/

inductive FixtureTarget
  | file (f : FixtureFile)
  | suite (s : Suite)

namespace FixtureTarget

def baseName (path : OsText) : OsText :=
  ((FileTree.steps path).filter fun n => !n.isEmpty && n != FileTree.here).getLast?.getD path

/-- What there is to run at a path of the disk. Where nothing is, the suite is empty. -/
def ofPath (d : Disk) (path : OsText) : FixtureTarget :=
  match d.find? path with
  | .ok (.file _) => file ⟨[], baseName path, path⟩
  | _ => suite (Suite.ofFiles (d.fixtures path))

end FixtureTarget

end TemplateBlocks
