import TemplateBlocks.OsText

/-!
# File trees

The files that a run can see: a tree of directories with a working directory in it. Paths
are resolved step by step as slashes separate them. An empty step and `.` stay, `..` goes up,
and each step needs a directory to start from.

Not every directory can be listed, and not every one lets names in it be looked up. A link is
taken for what it leads to.
-/

namespace TemplateBlocks

inductive Content
  | text (t : Text)
  | binary
  /-- A file that may not be read. -/
  | closed
  deriving DecidableEq, Repr

/-- What may be done with a directory. -/
structure Access where
  /-- Its names can be listed. -/
  listed : Bool
  /-- What its names lead to can be looked up. -/
  searched : Bool
  deriving DecidableEq, Repr

def Access.full : Access := ⟨true, true⟩

inductive FileTree
  | file (content : Content)
  | directory (access : Access) (entries : List (OsText × FileTree))

inductive ReadError
  | notFound
  | denied
  | notDirectory
  | isDirectory
  | nameTooLong
  /-- The path has a NUL character, which ends a path for the operating system. -/
  | nulInPath
  | notText
  deriving DecidableEq, Repr

def ReadError.message : ReadError → Text
  | notFound => "No such file or directory (os error 2)".toList
  | denied => "Permission denied (os error 13)".toList
  | notDirectory => "Not a directory (os error 20)".toList
  | isDirectory => "Is a directory (os error 21)".toList
  | nameTooLong => "File name too long (os error 36)".toList
  | nulInPath => "file name contained an unexpected NUL byte".toList
  | notText => "stream did not contain valid UTF-8".toList

namespace FileTree

def slash : OsChar := .char '/'

def here : OsText := Text.os ".".toList

def up : OsText := Text.os "..".toList

def steps (path : OsText) : List OsText := path.splitOn slash

/-- One step from the first of the trees, which is followed by the directories around it. -/
def step? (place : List FileTree) (name : OsText) : Except ReadError (List FileTree) :=
  match place with
  | [] => .error .notFound
  | file _ :: _ => .error .notDirectory
  | directory access entries :: outer =>
    if name.isEmpty then .ok place
    else if !access.searched then .error .denied
    else if name == here then .ok place
    else if name == up then .ok (if outer.isEmpty then place else outer)
    else if 255 < name.byteLength then .error .nameTooLong
    else match entries.lookup name with
      | none => .error .notFound
      | some t => .ok (t :: place)

/-- The entries with the tree at `name` changed by `f`, which is given nothing when the name is
new. -/
def change (name : OsText) (f : Option FileTree → FileTree) :
    List (OsText × FileTree) → List (OsText × FileTree)
  | [] => [(name, f none)]
  | (n, t) :: es => if n = name then (n, f (some t)) :: es else (n, t) :: change name f es

def access : FileTree → Access
  | file _ => .full
  | directory access _ => access

def entries : FileTree → List (OsText × FileTree)
  | file _ => []
  | directory _ es => es

/-- The directory with the tree at `name` changed by `f`. Where there is none, there is one then. -/
def changeIn (name : OsText) (f : Option FileTree → FileTree) (t : Option FileTree) : FileTree :=
  directory ((t.map access).getD .full) (change name f ((t.map entries).getD []))

def putFile (content : Content) : List OsText → Option FileTree → FileTree
  | [], _ => file content
  | name :: path, t => changeIn name (putFile content path) t

def putDirectory (access : Access) : List OsText → Option FileTree → FileTree
  | [], t => directory access ((t.map entries).getD [])
  | name :: path, t => changeIn name (putDirectory access path) t

def isAbsolute (path : OsText) : Bool := path.head? == some slash

/-- The names on the way to a path from the root, given the names to the directory it starts in. -/
def resolve (start : List OsText) (path : OsText) : List OsText :=
  let start := if isAbsolute path then [] else start
  (steps path).foldl (fun place name =>
    if name.isEmpty || name == here then place
    else if name == up then place.dropLast
    else place ++ [name]) start

/-- Goes to the entry of that name, whether or not it may be looked up. -/
def enter (place : List FileTree) (name : OsText) : List FileTree :=
  match place with
  | [] => []
  | t :: _ => match t.entries.lookup name with
    | none => []
    | some u => u :: place

end FileTree

structure Disk where
  root : FileTree
  workingDirectory : List OsText

namespace Disk

def empty (workingDirectory : List Text) : Disk :=
  let names := workingDirectory.map Text.os
  ⟨FileTree.putDirectory .full names none, names⟩

def addFile (d : Disk) (path : Text) (content : Content) : Disk :=
  { d with root := FileTree.putFile content (FileTree.resolve d.workingDirectory path.os) d.root }

def addDirectory (d : Disk) (path : Text) (access : Access) : Disk :=
  let names := FileTree.resolve d.workingDirectory path.os
  { d with root := FileTree.putDirectory access names d.root }

/-- Whether a path is short enough to be looked up. -/
def fits (path : OsText) : Bool := path.byteLength < 4096

/-- Where the steps of a path start: a tree, and the directories around it. -/
def start (d : Disk) (path : OsText) : List FileTree :=
  if FileTree.isAbsolute path then [d.root] else d.workingDirectory.foldl FileTree.enter [d.root]

def find? (d : Disk) (path : OsText) : Except ReadError FileTree := do
  if path.contains (.char '\x00') then throw .nulInPath
  if path.isEmpty then throw .notFound
  if !fits path then throw .nameTooLong
  match ← (FileTree.steps path).foldlM FileTree.step? (d.start path) with
  | [] => throw .notFound
  | t :: _ => return t

def read? (d : Disk) (path : OsText) : Except ReadError Text := do
  match ← d.find? path with
  | .file (.text t) => return t
  | .file .binary => throw .notText
  | .file .closed => throw .denied
  | .directory _ _ => throw .isDirectory

def list? (d : Disk) (path : OsText) : Except ReadError (List (OsText × FileTree)) := do
  match ← d.find? path with
  | .file _ => throw .notDirectory
  | .directory access entries => if access.listed then return entries else throw .denied

/-- Whether a directory is seen at a path. -/
def isDirectory (d : Disk) (path : OsText) : Bool :=
  match d.find? path with
  | .ok (.directory _ _) => true
  | _ => false

end Disk

end TemplateBlocks
