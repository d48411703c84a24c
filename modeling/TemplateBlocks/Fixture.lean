import TemplateBlocks.FileTree
import TemplateBlocks.Fixture.Expectation
import TemplateBlocks.Fixture.FrontMatter
import TemplateBlocks.Outline
import TemplateBlocks.Reorder

/-!
# Fixtures

A fixture is a template with front matter that says what to expect of it. It passes when
every expectation holds; otherwise the first that does not hold is reported. The expectations
are taken in order: the markers, the blocks, the moves, the new orders. What reads the TOML of the
front matter is left to who runs the fixture.
-/

namespace TemplateBlocks

/-! ### Expectations that do not hold -/

inductive Mismatch
  | delimited (expected actual : Bool)
  | blocks (expected actual : List Text)
  | move (expected : ExpectedMove) (actual : List Hazard)
  | order (expected : ExpectedOrder) (actual : List Hazard)
  deriving DecidableEq, Repr

namespace Fixture

def describe (name : Text) (start stop : Nat) (movable : Bool) : Text :=
  name ++ " L".toList ++ Text.ofNat start ++ "-".toList ++ Text.ofNat stop ++
    (if movable then " movable".toList else " fixed".toList)

def describeExpected (b : ExpectedBlock) : Text :=
  describe b.name b.start (b.stop.getD b.start) b.movable

def describeActual (b : Block) : Text := describe b.name b.start b.stop b.movable

/-- The translation of a key by a list of translations, in which the first of a key counts. -/
def translation (strings : List (Text × Text)) : Label.Translation := fun key => strings.lookup key

def checkDelimited (e : Expectation) (o : Outline) : Except Mismatch Unit :=
  match e.delimited with
  | none => .ok ()
  | some b => if b = o.delimited then .ok () else .error (.delimited b o.delimited)

def checkBlocks (e : Expectation) (o : Outline) : Except Mismatch Unit :=
  match e.blocks with
  | none => .ok ()
  | some bs =>
    let expected := bs.map describeExpected
    let actual := o.blocks.map describeActual
    if actual = expected then .ok () else .error (.blocks expected actual)

def checkMoveCase (source : Text) (m : ExpectedMove) : Except Mismatch Unit :=
  let actual := checkMove source m.block m.after
  if actual = m.hazards then .ok () else .error (.move m actual)

def checkOrderCase (source : Text) (r : ExpectedOrder) : Except Mismatch Unit :=
  let actual := checkReorder source r.original r.new
  if actual = r.hazards then .ok () else .error (.order r actual)

def check (e : Expectation) (source : Text) : Except Mismatch Unit := do
  let o := Outline.ofText (translation e.strings) source
  checkDelimited e o
  checkBlocks e o
  e.moves.forM (checkMoveCase source)
  e.orders.forM (checkOrderCase source)

end Fixture

/-! ### The mismatch in words -/

def itemLines (items : List Text) : Text :=
  if items.isEmpty then "    (none)".toList
  else Text.join ['\n'] (items.map ("    - ".toList ++ ·))

def Hazard.item (h : Hazard) : Text :=
  h.direction.word ++ " ".toList ++ h.block ++ " [".toList ++ Text.join ", ".toList h.names ++
    "]".toList

def comparison (what : Text) (expected actual : List Text) : Text :=
  "\n  expected".toList ++ what ++ ":\n".toList ++ itemLines expected ++
    "\n  actual".toList ++ what ++ ":\n".toList ++ itemLines actual

def hazardComparison (expected actual : List Hazard) : Text :=
  comparison " warnings".toList (expected.map Hazard.item) (actual.map Hazard.item)

def truthWord (b : Bool) : Text := if b then "true".toList else "false".toList

def Mismatch.message : Mismatch → Text
  | delimited expected actual =>
    "expected has_delimiters = ".toList ++ truthWord expected ++ ", got ".toList ++ truthWord actual
  | blocks expected actual => "block mismatch".toList ++ comparison [] expected actual
  | move m actual =>
    let target :=
      if m.after.isEmpty then "the front".toList else "after ".toList ++ quotedName m.after
    "move ".toList ++ quotedName m.block ++ " to ".toList ++ target ++
      hazardComparison m.hazards actual
  | order r actual =>
    "reorder [".toList ++ Text.join ", ".toList r.original ++ "] -> [".toList ++
      Text.join ", ".toList r.new ++ "]".toList ++ hazardComparison r.hazards actual

/-! ### Running a fixture -/

inductive FixtureFailure
  | unreadable (e : ReadError)
  | frontMatter (p : FrontMatter.Problem)
  | mismatch (m : Mismatch)
  deriving DecidableEq, Repr

def FixtureFailure.message : FixtureFailure → Text
  | unreadable e => "cannot read file: ".toList ++ e.message
  | frontMatter p => "front matter error: ".toList ++ p.message
  | mismatch m => m.message

structure FixtureResult where
  description : Option Text
  failure : Option FixtureFailure
  deriving DecidableEq, Repr

namespace Fixture

def read (toml : Toml.Reader) (s : Text) : Except FrontMatter.Problem (Expectation × Text) := do
  let (front, source) ← FrontMatter.split s
  match toml front >>= Expectation.ofToml? with
  | none => .error .malformed
  | some e => .ok (e, source)

/-- Runs a fixture whose front matter `toml` reads. -/
def runWith (toml : Toml.Reader) (s : Text) : FixtureResult :=
  match read toml s with
  | .error p => ⟨none, some (.frontMatter p)⟩
  | .ok (e, source) =>
    match check e source with
    | .error m => ⟨e.description, some (.mismatch m)⟩
    | .ok () => ⟨e.description, none⟩

/-- Runs the fixture at a path of the disk. -/
def runAt (toml : Toml.Reader) (d : Disk) (path : OsText) : FixtureResult :=
  match d.read? path with
  | .error e => ⟨none, some (.unreadable e)⟩
  | .ok s => runWith toml s

end Fixture

end TemplateBlocks
