import TemplateBlocks.Marker.Enclosed

/-!
# Rewriting

Three operations on the text of a template: read the body of a block, replace it, and move
a block together with its markers. They work on marked stretches, so the markers need not
begin a line. Nothing outside the stretch changes, newlines next to a moved stretch apart.

A name is taken to be short enough to be searched for: that the pattern of its markers can exceed a
limit of the search is left out, and with it the error that says so.
-/

namespace TemplateBlocks

inductive RewriteError
  | blockNotFound (name : Text)
  | targetNotFound (name : Text)
  deriving DecidableEq, Repr

def RewriteError.message : RewriteError → Text
  | blockNotFound name => "block \"".toList ++ name ++ "\" not found".toList
  | targetNotFound name => "target block \"".toList ++ name ++ "\" not found".toList

/-- The dialect of a text: directive as soon as it has an opening directive anywhere. -/
def Dialect.ofText (s : Text) : Dialect :=
  if s.occurs (Marker.directive Marker.openWord) then .directive else .banner

/-! ### The body of a block -/

def newline : Text := ['\n']

def Text.stretch? (s name : Text) : Option (Text.Found Stretch) :=
  match Stretch.find? .directive name s with
  | some f => some f
  | none => Stretch.find? .banner name s

def Stretch.content (st : Stretch) : Text := (st.body.dropStart newline).dropEnd newline

def body? (s name : Text) : Option Text := (s.stretch? name).map fun f => f.value.content

/-- The stretch with another body, each marker on the far side of a newline. -/
def Stretch.withBody (st : Stretch) (body : Text) : Stretch :=
  { st with body := newline ++ body ++ newline }

def replaceBody (s name body : Text) : Except RewriteError Text :=
  match s.stretch? name with
  | none => .error (.blockNotFound name)
  | some f => .ok (f.before ++ (f.value.withBody body).text ++ f.rest)

/-! ### Moving a block -/

/-- The text around a stretch that was taken out. One newline on each side goes with the stretch,
and a newline joins the two sides unless one of them is empty. -/
def joined (before rest : Text) : Text :=
  let before := before.dropEnd newline
  let rest := rest.dropStart newline
  if before.isEmpty || rest.isEmpty then before ++ rest else before ++ newline ++ rest

def insertFront? (d : Dialect) (stretch s : Text) : Option Text :=
  (s.find (Marker.anyOpening d)).map fun f => f.before ++ stretch ++ newline ++ f.matched ++ f.rest

def insertAfter? (d : Dialect) (target stretch s : Text) : Option Text :=
  (s.find (Marker.closing d (d.markerName target))).map fun f =>
    f.before ++ f.matched ++ newline ++ stretch ++ f.rest

/-- Moves the block called `name` behind the block called `after`, or to the front when there is
no such name or it is empty. A block moved behind itself stays, and so does the only block when
it is moved to the front. -/
def moveBlock (s name : Text) (after : Option Text) : Except RewriteError Text :=
  let d := Dialect.ofText s
  match Stretch.find? d name s with
  | none => .error (.blockNotFound name)
  | some f =>
    let without := joined f.before f.rest
    match after.filter (!·.isEmpty) with
    | none => .ok ((insertFront? d f.matched without).getD s)
    | some target =>
      if target = name then .ok s
      else match insertAfter? d target f.matched without with
        | none => .error (.targetNotFound target)
        | some moved => .ok moved

end TemplateBlocks
