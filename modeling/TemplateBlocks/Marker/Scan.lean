import TemplateBlocks.Block
import TemplateBlocks.Lines
import TemplateBlocks.Marker

/-!
# Delimited blocks

A marker counts here when it begins its line, blanks aside. Each line yields marker events,
and the events are paired in order: a closing marker ends the nearest open marker of the
same dialect and name. So blocks of different names may overlap, blocks of one name nest,
and a closing marker with nothing to close is ignored.

The result holds the blocks in the order of their first lines and the open markers that
nothing closed.
-/

namespace TemplateBlocks

/-! ### Marker events -/

structure MarkerKey where
  dialect : Dialect
  name : Text
  deriving DecidableEq, Repr

inductive MarkerEvent
  | opens (key : MarkerKey)
  | closes (key : MarkerKey)
  deriving DecidableEq, Repr

def MarkerEvent.key : MarkerEvent → MarkerKey
  | opens key => key
  | closes key => key

namespace MarkerEvent

/-- The event of a banner with the given name: after the word `EO` the name is one to close. -/
def ofBanner (name : Text) : MarkerEvent :=
  match name.after? (Marker.endOf ++ " ".toList) with
  | some closed => closes ⟨.banner, closed⟩
  | none => opens ⟨.banner, name⟩

/-- The events of a line without blanks at its ends.

An opening directive may be followed by a closing one at the end of the same line. A closing
directive may be followed by anything. A banner has the line to itself. -/
def ofLine (line : Text) : List MarkerEvent :=
  match Marker.directive Marker.openWord line with
  | some (name, rest) =>
    let ends := rest.find (Marker.lastDirective Marker.closeWord)
    opens ⟨.directive, name⟩ :: (ends.map fun f => closes ⟨.directive, f.value⟩).toList
  | none =>
    match Marker.directive Marker.closeWord line with
    | some (name, _) => [closes ⟨.directive, name⟩]
    | none =>
      match Marker.banner line with
      | some (name, []) => [ofBanner name.trim]
      | _ => []

def ofLines (ls : List Text) : List (MarkerEvent × Nat) :=
  (Lines.numbered ls).flatMap fun (line, n) => (ofLine line.trim).map fun e => (e, n)

end MarkerEvent

/-! ### Pairing -/

structure OpenMarker where
  key : MarkerKey
  line : Nat
  deriving DecidableEq, Repr

structure MarkerPair where
  key : MarkerKey
  start : Nat
  stop : Nat
  deriving DecidableEq, Repr

def MarkerPair.block (p : MarkerPair) : Block :=
  { name := p.key.dialect.blockName p.key.name, kind := .delimited, start := p.start, stop := p.stop }

def takeOpen (key : MarkerKey) : List OpenMarker → Option (OpenMarker × List OpenMarker)
  | [] => none
  | m :: ms =>
    if m.key = key then some (m, ms)
    else (takeOpen key ms).map fun (found, others) => (found, m :: others)

/-- Pairs the events in order, given the markers that are open, the latest first: the pairs in
the order of their ends, and the markers that stay open. -/
def pairMarkers : List (MarkerEvent × Nat) → List OpenMarker → List MarkerPair × List OpenMarker
  | [], pending => ([], pending)
  | (.opens key, n) :: es, pending => pairMarkers es (⟨key, n⟩ :: pending)
  | (.closes key, n) :: es, pending =>
    match takeOpen key pending with
    | none => pairMarkers es pending
    | some (m, others) =>
      let (pairs, left) := pairMarkers es others
      (⟨key, m.line, n⟩ :: pairs, left)

/-! ### The scan of a text -/

structure Scan where
  blocks : List Block
  unclosed : List OpenMarker
  deriving DecidableEq, Repr

def Scan.ofLines (ls : List Text) : Scan :=
  let (pairs, left) := pairMarkers (MarkerEvent.ofLines ls) []
  ⟨Block.sort (pairs.map MarkerPair.block), left.reverse⟩

def Scan.ofText (s : Text) : Scan := Scan.ofLines s.lines

/-! ### Outermost blocks -/

def Block.coveredBy (kept : Option Block) (b : Block) : Bool := kept.any (·.contains b)

def Block.outermostAfter (last : Option Block) : List Block → List Block
  | [] => []
  | b :: bs =>
    if b.coveredBy last then Block.outermostAfter last bs
    else b :: Block.outermostAfter (some b) bs

/-- The blocks that are not nested in an earlier kept block. A nested block moves with the
block around it and has no place of its own in an order. -/
def Block.outermost (bs : List Block) : List Block := Block.outermostAfter none bs

theorem Block.outermostAfter_sublist (last : Option Block) (bs : List Block) :
    (Block.outermostAfter last bs).Sublist bs := by
  induction bs generalizing last with
  | nil => simp [Block.outermostAfter]
  | cons b bs ih =>
    unfold Block.outermostAfter
    split
    · exact (ih last).cons b
    · exact (ih (some b)).cons_cons b

end TemplateBlocks
