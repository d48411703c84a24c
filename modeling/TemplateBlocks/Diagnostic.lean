import TemplateBlocks.Marker.Scan

/-!
# Diagnostics

A diagnostic is a warning about a template with the places it concerns. An open marker that
nothing closes gives a notice, which says what marker would close it.
-/

namespace TemplateBlocks

structure DiagnosticLabel where
  fileId : Nat
  span : Span
  message : Text := []
  deriving DecidableEq, Repr

structure Diagnostic where
  code : Option Text := none
  message : Text
  labels : List DiagnosticLabel := []
  notes : List Text := []
  deriving DecidableEq, Repr

structure Notice where
  message : Text
  span : Span
  fileId : Nat
  line : Nat
  notes : List Text
  deriving DecidableEq, Repr

/-- The notice as a diagnostic that points at the place without a message of its own. -/
def Notice.diagnostic (n : Notice) : Diagnostic :=
  { message := n.message, labels := [{ fileId := n.fileId, span := n.span }], notes := n.notes }

def quotedName (name : Text) : Text := "`".toList ++ name ++ "`".toList

def OpenMarker.notice (ls : List Text) (fileId : Nat) (m : OpenMarker) : Notice :=
  let closing := Marker.closingText m.key.dialect m.key.name
  { message := "block ".toList ++ quotedName m.key.name ++ " is never closed".toList
    span := Lines.span ls m.line m.line
    fileId := fileId
    line := m.line
    notes :=
      ["expected a matching ".toList ++ quotedName closing ++ "; the marker is ignored".toList] }

def Notice.ofText (fileId : Nat) (s : Text) : List Notice :=
  let ls := s.lines
  (Scan.ofLines ls).unclosed.map (OpenMarker.notice ls fileId)

end TemplateBlocks
