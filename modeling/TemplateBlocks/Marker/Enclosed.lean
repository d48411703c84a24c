import TemplateBlocks.Marker

/-!
# Marked stretches

A stretch is a piece of text from an opening marker to the first closing marker behind it
that belongs to it, wherever in the text the two stand. Rewriting works on stretches, and
they are the blocks of a text in which no marker begins a line.
-/

namespace TemplateBlocks

structure Stretch where
  name : Text
  opening : Text
  body : Text
  closing : Text
  deriving DecidableEq, Repr

namespace Stretch

def text (st : Stretch) : Text := st.opening ++ st.body ++ st.closing

/-- Reads a stretch: an opening marker and everything up to the end of the first marker
behind it that closes the name read. -/
def reader (opening : Matcher Text) (closing : Text → Matcher Unit) : Matcher Stretch := fun s => do
  let (name, inner) ← opening s
  let close ← inner.find (closing name)
  return (⟨name, s.upTo inner, close.before, close.matched⟩, close.rest)

def named (d : Dialect) (name : Text) : Matcher Stretch :=
  reader (fun s => (Marker.opening d name s).map fun r => (name, r.2)) (Marker.closing d)

def any (d : Dialect) : Matcher Stretch := reader (Marker.anyOpening d) (Marker.closing d)

def find? (d : Dialect) (name s : Text) : Option (Text.Found Stretch) :=
  s.find (named d (d.markerName name))

theorem reader_eq_append {opening : Matcher Text} {closing : Text → Matcher Unit}
    (ho : opening.LeavesSuffix) (hc : ∀ name, (closing name).LeavesSuffix) {s rest : Text}
    {st : Stretch} (h : reader opening closing s = some (st, rest)) : s = st.text ++ rest := by
  obtain ⟨⟨name, inner⟩, hopen, h⟩ := Option.bind_eq_some_iff.1 h
  obtain ⟨close, hclose, h⟩ := Option.bind_eq_some_iff.1 h
  simp only [Option.pure_def, Option.some.injEq, Prod.mk.injEq] at h
  obtain ⟨rfl, rfl⟩ := h
  obtain ⟨start, rfl⟩ := ho _ _ _ hopen
  have hinner := Text.find_eq_append (hc name) hclose
  have hup : Text.upTo (start ++ inner) inner = start := Text.upTo_append start inner
  simp only [text, hup, List.append_assoc] at hinner ⊢
  exact congrArg (start ++ ·) hinner

theorem reader_leavesSuffix {opening : Matcher Text} {closing : Text → Matcher Unit}
    (ho : opening.LeavesSuffix) (hc : ∀ name, (closing name).LeavesSuffix) :
    (reader opening closing).LeavesSuffix := by
  intro s st rest h
  exact ⟨st.text, (reader_eq_append ho hc h).symm⟩

theorem named_leavesSuffix (d : Dialect) (name : Text) : (named d name).LeavesSuffix := by
  refine reader_leavesSuffix (fun s n rest h => ?_) (Marker.closing_leavesSuffix d)
  obtain ⟨⟨u, t⟩, ht, heq⟩ := Option.map_eq_some_iff.1 h
  simp only [Prod.mk.injEq] at heq
  obtain ⟨_, rfl⟩ := heq
  exact Marker.opening_leavesSuffix d name _ _ _ ht

theorem any_leavesSuffix (d : Dialect) : (any d).LeavesSuffix :=
  reader_leavesSuffix (Marker.anyOpening_leavesSuffix d) (Marker.closing_leavesSuffix d)

theorem find?_eq_append {d : Dialect} {name s : Text} {f : Text.Found Stretch}
    (h : find? d name s = some f) : s = f.before ++ f.matched ++ f.rest :=
  Text.find_eq_append (named_leavesSuffix d _) h

end Stretch

/-! ### The marked blocks of a text -/

structure MarkedBlock where
  name : Text
  body : Text
  deriving DecidableEq, Repr

def Stretch.marked (d : Dialect) (st : Stretch) : MarkedBlock :=
  match d with
  | .directive => ⟨st.name, st.body⟩
  | .banner => ⟨d.blockName st.name.trim, st.body⟩

/-- The stretches of one dialect from left to right, none inside or across another. An opening
marker that nothing closes is passed over. -/
def MarkedBlock.allOf (d : Dialect) (s : Text) : List MarkedBlock :=
  (s.allMatches (Stretch.any d)).map (Stretch.marked d)

/-- The marked blocks of a text: those of the directives, or those of the banners when no
directive makes a block. -/
def MarkedBlock.all (s : Text) : List MarkedBlock :=
  match MarkedBlock.allOf .directive s with
  | [] => MarkedBlock.allOf .banner s
  | found => found

end TemplateBlocks
