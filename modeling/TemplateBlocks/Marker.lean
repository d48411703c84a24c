import TemplateBlocks.Text.Blank
import TemplateBlocks.Text.Match

/-!
# Block markers

A block is bracketed by two comments, in one of two dialects:

- directive: `<!-- @block:NAME -->` and `<!-- @endblock:NAME -->`, with a name free of blanks;
- banner: `<!-- NAME -->` and `<!-- EO NAME -->`, with a name of capitals, digits, `_` and
  spaces that begins with a capital and has at least two characters.

This module reads single markers at the start of a text, either with any name or with a
given one. Blanks inside a directive are optional; a banner needs blanks on both sides of
its name.
-/

namespace TemplateBlocks

inductive Dialect
  | directive
  | banner
  deriving DecidableEq, Repr

def Dialect.word : Dialect → Text
  | directive => "directive".toList
  | banner => "banner".toList

/-- A block's name for a marker's name: in a banner, spaces stand for underscores. -/
def Dialect.blockName (d : Dialect) (name : Text) : Text :=
  match d with
  | directive => name
  | banner => name.replaceChar ' ' '_'

/-- The text by which a marker names a block: in a banner, underscores become spaces. -/
def Dialect.markerName (d : Dialect) (name : Text) : Text :=
  match d with
  | directive => name
  | banner => name.replaceChar '_' ' '

namespace Marker

/-! ### Parts of a marker -/

def commentStart : Text := "<!--".toList

def commentEnd : Text := "-->".toList

def openWord : Text := "@block:".toList

def closeWord : Text := "@endblock:".toList

def endOf : Text := "EO".toList

def afterEnd? (s : Text) : Option Text := s.dropBlanks.after? commentEnd

def afterSpacedEnd? (s : Text) : Option Text := do
  let s ← s.dropBlanks1?
  s.after? commentEnd

def afterSpacedName? (lit : Text) : Text → Option Text
  | [] => none
  | c :: s =>
    if isBlank c then
      match Text.after? s lit >>= afterSpacedEnd? with
      | some rest => some rest
      | none => afterSpacedName? lit s
    else none

def afterDirective? (word s : Text) : Option Text := do
  let s ← s.after? commentStart
  s.dropBlanks.after? word

def isDirectiveChar (c : Char) : Bool := !isBlank c

def isBannerStart (c : Char) : Bool := 'A' ≤ c && c ≤ 'Z'

def isBannerChar (c : Char) : Bool := isBannerStart c || c.isDigit || c == ' ' || c == '_'

/-! ### Markers with any name -/

/-- Reads a directive with the keyword `word`; its value is the name, which is as short as it
can be. -/
def directive (word : Text) : Matcher Text := fun s => do
  let s ← afterDirective? word s
  s.shortest isDirectiveChar afterEnd?

def lastDirective (word : Text) : Matcher Text := fun s => do
  let s ← afterDirective? word s
  s.shortest isDirectiveChar fun t => (afterEnd? t).filter List.isEmpty

def banner : Matcher Text := fun s => do
  let s ← s.after? commentStart
  let (c, s) ← s.dropBlanks1? >>= Text.char? isBannerStart
  let (name, s) ← s.shortest isBannerChar afterSpacedEnd?
  return (c :: name, s)

def anyOpening : Dialect → Matcher Text
  | .directive => directive openWord
  | .banner => banner

/-! ### Markers of one block -/

def namedDirective (word name : Text) : Matcher Unit := fun s => do
  let s ← afterDirective? word s
  let s ← s.after? name >>= afterEnd?
  return ((), s)

def opening (d : Dialect) (name : Text) : Matcher Unit :=
  match d with
  | .directive => namedDirective openWord name
  | .banner => fun s => do
    let s ← s.after? commentStart >>= afterSpacedName? name
    return ((), s)

def closing (d : Dialect) (name : Text) : Matcher Unit :=
  match d with
  | .directive => namedDirective closeWord name
  | .banner => fun s => do
    let s ← s.after? commentStart >>= Text.dropBlanks1?
    let s ← s.after? endOf >>= afterSpacedName? name
    return ((), s)

def closingText (d : Dialect) (name : Text) : Text :=
  match d with
  | .directive => commentStart ++ " ".toList ++ closeWord ++ name ++ " ".toList ++ commentEnd
  | .banner => commentStart ++ " ".toList ++ endOf ++ " ".toList ++ name ++ " ".toList ++ commentEnd

/-! ### Markers are pieces of the text -/

theorem afterEnd?_suffix {s rest : Text} (h : afterEnd? s = some rest) : rest <:+ s :=
  (Text.suffix_of_after? h).trans (Text.dropBlanks_suffix s)

theorem afterSpacedEnd?_suffix {s rest : Text} (h : afterSpacedEnd? s = some rest) :
    rest <:+ s := by
  obtain ⟨t, ht, hrest⟩ := Option.bind_eq_some_iff.1 h
  exact (Text.suffix_of_after? hrest).trans (Text.dropBlanks1?_suffix ht)

theorem afterSpacedName?_suffix {lit s rest : Text} (h : afterSpacedName? lit s = some rest) :
    rest <:+ s := by
  induction s with
  | nil => simp [afterSpacedName?] at h
  | cons c s ih =>
    unfold afterSpacedName? at h
    split at h
    · split at h
      · rename_i found hfound
        obtain ⟨t, ht, hend⟩ := Option.bind_eq_some_iff.1 hfound
        simp only [Option.some.injEq] at h
        subst h
        have hs : found <:+ s := (afterSpacedEnd?_suffix hend).trans (Text.suffix_of_after? ht)
        exact hs.trans (List.suffix_cons c s)
      · exact (ih h).trans (List.suffix_cons c s)
    · simp at h

theorem afterDirective?_suffix {word s rest : Text} (h : afterDirective? word s = some rest) :
    rest <:+ s := by
  obtain ⟨t, ht, hrest⟩ := Option.bind_eq_some_iff.1 h
  exact ((Text.suffix_of_after? hrest).trans (Text.dropBlanks_suffix t)).trans
    (Text.suffix_of_after? ht)

theorem directive_leavesSuffix (word : Text) : (directive word).LeavesSuffix := by
  intro s name rest h
  obtain ⟨t, ht, hrun⟩ := Option.bind_eq_some_iff.1 h
  have hend := Text.shortest_leavesSuffix (fun _ _ => afterEnd?_suffix) _ _ _ hrun
  exact hend.trans (afterDirective?_suffix ht)

theorem banner_leavesSuffix : banner.LeavesSuffix := by
  intro s name rest h
  obtain ⟨t, ht, h⟩ := Option.bind_eq_some_iff.1 h
  obtain ⟨⟨c, u⟩, hu, h⟩ := Option.bind_eq_some_iff.1 h
  obtain ⟨⟨run, v⟩, hv, h⟩ := Option.bind_eq_some_iff.1 h
  simp only [Option.pure_def, Option.some.injEq, Prod.mk.injEq] at h
  obtain ⟨_, rfl⟩ := h
  obtain ⟨w, hw, hc⟩ := Option.bind_eq_some_iff.1 hu
  have h1 := Text.shortest_leavesSuffix (fun _ _ => afterSpacedEnd?_suffix) _ _ _ hv
  exact ((h1.trans (Text.char?_leavesSuffix _ _ _ _ hc)).trans (Text.dropBlanks1?_suffix hw)).trans
    (Text.suffix_of_after? ht)

theorem anyOpening_leavesSuffix (d : Dialect) : (anyOpening d).LeavesSuffix := by
  cases d with
  | directive => exact directive_leavesSuffix openWord
  | banner => exact banner_leavesSuffix

theorem namedDirective_leavesSuffix (word name : Text) :
    (namedDirective word name).LeavesSuffix := by
  intro s u rest h
  obtain ⟨t, ht, h⟩ := Option.bind_eq_some_iff.1 h
  obtain ⟨v, hv, h⟩ := Option.bind_eq_some_iff.1 h
  simp only [Option.pure_def, Option.some.injEq, Prod.mk.injEq] at h
  obtain ⟨_, rfl⟩ := h
  obtain ⟨w, hw, hend⟩ := Option.bind_eq_some_iff.1 hv
  exact ((afterEnd?_suffix hend).trans (Text.suffix_of_after? hw)).trans (afterDirective?_suffix ht)

theorem opening_leavesSuffix (d : Dialect) (name : Text) : (opening d name).LeavesSuffix := by
  cases d with
  | directive => exact namedDirective_leavesSuffix openWord name
  | banner =>
    intro s u rest h
    obtain ⟨t, ht, h⟩ := Option.bind_eq_some_iff.1 h
    simp only [Option.pure_def, Option.some.injEq, Prod.mk.injEq] at h
    obtain ⟨_, rfl⟩ := h
    obtain ⟨v, hv, hname⟩ := Option.bind_eq_some_iff.1 ht
    exact (afterSpacedName?_suffix hname).trans (Text.suffix_of_after? hv)

theorem closing_leavesSuffix (d : Dialect) (name : Text) : (closing d name).LeavesSuffix := by
  cases d with
  | directive => exact namedDirective_leavesSuffix closeWord name
  | banner =>
    intro s u rest h
    obtain ⟨t, ht, h⟩ := Option.bind_eq_some_iff.1 h
    obtain ⟨v, hv, h⟩ := Option.bind_eq_some_iff.1 h
    simp only [Option.pure_def, Option.some.injEq, Prod.mk.injEq] at h
    obtain ⟨_, rfl⟩ := h
    obtain ⟨w, hw, hblank⟩ := Option.bind_eq_some_iff.1 ht
    obtain ⟨x, hx, hname⟩ := Option.bind_eq_some_iff.1 hv
    exact (((afterSpacedName?_suffix hname).trans (Text.suffix_of_after? hx)).trans
      (Text.dropBlanks1?_suffix hblank)).trans (Text.suffix_of_after? hw)

end Marker

end TemplateBlocks
