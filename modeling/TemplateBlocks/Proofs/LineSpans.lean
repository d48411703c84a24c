import Mathlib.Data.Nat.PSub
import TemplateBlocks.Proofs.LineText

/-!
# Byte spans of lines

A span of lines is computed from the lengths of the lines before it, and the text of the lines is
joined from the lines themselves. In the bytes of the whole text they are the same stretch
(`span_bytes`), which begins where a line begins and ends where this line or a later one ends, and
computing it looks up no line that is not there.
-/

namespace TemplateBlocks

/-! ### Bytes -/

namespace Text

/-- The text in UTF-8. -/
def bytes (s : Text) : List UInt8 := s.flatMap String.utf8EncodeChar

@[simp] theorem bytes_append (s t : Text) : (s ++ t).bytes = s.bytes ++ t.bytes :=
  List.flatMap_append

@[simp] theorem length_bytes (s : Text) : s.bytes.length = s.byteLength := by
  induction s with
  | nil => rfl
  | cons c s ih =>
    have hbytes : bytes (c :: s) = String.utf8EncodeChar c ++ bytes s := List.flatMap_cons
    rw [hbytes, List.length_append, ih, String.length_utf8EncodeChar, byteLength]

theorem join_append {ls ms : List Text} (h : ms ≠ []) :
    join ['\n'] (ls ++ ms) = terminated ls ++ join ['\n'] ms := by
  obtain ⟨m, ms, rfl⟩ := List.exists_cons_of_ne_nil h
  rw [join_append_cons, join_cons, List.append_assoc]

end Text

/-- The bytes of a text between two offsets. -/
def Span.bytesOf (sp : Span) (s : Text) : List UInt8 := (s.bytes.take sp.stop).drop sp.start

theorem Span.bytesOf_eq {sp : Span} {before covered : Text} (behind : Text)
    (hstart : sp.start = before.byteLength) (hstop : sp.stop = (before ++ covered).byteLength) :
    sp.bytesOf (before ++ covered ++ behind) = covered.bytes := by
  have htake : ((before ++ covered).bytes ++ behind.bytes).take (before ++ covered).byteLength =
      (before ++ covered).bytes :=
    List.take_left' (Text.length_bytes (before ++ covered))
  rw [bytesOf, hstart, hstop, Text.bytes_append, htake, Text.bytes_append,
    List.drop_left' (Text.length_bytes before)]

namespace Lines

variable {ls : List Text} {start stop i j : Nat}

/-! ### Offsets -/

theorem offset_eq (h : i ≤ ls.length) : offset ls i = (Text.terminated (ls.take i)).byteLength := by
  induction ls generalizing i with
  | nil =>
    obtain rfl : i = 0 := Nat.le_zero.1 h
    rfl
  | cons l ls ih =>
    cases i with
    | zero => rfl
    | succ i =>
      have hnewline : Text.byteLength ['\n'] = 1 := rfl
      rw [offset, ih (Nat.le_of_succ_le_succ h), List.take_succ_cons, Text.terminated_cons,
        ← List.singleton_append, Text.byteLength_append, Text.byteLength_append, hnewline,
        Nat.add_assoc]

theorem offset_lt (hij : i < j) (hj : j ≤ ls.length) : offset ls i < offset ls j := by
  induction ls generalizing i j with
  | nil => exact absurd hij (by simp only [List.length_nil] at hj; omega)
  | cons l ls ih =>
    obtain ⟨k, rfl⟩ := Nat.exists_eq_add_one_of_ne_zero (Nat.ne_zero_of_lt hij)
    have hk := Nat.le_of_succ_le_succ hj
    cases i with
    | zero => simp only [offset]; omega
    | succ i =>
      have hrest := ih (Nat.lt_of_succ_lt_succ hij) hk
      simp only [offset]
      omega

/-- A line goes on behind its offset up to where it and the lines before it, joined, end. -/
theorem offset_add_line (h : i < ls.length) : offset ls i + (ls.getD i []).byteLength =
    (Text.join ['\n'] (ls.take (i + 1))).byteLength := by
  rw [offset_eq (Nat.le_of_lt h), List.getD_eq_getElem?_getD, List.getElem?_eq_getElem h,
    Option.getD_some, List.take_succ_eq_append_getElem h, Text.join_append (List.cons_ne_nil _ _),
    Text.byteLength_append, Text.join]

/-! ### Spans of lines that are there -/

theorem take_eq_append_slice (ls : List Text) (h : start ≤ stop) :
    ls.take stop = ls.take (start - 1) ++ slice ls start stop := by
  have hmin : min (start - 1) stop = start - 1 := by omega
  have hfront : (ls.take stop).take (start - 1) = ls.take (start - 1) := by
    rw [List.take_take, hmin]
  rw [slice, ← hfront, List.take_append_drop]

theorem slice_ne_nil (hpos : 1 ≤ start) (hstart : start ≤ ls.length) (hstop : start ≤ stop) :
    slice ls start stop ≠ [] := by
  rw [← List.length_pos_iff, slice, List.length_drop, List.length_take]
  omega

/-- Line `start` begins behind the lines before it, and the lines from there on end the span. -/
theorem span_eq (hpos : 1 ≤ start) (hstart : start ≤ ls.length) (hstop : start ≤ stop) :
    span ls start stop = ⟨(Text.terminated (ls.take (start - 1))).byteLength,
      (Text.terminated (ls.take (start - 1)) ++ text ls start stop).byteLength⟩ := by
  have hne : ls.isEmpty = false := by
    rw [List.isEmpty_eq_false_iff, ← List.length_pos_iff]
    omega
  have hfirst : min (start - 1) (ls.length - 1) = start - 1 := by omega
  have hlast : min (max stop (start - 1 + 1)) ls.length - 1 = min stop ls.length - 1 := by omega
  have hsucc : min stop ls.length - 1 + 1 = min stop ls.length := by omega
  have hend := offset_add_line (show min stop ls.length - 1 < ls.length by omega)
  rw [hsucc, ← List.take_take, List.take_length] at hend
  rw [span, hne, if_neg Bool.false_ne_true]
  simp only [hfirst, hlast]
  rw [hend, offset_eq (by omega), take_eq_append_slice ls hstop,
    Text.join_append (slice_ne_nil hpos hstart hstop), text]

/-- Numbers out of range stand for the nearest ones in range. -/
theorem span_clamped (ls : List Text) (start stop : Nat) :
    span ls start stop = span ls (min (start - 1) (ls.length - 1) + 1)
      (max stop (min (start - 1) (ls.length - 1) + 1)) := by
  have hfirst : min (min (start - 1) (ls.length - 1) + 1 - 1) (ls.length - 1) =
      min (start - 1) (ls.length - 1) := by
    omega
  simp only [span, hfirst, Nat.max_assoc, Nat.max_self]

/-! ### Looking up what a span needs -/

/-- The offsets at which the lines start, that of the first one given. -/
def offsetsFrom (first : Nat) : List Text → List Nat
  | [] => []
  | l :: ls => first :: offsetsFrom (first + l.byteLength + 1) ls

/-- The value nearest to `n` within bounds, which must not cross. -/
def clamp? (n low high : Nat) : Option Nat :=
  if low ≤ high then some (max low (min n high)) else none

/-- The span with every step that can fail: the bounds of a range may cross, a number may have no
predecessor, and a line or an offset may be missing. -/
def span? (ls : List Text) (start stop : Nat) : Option Span :=
  if ls.isEmpty then some ⟨0, 0⟩
  else do
    let first := min (start - 1) (ls.length - 1)
    let last ← (← clamp? stop (first + 1) ls.length).ppred
    let begins ← (offsetsFrom 0 ls)[first]?
    let ends ← (offsetsFrom 0 ls)[last]?
    let l ← ls[last]?
    return ⟨begins, ends + l.byteLength⟩

theorem getElem?_offsetsFrom (n : Nat) (h : i < ls.length) :
    (offsetsFrom n ls)[i]? = some (n + offset ls i) := by
  induction ls generalizing n i with
  | nil => exact absurd h (Nat.not_lt_zero i)
  | cons l ls ih =>
    cases i with
    | zero => rfl
    | succ i =>
      rw [offsetsFrom, List.getElem?_cons_succ, ih _ (Nat.lt_of_succ_lt_succ h), offset]
      simp only [Nat.add_assoc]

theorem span?_eq (ls : List Text) (start stop : Nat) :
    span? ls start stop = some (span ls start stop) := by
  rw [span?, span]
  cases hls : ls.isEmpty with
  | true => rfl
  | false =>
    have hlen : 0 < ls.length := List.length_pos_iff.2 (List.isEmpty_eq_false_iff.1 hls)
    rw [if_neg Bool.false_ne_true, if_neg Bool.false_ne_true]
    dsimp only
    generalize hfirst : min (start - 1) (ls.length - 1) = first
    have hlt : first < ls.length := by omega
    generalize hlast : min (max stop (first + 1)) ls.length - 1 = last
    have hlastlt : last < ls.length := by omega
    have hclamp : clamp? stop (first + 1) ls.length = some (last + 1) := by
      rw [clamp?, if_pos (Nat.succ_le_of_lt hlt)]
      congr 1
      omega
    simp only [hclamp, Option.bind_eq_bind, Option.bind_some, Nat.ppred_succ,
      getElem?_offsetsFrom 0 hlt, getElem?_offsetsFrom 0 hlastlt, List.getElem?_eq_getElem hlastlt,
      List.getD_eq_getElem?_getD, Option.getD_some, Nat.zero_add, Option.pure_def]

end Lines

/-! ### Spans in the text -/

/-- The span covers some lines of the text, from where the first of them begins to where the last
one ends. -/
structure Span.Covers (sp : Span) (s : Text) (before covered behind : List Text) : Prop where
  lines : s.lines = before ++ covered ++ behind
  ne_nil : covered ≠ []
  text : s = Text.terminated before ++ Text.join ['\n'] covered ++ Text.introduced behind
  start : sp.start = (Text.terminated before).byteLength
  stop : sp.stop = (Text.terminated before ++ Text.join ['\n'] covered).byteLength

theorem Lines.covers_span {s : Text} {start stop : Nat} (hpos : 1 ≤ start)
    (hstart : start ≤ s.lines.length) (hstop : start ≤ stop) :
    (span s.lines start stop).Covers s (s.lines.take (start - 1)) (slice s.lines start stop)
      (s.lines.drop stop) := by
  have hne := slice_ne_nil hpos hstart hstop
  have hlines : s.lines = s.lines.take (start - 1) ++ slice s.lines start stop ++
      s.lines.drop stop := by
    rw [← take_eq_append_slice s.lines hstop, List.take_append_drop]
  have htext : s = Text.terminated (s.lines.take (start - 1)) ++
      Text.join ['\n'] (slice s.lines start stop) ++ Text.introduced (s.lines.drop stop) := by
    obtain ⟨l, covered, hslice⟩ := List.exists_cons_of_ne_nil hne
    have hjoin := Text.join_lines s
    rw [hlines, hslice, List.append_assoc, List.cons_append, Text.join_append_cons,
      Text.introduced_append] at hjoin
    rw [hslice, Text.join_cons]
    simpa using hjoin.symm
  have hspan := span_eq hpos hstart hstop
  exact ⟨hlines, hne, htext, by rw [hspan], by rw [hspan, text]⟩

/-- The lines of a text joined are the text, and the bytes in the span of some lines are those of
the lines joined. No numbers make the computation of a span fail, and unless the text is empty the
span covers lines of the text. -/
theorem span_bytes (s : Text) :
    Text.join ['\n'] s.lines = s ∧
    (∀ start stop, 1 ≤ start → start ≤ s.lines.length → start ≤ stop →
      (Lines.span s.lines start stop).bytesOf s = (Lines.text s.lines start stop).bytes) ∧
    ∀ start stop, Lines.span? s.lines start stop = some (Lines.span s.lines start stop) ∧
      (s ≠ [] → ∃ before covered behind,
        (Lines.span s.lines start stop).Covers s before covered behind) := by
  refine ⟨s.join_lines, fun start stop hpos hstart hstop => ?_, fun start stop =>
    ⟨Lines.span?_eq s.lines start stop, fun hs => ?_⟩⟩
  · have hcovers := Lines.covers_span hpos hstart hstop
    have hbytes := Span.bytesOf_eq (Text.introduced (s.lines.drop stop)) hcovers.start
      hcovers.stop
    rwa [← hcovers.text] at hbytes
  · have hlen : 0 < s.lines.length := by
      obtain ⟨c, t, rfl⟩ := List.exists_cons_of_ne_nil hs
      exact List.length_pos_iff.2 (Text.splitAt_ne_nil '\n' (c :: t))
    rw [Lines.span_clamped]
    exact ⟨_, _, _, Lines.covers_span (Nat.le_add_left 1 _) (by omega) (Nat.le_max_right ..)⟩

def accentedLines : Text := "é\n\nü\r\n".toList

/-- Two lines of several bytes and two empty ones, with a last line that is not there, and with a
range that ends before it starts. -/
theorem span_bytes_accented :
    accentedLines.lines = ["é".toList, [], "ü\r".toList, []] ∧
    Lines.span accentedLines.lines 3 9 = ⟨4, 8⟩ ∧
    (Lines.span accentedLines.lines 3 9).bytesOf accentedLines = [195, 188, 13, 10] ∧
    Lines.span accentedLines.lines 7 0 = ⟨8, 8⟩ ∧
    ∃ before covered behind, (⟨8, 8⟩ : Span).Covers accentedLines before covered behind := by
  obtain ⟨_, hbytes, hspan⟩ := span_bytes accentedLines
  have hlines : accentedLines.lines = ["é".toList, [], "ü\r".toList, []] := by decide
  have hlast : Lines.span accentedLines.lines 7 0 = ⟨8, 8⟩ := by decide
  have hcovers := (hspan 7 0).2 (by decide)
  rw [hlast] at hcovers
  refine ⟨hlines, by decide, ?_, hlast, hcovers⟩
  rw [hbytes 3 9 (by decide) (by decide) (by decide)]
  decide

end TemplateBlocks
