import Mathlib
import TemplateBlocks.Fixture
import TemplateBlocks.Proofs.LineBreaks
import TemplateBlocks.Toml.Document

/-!
# Reading front matter back

A fixture is written as byte order marks, a delimiter, the front matter, a second delimiter and the
template, with line ends of one kind (`FrontMatter.framed`). Splitting it gives the front matter and
the template that went in, whatever the template holds (`split_framed`). The front matter may hold
no delimiter at the start of a line, since the search would stop there (`closing_eq_none`), and no
carriage return, since those at its end are cut off with the one of the line end
(`dropEndWhile_write`).
-/

namespace TemplateBlocks

/-! ### Line ends -/

inductive LineEnd
  | lf
  | crlf
  deriving DecidableEq, Repr

namespace LineEnd

/-- What a line end has in front of its newline. -/
def returns : LineEnd → Text
  | lf => []
  | crlf => ['\r']

def text (e : LineEnd) : Text := e.returns ++ ['\n']

/-- The text with its newlines written as line ends of this kind. -/
def write : LineEnd → Text → Text
  | lf, s => s
  | crlf, s => s.crlf

variable (e : LineEnd)

theorem newline_not_mem_returns : '\n' ∉ e.returns := by
  cases e <;> decide

theorem exists_text_eq : ∃ c w, isBreak c = true ∧ e.text = c :: w := by
  cases e with
  | lf => exact ⟨'\n', [], by decide, rfl⟩
  | crlf => exact ⟨'\r', ['\n'], by decide, rfl⟩

@[simp] theorem write_nil : e.write [] = [] := by
  cases e <;> rfl

theorem write_append (s t : Text) : e.write (s ++ t) = e.write s ++ e.write t := by
  cases e with
  | lf => rfl
  | crlf => exact Text.crlf_append s t

theorem write_cons_newline (s : Text) : e.write ('\n' :: s) = e.text ++ e.write s := by
  cases e with
  | lf => rfl
  | crlf => exact Text.crlf_cons_newline s

theorem write_cons_of_ne {c : Char} (hc : c ≠ '\n') (s : Text) :
    e.write (c :: s) = c :: e.write s := by
  cases e with
  | lf => rfl
  | crlf => exact Text.crlf_cons_of_ne hc s

/-! ### Beginnings and endings of a written text -/

section Pieces

variable {e} {p s t v : Text}

theorem eq_nil_of_prefix_text (hp : Text.Free isBreak p) (h : p <+: e.text ++ v) : p = [] := by
  obtain ⟨c, w, hc, htext⟩ := e.exists_text_eq
  rw [htext] at h
  cases p with
  | nil => rfl
  | cons a p =>
    obtain ⟨rfl, _⟩ := List.cons_prefix_cons.1 h
    rw [hp a (List.mem_cons_self ..)] at hc
    exact Bool.noConfusion hc

/-- A beginning without line breaks lies on the first line. -/
theorem prefix_of_prefix_write (hp : Text.Free isBreak p) (h : p <+: e.write s ++ (e.text ++ v)) :
    p <+: s := by
  induction s generalizing p with
  | nil =>
    rw [write_nil, List.nil_append] at h
    rw [eq_nil_of_prefix_text hp h]
  | cons c s ih =>
    by_cases hc : c = '\n'
    · rw [hc, write_cons_newline, List.append_assoc] at h
      rw [eq_nil_of_prefix_text hp h]
      exact List.nil_prefix
    · rw [write_cons_of_ne e hc] at h
      cases p with
      | nil => exact List.nil_prefix
      | cons a p =>
        obtain ⟨rfl, hrest⟩ := List.cons_prefix_cons.1 h
        exact List.cons_prefix_cons.2 ⟨rfl, ih (fun b hb => hp b (List.mem_cons_of_mem a hb)) hrest⟩

theorem suffix_of_not_mem {c : Char} {u : Text} (hu : c ∉ u) (h : c :: t <:+ u ++ v) :
    c :: t <:+ v := by
  rcases Text.suffix_append_or h with hsuf | ⟨a, t', heq, ha⟩
  · exact hsuf
  · rw [← (List.cons.inj heq).1] at ha
    exact absurd ha hu

/-- An ending behind a newline is written from an ending behind a newline. -/
theorem exists_of_suffix_write (h : '\n' :: t <:+ e.write s ++ e.returns) :
    ∃ w, t = e.write w ++ e.returns ∧ '\n' :: w <:+ s := by
  induction s with
  | nil =>
    have hnil : '\n' :: t <:+ [] :=
      suffix_of_not_mem e.newline_not_mem_returns (by simpa using h)
    exact absurd (List.suffix_nil.1 hnil) (List.cons_ne_nil _ _)
  | cons c s ih =>
    by_cases hc : c = '\n'
    · subst hc
      rw [write_cons_newline, text, List.append_assoc, List.append_assoc] at h
      rcases List.suffix_cons_iff.1 (suffix_of_not_mem e.newline_not_mem_returns h) with
        heq | hsuf
      · exact ⟨s, (List.cons.inj heq).2, List.suffix_refl _⟩
      · obtain ⟨w, ht, hw⟩ := ih hsuf
        exact ⟨w, ht, hw.trans (List.suffix_cons '\n' s)⟩
    · rw [write_cons_of_ne e hc, List.cons_append] at h
      have hc' : '\n' ∉ [c] := by simpa [eq_comm] using hc
      obtain ⟨w, ht, hw⟩ := ih (suffix_of_not_mem hc' h)
      exact ⟨w, ht, hw.trans (List.suffix_cons c s)⟩

/-- Cutting the carriage returns off cuts off those of the line end only. -/
theorem dropEndWhile_write (hs : '\r' ∉ s) :
    (e.write s ++ e.returns).dropEndWhile (· == '\r') = e.write s := by
  have hreturns : (e.write s ++ e.returns).rdropWhile (· == '\r') =
      (e.write s).rdropWhile (· == '\r') := by
    cases e with
    | lf => rw [returns, List.append_nil]
    | crlf => exact List.rdropWhile_concat_pos _ _ _ rfl
  refine hreturns.trans ?_
  rcases List.eq_nil_or_concat s with rfl | ⟨u, c, rfl⟩
  · rw [write_nil, List.rdropWhile_nil]
  · rw [List.concat_eq_append, write_append]
    by_cases hc : c = '\n'
    · rw [hc, write_cons_newline, write_nil, List.append_nil, text, ← List.append_assoc]
      exact List.rdropWhile_concat_neg _ _ _ (by decide)
    · rw [write_cons_of_ne e hc, write_nil]
      refine List.rdropWhile_concat_neg _ _ _ ?_
      intro hreturn
      have hmem : '\r' ∈ u.concat c := by simp [eq_of_beq hreturn]
      exact hs hmem

end Pieces

end LineEnd

namespace FrontMatter

/-! ### Fixtures with front matter -/

/-- The lines of `front` stand between the delimiters, and `source` begins on the line behind the
second one. -/
def framed (marks : Nat) (e : LineEnd) (front source : Text) : Text :=
  List.replicate marks '\uFEFF' ++ (delimiter ++ (e.text ++ (e.write front ++
    (e.text ++ (delimiter ++ (e.text ++ source))))))

variable {e : LineEnd} {front : Text}

theorem dropLineEnd_text (e : LineEnd) (s : Text) : dropLineEnd (e.text ++ s) = s := by
  cases e <;> rfl

theorem after?_marks (marks : Nat) (s : Text) :
    Text.after? ((List.replicate marks '\uFEFF' ++ (delimiter ++ s)).dropWhile (· == '\uFEFF'))
      delimiter = some s := by
  have hdrop : (List.replicate marks '\uFEFF' ++ (delimiter ++ s)).dropWhile (· == '\uFEFF') =
      delimiter ++ s := by
    rw [List.dropWhile_append_of_pos fun c hc => by simp [List.eq_of_mem_replicate hc]]
    rfl
  rw [hdrop, Text.after?_append]

theorem exists_line_of_suffix {w : Text} (hw : '\n' :: w <:+ front) (h : delimiter <+: w) :
    ∃ l ∈ front.splitAt '\n', delimiter <+: l := by
  obtain ⟨u, rfl⟩ := hw
  obtain ⟨l, ls, hls⟩ := List.exists_cons_of_ne_nil (Text.splitAt_ne_nil '\n' w)
  have hw : w = l ++ Text.introduced ls := by
    rw [← Text.join_cons, ← hls, Text.join_splitAt]
  refine ⟨l, by rw [Text.splitAt_append_separator, hls]; simp, ?_⟩
  rw [hw] at h
  exact Matcher.prefix_of_behindLine (by decide) (behindLine_introduced ls) h

/-- No closing delimiter begins in the front matter or in the line end behind it, up to its
newline. -/
theorem closing_eq_none (hfront : ∀ l ∈ front.splitAt '\n', ¬ delimiter <+: l) {t : Text}
    (hne : t ≠ []) (ht : t <:+ e.write front ++ e.returns) (v : Text) :
    closing (t ++ ('\n' :: delimiter ++ v)) = none := by
  refine Option.eq_none_iff_forall_ne_some.2 fun r hr => ?_
  obtain ⟨rest, hafter, _⟩ := Option.map_eq_some_iff.1 hr
  obtain ⟨c, t, rfl⟩ := List.exists_cons_of_ne_nil hne
  obtain ⟨rfl, hread⟩ := List.cons.inj (Text.eq_append_of_after? hafter)
  obtain ⟨w, rfl, hw⟩ := LineEnd.exists_of_suffix_write ht
  have hpre : delimiter <+: e.write w ++ (e.text ++ (delimiter ++ v)) := by
    refine ⟨rest, hread.symm.trans ?_⟩
    simp [LineEnd.text]
  obtain ⟨l, hl, hbegin⟩ :=
    exists_line_of_suffix hw (LineEnd.prefix_of_prefix_write (by decide) hpre)
  exact hfront l hl hbegin

/-- The search stops in front of the newline of the line end behind the front matter. -/
theorem find_closing (hfront : ∀ l ∈ front.splitAt '\n', ¬ delimiter <+: l) (v : Text) :
    (e.write front ++ (e.text ++ (delimiter ++ v))).find closing =
      some ⟨e.write front ++ e.returns, (), '\n' :: delimiter, v⟩ := by
  have hread : closing ('\n' :: delimiter ++ v) = some ((), v) := by
    rw [closing, Text.after?_append]
    rfl
  have hsplit : e.write front ++ (e.text ++ (delimiter ++ v)) =
      (e.write front ++ e.returns) ++ ('\n' :: delimiter ++ v) := by
    simp [LineEnd.text]
  rw [hsplit, Text.find_append_of_forall fun t hne ht => closing_eq_none hfront hne ht v,
    Text.find_of_read (List.cons_ne_nil _ _) hread]
  simp [Text.Found.behind]

/-- Splitting a fixture undoes writing it: the front matter that is read is the one that was
written, and the lines of the template are numbered from its own start. -/
theorem split_framed (hreturn : '\r' ∉ front)
    (hfront : ∀ l ∈ front.splitAt '\n', ¬ delimiter <+: l) (marks : Nat) (e : LineEnd)
    (source : Text) :
    split (framed marks e front source) = .ok (e.write front, source) ∧
    ∀ toml : Toml.Reader, Fixture.read toml (framed marks e front source) =
      match toml (e.write front) >>= Expectation.ofToml? with
      | none => .error .malformed
      | some x => .ok (x, source) := by
  have hsplit : split (framed marks e front source) = .ok (e.write front, source) := by
    simp only [split, framed, after?_marks, dropLineEnd_text, find_closing hfront,
      LineEnd.dropEndWhile_write hreturn]
  refine ⟨hsplit, fun toml => ?_⟩
  rw [Fixture.read, hsplit]
  rfl

def hyphenatedFront : Text := "description = \"x\"\n\n# a --- b\n".toList

set_option maxRecDepth 4000 in
/-- Two byte order marks, hyphens within a line of the front matter, and a template that begins with
an empty line and has a delimiter of its own. -/
theorem split_framed_hyphenated :
    '\r' ∉ hyphenatedFront ∧ (∀ l ∈ hyphenatedFront.splitAt '\n', ¬ delimiter <+: l) ∧
    split (framed 2 .crlf hyphenatedFront "\n---\n$x".toList) =
      .ok ("description = \"x\"\r\n\r\n# a --- b\r\n".toList, "\n---\n$x".toList) ∧
    Fixture.read Toml.parse? (framed 2 .crlf hyphenatedFront "\n---\n$x".toList) =
      .ok (⟨some "x".toList, none, none, [], [], []⟩, "\n---\n$x".toList) := by
  have hreturn : '\r' ∉ hyphenatedFront := by decide
  have hfront : ∀ l ∈ hyphenatedFront.splitAt '\n', ¬ delimiter <+: l := by decide
  obtain ⟨hsplit, hread⟩ := split_framed hreturn hfront 2 .crlf "\n---\n$x".toList
  have hparse : (Toml.parse? (LineEnd.crlf.write hyphenatedFront) >>= Expectation.ofToml?) =
      some ⟨some "x".toList, none, none, [], [], []⟩ := by
    cbv
  refine ⟨hreturn, hfront, hsplit, ?_⟩
  rw [hread, hparse]

end FrontMatter

end TemplateBlocks
