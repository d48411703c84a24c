import TemplateBlocks.Marker.Enclosed
import TemplateBlocks.Proofs.DocumentRewrite
import TemplateBlocks.Proofs.LineBreaks
import TemplateBlocks.Proofs.LineMarkers

/-!
# Markers and line breaks

Every reader of markers is even, when the name that it looks for is on one line and not empty. So a
stretch is found in a text with carriage returns in front of its newlines where it is found in the
text without them, and its pieces are the same with carriage returns put in (`find?_crlf`).
-/

namespace TemplateBlocks

variable {b : LineBreaks} {s t n rest : Text} {d : Dialect}

/-- A name that takes no line break to write. -/
def OneLine (n : Text) : Prop := n ≠ [] ∧ Text.Free isBreak n

instance (n : Text) : Decidable (OneLine n) :=
  inferInstanceAs (Decidable (n ≠ [] ∧ Text.Free isBreak n))

theorem OneLine.markerName (h : OneLine n) (d : Dialect) : OneLine (d.markerName n) := by
  cases d with
  | directive => exact h
  | banner =>
    refine ⟨by simpa [Dialect.markerName, Text.replaceChar] using h.1, fun c hc => ?_⟩
    obtain ⟨a, ha, rfl⟩ := List.mem_map.1 hc
    split
    · decide
    · exact h.2 a ha

theorem Matcher.ReadsComments.stopsAtBreaks {α : Type} {m : Matcher α} (hm : m.ReadsComments) :
    StopsAtBreaks m := by
  intro c u hc
  refine Option.eq_none_iff_forall_ne_some.2 fun r hr => ?_
  obtain ⟨w, hw⟩ := hm _ _ hr
  obtain rfl : '<' = c := (List.cons.inj hw).1
  exact absurd hc (by decide)

namespace Marker

/-! ### Ends of markers -/

theorem even_afterEnd? (h : Rebroken b s t) :
    Option.Rel (Rebroken b) (afterEnd? s) (afterEnd? t) :=
  h.dropBlanks.after? (by decide)

theorem even_afterSpacedEnd? (h : Rebroken b s t) :
    Option.Rel (Rebroken b) (afterSpacedEnd? s) (afterSpacedEnd? t) :=
  Rebroken.dropBlanks1?_bind rfl (fun _ _ h => h.after? (by decide)) h

theorem even_afterDirective? {word : Text} (hword : Text.Free isBreak word)
    (h : Rebroken b s t) :
    Option.Rel (Rebroken b) (afterDirective? word s) (afterDirective? word t) :=
  rel_bind (h.after? (by decide)) fun _ _ h => h.dropBlanks.after? hword

theorem afterSpacedName?_cons (n : Text) (c : Char) (s : Text) : afterSpacedName? n (c :: s) =
    if isBlank c then (s.after? n >>= afterSpacedEnd?) <|> afterSpacedName? n s else none := by
  rw [afterSpacedName?]
  split
  · cases s.after? n >>= afterSpacedEnd? <;> rfl
  · rfl

/-- No name begins within a line break, so the break counts as one blank. -/
theorem afterSpacedName?_breaks (hn : OneLine n) {w : Text} (hw : Breaks w) (hne : w ≠ [])
    (s : Text) : afterSpacedName? n (w ++ s) = ((s.after? n >>= afterSpacedEnd?) <|> afterSpacedName? n s) := by
  induction w with
  | nil => exact absurd rfl hne
  | cons c w ih =>
    obtain ⟨hc, hw⟩ := List.forall_mem_cons.1 hw
    rw [List.cons_append, afterSpacedName?_cons, if_pos (isBlank_of_isBreak hc)]
    cases w with
    | nil => rfl
    | cons a w =>
      obtain ⟨x, n, rfl⟩ := List.exists_cons_of_ne_nil hn.1
      have hax : a ≠ x := by
        rintro rfl
        have ha := hw a (List.mem_cons_self ..)
        rw [hn.2 a (List.mem_cons_self ..)] at ha
        exact absurd ha Bool.false_ne_true
      have hnone : Text.after? (a :: w ++ s) (x :: n) = none := by
        rw [List.cons_append, Text.after?, if_neg hax]
      rw [hnone, ih hw (List.cons_ne_nil a w)]
      rfl

theorem even_afterSpacedName? (hn : OneLine n) (h : Rebroken b s t) :
    Option.Rel (Rebroken b) (afterSpacedName? n s) (afterSpacedName? n t) := by
  induction h with
  | @final w hw =>
    by_cases hne : w = []
    · rw [hne]
      exact .none
    · have hend := afterSpacedName?_breaks hn (b.final_breaks w hw) hne []
      obtain ⟨x, n, rfl⟩ := List.exists_cons_of_ne_nil hn.1
      rw [List.append_nil] at hend
      rw [hend]
      exact .none
  | @char c s t hc h ih =>
    simp only [afterSpacedName?_cons]
    split
    · exact rel_orElse (rel_bind (h.after? hn.2) fun _ _ => even_afterSpacedEnd?) ih
    · exact .none
  | @newline w s t hw h ih =>
    obtain ⟨hmem, hbreaks⟩ := b.newline_breaks w hw
    rw [afterSpacedName?_breaks hn hbreaks (List.ne_nil_of_mem hmem), afterSpacedName?_cons,
      if_pos (by decide)]
    exact rel_orElse (rel_bind (h.after? hn.2) fun _ _ => even_afterSpacedEnd?) ih

/-! ### Markers -/

theorem even_namedDirective {word : Text} (hword : Text.Free isBreak word) (hn : OneLine n) :
    Matcher.Even b Eq (namedDirective word n) := by
  intro s t h
  refine rel_bind (even_afterDirective? hword h) fun u v huv => ?_
  refine rel_bind (rel_bind (huv.after? hn.2) fun _ _ => even_afterEnd?) fun u v huv => ?_
  exact .some ⟨rfl, huv⟩

theorem even_opening (hn : OneLine n) (d : Dialect) : Matcher.Even b Eq (opening d n) := by
  cases d with
  | directive => exact even_namedDirective (by decide) hn
  | banner =>
    intro s t h
    refine rel_bind (rel_bind (h.after? (by decide)) fun _ _ => even_afterSpacedName? hn)
      fun u v huv => ?_
    exact .some ⟨rfl, huv⟩

theorem even_closing (hn : OneLine n) (d : Dialect) : Matcher.Even b Eq (closing d n) := by
  cases d with
  | directive => exact even_namedDirective (by decide) hn
  | banner =>
    intro s t h
    have hread : ∀ s, closing .banner n s = (s.after? commentStart).bind fun s =>
        s.dropBlanks1?.bind fun s => (s.after? endOf >>= afterSpacedName? n).bind fun s =>
          some ((), s) := by
      intro s
      simp only [closing, Option.bind_eq_bind, Option.bind_assoc, Option.pure_def]
    rw [hread, hread]
    refine rel_bind (h.after? (by decide)) fun u v huv => ?_
    refine Rebroken.dropBlanks1?_bind rfl (fun u v huv => ?_) huv
    refine rel_bind (rel_bind (huv.after? (by decide)) fun _ _ => even_afterSpacedName? hn)
      fun u v huv => ?_
    exact .some ⟨rfl, huv⟩

theorem even_anyOpening (d : Dialect) : Matcher.Even b Eq (anyOpening d) := by
  have hdirective : OffBreaks isDirectiveChar := by decide
  have hfirst : OffBreaks isBannerStart := by decide
  have hbanner : OffBreaks isBannerChar := by decide
  intro s t h
  cases d with
  | directive =>
    exact rel_bind (even_afterDirective? (by decide) h) fun u v huv =>
      Rebroken.shortest hdirective (fun _ _ => even_afterEnd?) u v huv
  | banner =>
    refine rel_bind (h.after? (by decide)) fun u v huv => ?_
    refine rel_bind (Rebroken.dropBlanks1?_bind rfl
      (Rebroken.char? hfirst) huv) fun c c' hc => ?_
    refine rel_bind (Rebroken.shortest hbanner (fun _ _ => even_afterSpacedEnd?) _ _ hc.2)
      fun name name' hname => ?_
    exact .some ⟨congrArg₂ List.cons hc.1 hname.1, hname.2⟩

/-! ### What a closing marker ends in -/

/-- The text that is read ends in `>`. -/
def EndsAngled (s rest : Text) : Prop := ∃ u, s = u ++ ['>'] ++ rest

theorem EndsAngled.of_suffix {t : Text} (h : EndsAngled t rest) (hsuf : t <:+ s) :
    EndsAngled s rest := by
  obtain ⟨u, rfl⟩ := h
  obtain ⟨v, rfl⟩ := hsuf
  exact ⟨v ++ u, by simp⟩

theorem endsAngled_of_afterEnd? (h : afterEnd? s = some rest) : EndsAngled s rest := by
  obtain ⟨w, _, hs⟩ := afterEnd?_iff.1 h
  exact ⟨w ++ "--".toList, by rw [hs]; simp [commentEnd]⟩

theorem endsAngled_of_afterSpacedName? (h : afterSpacedName? n s = some rest) :
    EndsAngled s rest := by
  induction s with
  | nil => simp [afterSpacedName?] at h
  | cons c s ih =>
    rw [afterSpacedName?_cons] at h
    split at h
    · cases hend : Text.after? s n >>= afterSpacedEnd? with
      | none =>
        rw [hend] at h
        exact (ih h).of_suffix (List.suffix_cons c s)
      | some r =>
        rw [hend] at h
        obtain rfl := Option.some.inj h
        obtain ⟨t, ht, hread⟩ := Option.bind_eq_some_iff.1 hend
        obtain ⟨w, _, hw⟩ := afterSpacedEnd?_iff.1 hread
        have hangled : EndsAngled t r := ⟨w ++ "--".toList, by rw [hw]; simp [commentEnd]⟩
        exact hangled.of_suffix ((Text.suffix_of_after? ht).trans (List.suffix_cons c s))
    · exact absurd h (Option.some_ne_none _).symm

theorem endsAngled_of_closing {u : Unit} (h : closing d n s = some (u, rest)) :
    EndsAngled s rest := by
  cases d with
  | directive =>
    obtain ⟨t, ht, h⟩ := Option.bind_eq_some_iff.1 h
    obtain ⟨v, hv, h⟩ := Option.bind_eq_some_iff.1 h
    obtain ⟨_, rfl⟩ := Prod.mk.inj (Option.some.inj h)
    obtain ⟨w, hw, hend⟩ := Option.bind_eq_some_iff.1 hv
    exact (endsAngled_of_afterEnd? hend).of_suffix
      ((Text.suffix_of_after? hw).trans (afterDirective?_suffix ht))
  | banner =>
    obtain ⟨t, ht, h⟩ := Option.bind_eq_some_iff.1 h
    obtain ⟨v, hv, h⟩ := Option.bind_eq_some_iff.1 h
    obtain ⟨_, rfl⟩ := Prod.mk.inj (Option.some.inj h)
    obtain ⟨w, hw, hblank⟩ := Option.bind_eq_some_iff.1 ht
    obtain ⟨x, hx, hname⟩ := Option.bind_eq_some_iff.1 hv
    exact (endsAngled_of_afterSpacedName? hname).of_suffix (((Text.suffix_of_after? hx).trans
      (Text.dropBlanks1?_suffix hblank)).trans (Text.suffix_of_after? hw))

/-- A closing marker that the search finds ends in `>`. -/
theorem exists_matched_of_closing {f : Text.Found Unit} (h : s.find (closing d n) = some f) :
    ∃ u, f.matched = u ++ ['>'] := by
  obtain ⟨u, hu⟩ := endsAngled_of_closing (Text.read_of_find (closing_leavesSuffix d n) h).1
  exact ⟨u, List.append_cancel_right hu⟩

end Marker

/-! ### Stretches -/

def Stretch.crlf (st : Stretch) : Stretch :=
  { name := st.name, opening := st.opening.crlf, body := st.body.crlf, closing := st.closing.crlf }

theorem Text.upTo_crlf {s t : Text} (h : t <:+ s) : s.crlf.upTo t.crlf = (s.upTo t).crlf := by
  obtain ⟨u, rfl⟩ := h
  rw [crlf_append, upTo_append, upTo_append]

theorem matched_crlf {α : Type} {m : Matcher α} {q : α → α → Prop} (hm : m.LeavesSuffix)
    {f g : Text.Found α} (h : Rebroken.FoundEven .crlf q m f g) : g.matched = f.matched.crlf := by
  have hhere := (h.here hm).eq_crlf
  rw [Text.crlf_append, h.rest.eq_crlf] at hhere
  exact List.append_cancel_right hhere

theorem even_named (hn : OneLine n) (d : Dialect) :
    Matcher.Even .crlf (fun st st' => st' = st.crlf) (Stretch.named d n) := by
  intro s t h
  obtain rfl := h.eq_crlf
  have hopen := Marker.even_opening (b := .crlf) hn d s s.crlf h
  have hsuffix := Marker.opening_leavesSuffix d n s
  have hread : ∀ s, Stretch.named d n s = (Marker.opening d n s).bind fun r =>
      (r.2.find (Marker.closing d n)).bind fun close =>
        some (⟨n, s.upTo r.2, close.before, close.matched⟩, close.rest) := by
    intro s
    rw [Stretch.named, Stretch.reader]
    cases Marker.opening d n s <;> rfl
  rw [hread, hread]
  generalize Marker.opening d n s = x at hopen hsuffix ⊢
  generalize Marker.opening d n s.crlf = y at hopen ⊢
  cases hopen with
  | none => exact .none
  | @some x y hxy =>
    obtain ⟨_, inner⟩ := x
    obtain ⟨_, inner'⟩ := y
    obtain rfl := hxy.2.eq_crlf
    have hclose := Rebroken.find (Marker.even_closing (b := .crlf) hn d)
      (Marker.closing_readsComments d n).stopsAtBreaks hxy.2
    simp only [Option.bind_some]
    refine rel_bind hclose fun f g hfg => ?_
    refine .some ⟨?_, hfg.rest⟩
    simp only [Stretch.crlf, Text.upTo_crlf (hsuffix _ _ rfl), hfg.before.eq_crlf,
      matched_crlf (Marker.closing_leavesSuffix d n) hfg]

def Text.Found.crlf (f : Text.Found Stretch) : Text.Found Stretch :=
  { before := f.before.crlf, value := f.value.crlf, matched := f.matched.crlf, rest := f.rest.crlf }

theorem find?_crlf (hn : OneLine n) (d : Dialect) (s : Text) :
    Stretch.find? d n s.crlf = (Stretch.find? d n s).map Text.Found.crlf := by
  have hm := Stretch.named_leavesSuffix d (d.markerName n)
  have hfind := Rebroken.find (even_named (hn.markerName d) d)
    (Stretch.named_readsComments d (d.markerName n)).stopsAtBreaks
    (Rebroken.crlf s)
  unfold Stretch.find?
  generalize s.find (Stretch.named d (d.markerName n)) = x at hfind ⊢
  generalize s.crlf.find (Stretch.named d (d.markerName n)) = y at hfind ⊢
  cases hfind with
  | none => rfl
  | @some f g hfg =>
    obtain ⟨before, value, matched, rest⟩ := g
    have hmatched : matched = f.matched.crlf := matched_crlf hm hfg
    have hbefore : before = f.before.crlf := Rebroken.eq_crlf hfg.before
    have hrest : rest = f.rest.crlf := hfg.rest.eq_crlf
    have hvalue : value = f.value.crlf := hfg.value
    rw [hmatched, hbefore, hrest, hvalue]
    rfl

theorem stretch?_crlf (hn : OneLine n) (s : Text) :
    s.crlf.stretch? n = (s.stretch? n).map Text.Found.crlf := by
  rw [Text.stretch?, Text.stretch?, find?_crlf hn, find?_crlf hn]
  cases Stretch.find? .directive n s with
  | none => rfl
  | some f => rfl

theorem ofText_crlf (s : Text) : Dialect.ofText s.crlf = Dialect.ofText s := by
  have hfind := Rebroken.find (Marker.even_anyOpening (b := .crlf) .directive)
    (Marker.anyOpening_readsComments .directive).stopsAtBreaks
    (Rebroken.crlf s)
  have hoccurs : s.crlf.occurs (Marker.directive Marker.openWord) =
      s.occurs (Marker.directive Marker.openWord) := rel_isSome hfind
  rw [Dialect.ofText, hoccurs, Dialect.ofText]

end TemplateBlocks
