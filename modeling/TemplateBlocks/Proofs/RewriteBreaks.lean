import TemplateBlocks.Proofs.LineText
import TemplateBlocks.Proofs.MarkerBreaks
import TemplateBlocks.Proofs.MovedText

/-!
# Rewriting and line breaks

The rewrites know no line break but a bare newline. In a text with carriage returns in front of its
newlines a body keeps the break behind the opening marker and the carriage return of the one in
front of the closing marker, so it is the body of the text without carriage returns only when there
is no newline at either end (`dropEnd_crlf_iff`). A move puts in a bare newline, so its result is
never such a text again; but it fails on the same names, and its lines are the same up to carriage
returns and empty lines (`moveBlock_crlf`). `rewriting_crlf` says both.
-/

namespace TemplateBlocks

variable {s t name : Text} {d : Dialect}

/-! ### Newlines at the ends of texts with carriage returns -/

theorem dropEnd_newline_concat (u : Text) : Text.dropEnd (u ++ ['\n']) newline = u :=
  Text.dropEnd_append u newline

theorem dropEnd_newline_of_ne {c : Char} (hc : c ≠ '\n') (u : Text) :
    Text.dropEnd (u ++ [c]) newline = u ++ [c] := by
  simp [Text.dropEnd, Text.dropStart, Text.after?, newline, hc]

theorem dropStart_crlf (s : Text) : s.crlf.dropStart newline = s.crlf := by
  cases s with
  | nil => rfl
  | cons c s =>
    by_cases hc : c = '\n'
    · rw [hc, Text.crlf_cons_newline]
      rfl
    · rw [Text.crlf_cons_of_ne hc]
      simp [Text.dropStart, Text.after?, newline, hc]

theorem dropEnd_crlf (s : Text) : ∃ w, Breaks w ∧
    s.crlf.dropEnd newline = (s.dropEnd newline).crlf ++ w := by
  rcases List.eq_nil_or_concat s with rfl | ⟨u, c, rfl⟩
  · exact ⟨[], breaks_nil, rfl⟩
  rw [List.concat_eq_append]
  by_cases hc : c = '\n'
  · refine ⟨['\r'], by decide, ?_⟩
    rw [hc, dropEnd_newline_concat, Text.crlf_append, Text.crlf_cons_newline, Text.crlf_nil]
    have hcr : Text.crlf u ++ ['\r', '\n'] = Text.crlf u ++ ['\r'] ++ ['\n'] := by simp
    rw [hcr, dropEnd_newline_concat]
  · refine ⟨[], breaks_nil, ?_⟩
    rw [dropEnd_newline_of_ne hc, Text.crlf_append, Text.crlf_cons_of_ne hc, Text.crlf_nil,
      dropEnd_newline_of_ne hc, List.append_nil]

theorem exists_crlf_dropStart (s : Text) :
    ∃ w, Breaks w ∧ s.crlf = w ++ (s.dropStart newline).crlf := by
  obtain ⟨v, hv, hs⟩ := exists_dropStart_eq s
  refine ⟨v.crlf, ?_, by rw [← Text.crlf_append, ← hs]⟩
  rcases hv with rfl | rfl
  · exact breaks_nil
  · decide

/-! ### Bodies -/

theorem body?_crlf (hname : OneLine name) (s : Text) :
    body? s.crlf name = (s.stretch? name).map fun f => f.value.body.crlf.dropEnd newline := by
  rw [body?, stretch?_crlf hname, Option.map_map]
  congr 1
  funext f
  simp [Function.comp, Text.Found.crlf, Stretch.crlf, Stretch.content, dropStart_crlf]

theorem AtMostNewline.length_crlf {v : Text} (h : AtMostNewline v) :
    v = [] ∨ v.crlf.length = 2 := by
  rcases h with rfl | rfl
  · exact .inl rfl
  · exact .inr rfl

theorem AtMostNewline.length_le {v : Text} (h : AtMostNewline v) : v.length ≤ 1 := by
  rcases h with rfl | rfl <;> decide

theorem dropEnd_crlf_of_eq (h : s.dropEnd newline = s) : s.crlf.dropEnd newline = s.crlf := by
  rcases List.eq_nil_or_concat s with rfl | ⟨u, c, rfl⟩
  · rfl
  rw [List.concat_eq_append] at h ⊢
  by_cases hc : c = '\n'
  · rw [hc, dropEnd_newline_concat] at h
    simpa using congrArg List.length h
  · rw [Text.crlf_append, Text.crlf_cons_of_ne hc, Text.crlf_nil, dropEnd_newline_of_ne hc]

/-- A body is read alike under both conventions when no newline is left out at its ends. -/
theorem dropEnd_crlf_iff (st : Stretch) :
    st.body.crlf.dropEnd newline = st.content.crlf ↔ st.content = st.body := by
  obtain ⟨v, hv, hbody⟩ := exists_dropStart_eq st.body
  obtain ⟨w, hw, hrest⟩ := exists_dropEnd_eq (st.body.dropStart newline)
  have hsplit : st.body = v ++ (st.content ++ w) := by
    rw [Stretch.content, ← hrest, ← hbody]
  constructor
  · intro h
    obtain ⟨x, hx, hcrlf⟩ := exists_dropEnd_eq st.body.crlf
    have hlength := congrArg List.length hcrlf
    rw [h, List.length_append] at hlength
    rw [hsplit, Text.crlf_append, Text.crlf_append] at hlength
    simp only [List.length_append] at hlength
    have hxlen := hx.length_le
    rcases hv.length_crlf with rfl | hv
    · rcases hw.length_crlf with rfl | hw
      · rw [hsplit]
        simp
      · omega
    · omega
  · intro h
    have hnil : v = [] ∧ w = [] := by
      have hlength := congrArg List.length (hsplit.symm.trans h.symm)
      simp only [List.length_append] at hlength
      exact ⟨List.eq_nil_of_length_eq_zero (by omega), List.eq_nil_of_length_eq_zero (by omega)⟩
    obtain ⟨rfl, rfl⟩ := hnil
    have hstart : st.body.dropStart newline = st.body := hbody.symm
    have hend : st.body.dropEnd newline = st.body := by
      rw [Stretch.content, hstart] at h
      exact h
    rw [dropEnd_crlf_of_eq hend, h]

/-! ### Lines up to carriage returns -/

/-- The lines of a text without its carriage returns, the empty ones left out. -/
def filledLines (s : Text) : List Text :=
  (Text.splitAt '\n' (s.filter (· ≠ '\r'))).filter fun l => !l.isEmpty

theorem filledLines_append_newline (s t : Text) :
    filledLines (s ++ '\n' :: t) = filledLines s ++ filledLines t := by
  rw [filledLines, List.filter_append, List.filter_cons_of_pos (by decide),
    Text.splitAt_append_separator, List.filter_append]
  rfl

theorem filledLines_append_return (s t : Text) :
    filledLines (s ++ '\r' :: t) = filledLines (s ++ t) := by
  rw [filledLines, List.filter_append, List.filter_cons_of_neg (by decide), ← List.filter_append,
    filledLines]

theorem filledLines_append_breaks {w : Text} (hw : Breaks w) (s : Text) :
    filledLines (s ++ w) = filledLines s := by
  induction w generalizing s with
  | nil => rw [List.append_nil]
  | cons c w ih =>
    obtain ⟨hc, hrest⟩ := List.forall_mem_cons.1 hw
    rcases isBreak_iff.1 hc with rfl | rfl
    · have hnil := ih hrest []
      rw [List.nil_append] at hnil
      rw [filledLines_append_newline, hnil, show filledLines [] = [] from rfl, List.append_nil]
    · rw [filledLines_append_return, ih hrest]

theorem filledLines_breaks_append {w : Text} (hw : Breaks w) (s : Text) :
    filledLines (w ++ s) = filledLines s := by
  induction w with
  | nil => rfl
  | cons c w ih =>
    obtain ⟨hc, hrest⟩ := List.forall_mem_cons.1 hw
    rcases isBreak_iff.1 hc with rfl | rfl
    · exact (filledLines_append_newline [] (w ++ s)).trans (ih hrest)
    · exact (filledLines_append_return [] (w ++ s)).trans (ih hrest)

/-- Other line breaks make the same lines. -/
theorem filledLines_of_rebroken {b : LineBreaks} (h : Rebroken b s t) :
    filledLines t = filledLines s := by
  have hall : ∀ u, filledLines (u ++ t) = filledLines (u ++ s) := by
    induction h with
    | final hw =>
      intro u
      rw [filledLines_append_breaks (b.final_breaks _ hw), List.append_nil]
    | @char c s t _ _ ih =>
      intro u
      simpa using ih (u ++ [c])
    | @newline w s t hw _ ih =>
      intro u
      obtain ⟨hmem, hbreaks⟩ := b.newline_breaks w hw
      obtain ⟨x, y, rfl⟩ := List.append_of_mem hmem
      have hx : Breaks x := fun c hc => hbreaks c (by simp [hc])
      have hy : Breaks y := fun c hc => hbreaks c (by simp [hc])
      rw [List.append_assoc, List.cons_append, ← List.append_assoc, filledLines_append_newline,
        filledLines_append_newline, filledLines_append_breaks hx, filledLines_breaks_append hy]
      exact congrArg _ (ih [])
  exact hall []

/-! ### Cutting out -/

theorem crlf_eq_nil (h : s.crlf = []) : s = [] := by
  cases s with
  | nil => rfl
  | cons c s =>
    by_cases hc : c = '\n'
    · rw [hc, Text.crlf_cons_newline] at h
      exact absurd h (List.cons_ne_nil _ _)
    · rw [Text.crlf_cons_of_ne hc] at h
      exact absurd h (List.cons_ne_nil _ _)

/-- The text around a stretch has the same lines under both conventions. -/
theorem joined_crlf (before rest : Text) : ∃ w t, joined before.crlf rest.crlf = w ++ t ∧ Breaks w ∧
    Rebroken .any (joined before rest) t := by
  obtain ⟨v, hv, hbefore⟩ := dropEnd_crlf before
  obtain ⟨w, hw, hrest⟩ := exists_crlf_dropStart rest
  have hpieces : ∃ g, joined before.crlf rest.crlf =
      (before.dropEnd newline).crlf ++ (g ++ (rest.dropStart newline).crlf) ∧ Breaks g ∧
      (before.dropEnd newline ≠ [] → rest.dropStart newline ≠ [] → '\n' ∈ g) := by
    unfold joined
    simp only [dropStart_crlf, hbefore]
    rw [hrest]
    split
    · rename_i hempty
      refine ⟨v ++ w, by simp, hv.append hw, fun hx hy => ?_⟩
      simp only [Bool.or_eq_true, List.isEmpty_iff, List.append_eq_nil_iff] at hempty
      exact absurd (hempty.imp (fun h => crlf_eq_nil h.1) fun h => crlf_eq_nil h.2)
        (by simp [hx, hy])
    · refine ⟨v ++ (newline ++ w), by simp, hv.append (Breaks.append (by decide) hw),
        fun _ _ => by simp [newline]⟩
  obtain ⟨g, hjoined, hg, hgap⟩ := hpieces
  have hx := Rebroken.weaken_inner (b := .crlf) (Rebroken.crlf (before.dropEnd newline))
  have hy := (Rebroken.crlf (rest.dropStart newline)).weaken
  rw [hjoined]
  unfold joined
  generalize before.dropEnd newline = x at hx hgap ⊢
  generalize rest.dropStart newline = y at hy hgap ⊢
  by_cases hxnil : x = []
  · subst hxnil
    exact ⟨g, y.crlf, rfl, hg, hy⟩
  by_cases hynil : y = []
  · subst hynil
    refine ⟨[], x.crlf ++ g, by simp, breaks_nil, ?_⟩
    simpa using hx.append (.final hg)
  · refine ⟨[], x.crlf ++ (g ++ y.crlf), rfl, breaks_nil, ?_⟩
    have hjoin : Rebroken .any ('\n' :: y) (g ++ y.crlf) := .newline ⟨hgap hxnil hynil, hg⟩ hy
    simpa [hxnil, hynil, newline] using hx.append hjoin

/-! ### Putting in at another place -/

theorem crlf_ne_newline_cons (v t : Text) : '\n' :: v ≠ t.crlf := by
  intro h
  have hkept := dropStart_crlf t
  rw [← h] at hkept
  have hlength := congrArg List.length hkept
  simp [Text.dropStart, Text.after?, newline] at hlength

/-- A newline behind a marker shows that it was put in without a carriage return. -/
theorem ne_crlf_of_bare_newline (u v t : Text) : u ++ '>' :: '\n' :: v ≠ t.crlf := by
  induction t generalizing u with
  | nil => simp
  | cons c t ih =>
    by_cases hc : c = '\n'
    · rw [hc, Text.crlf_cons_newline]
      intro h
      rcases u with _ | ⟨a, _ | ⟨a', u⟩⟩
      · exact absurd (List.cons.inj h).1 (by decide)
      · exact absurd (List.cons.inj (List.cons.inj h).2).1 (by decide)
      · exact ih u (List.cons.inj (List.cons.inj h).2).2
    · rw [Text.crlf_cons_of_ne hc]
      intro h
      cases u with
      | nil => exact crlf_ne_newline_cons v t (List.cons.inj h).2
      | cons a u => exact ih u (List.cons.inj h).2

/-- The second text has the lines of the first one, but not all its newlines have a carriage return
in front. -/
def SameLines (r r' : Text) : Prop := filledLines r' = filledLines r ∧ ∀ t, r' ≠ Text.crlf t

theorem sameLines_of_rebroken {b c : LineBreaks} {u u' v v' w x : Text} (hw : Breaks w)
    (hu : Rebroken b u u') (hv : Rebroken c v v') (hx : u' = x ++ ['>']) :
    SameLines (u ++ '\n' :: v) (w ++ u' ++ '\n' :: v') := by
  constructor
  · rw [filledLines_append_newline, filledLines_append_newline, filledLines_breaks_append hw,
      filledLines_of_rebroken hu, filledLines_of_rebroken hv]
  · intro t
    have hbare := ne_crlf_of_bare_newline (w ++ x) v' t
    simpa [hx] using hbare

variable {b : LineBreaks} {u w m : Text}

theorem insertFront?_rebroken (d : Dialect) (hw : Breaks w) (h : Rebroken .any s t)
    (hm : ∃ x, m = x ++ ['>']) :
    Option.Rel SameLines (insertFront? d m s) (insertFront? d m.crlf (w ++ t)) := by
  have hbreak := (Marker.anyOpening_readsComments d).stopsAtBreaks
  have hfind := Rebroken.find (Marker.even_anyOpening (b := .any) d) hbreak h
  rw [insertFront?, insertFront?, Rebroken.find_breaks hbreak hw, Option.map_map]
  refine rel_map hfind fun f g hfg => ?_
  obtain ⟨x, rfl⟩ := hm
  have hhere := hfg.here (Marker.anyOpening_leavesSuffix d)
  have hfront : Rebroken .any (f.before ++ (x ++ ['>'])) (g.before ++ Text.crlf (x ++ ['>'])) :=
    hfg.before.append (Rebroken.crlf (x ++ ['>'])).weaken
  have hends : g.before ++ Text.crlf (x ++ ['>']) = g.before ++ x.crlf ++ ['>'] := by
    rw [Text.crlf_append, List.append_assoc]
    rfl
  have hlines := sameLines_of_rebroken hw hfront hhere hends
  simpa [newline, Text.Found.behind] using hlines

theorem insertAfter?_rebroken {target : Text} (hn : OneLine target) (d : Dialect) (hw : Breaks w)
    (h : Rebroken .any s t) (m : Text) :
    Option.Rel SameLines (insertAfter? d target m s) (insertAfter? d target m.crlf (w ++ t)) := by
  have hbreak := (Marker.closing_readsComments d (d.markerName target)).stopsAtBreaks
  have hfind := Rebroken.find (Marker.even_closing (b := .any) (hn.markerName d) d) hbreak h
  have hends : ∀ {u : Text} {f : Text.Found Unit},
      u.find (Marker.closing d (d.markerName target)) = some f → ∃ x, f.matched = x ++ ['>'] :=
    Marker.exists_matched_of_closing
  rw [insertAfter?, insertAfter?, Rebroken.find_breaks hbreak hw, Option.map_map]
  generalize hs : s.find (Marker.closing d (d.markerName target)) = x at hfind ⊢
  generalize ht : t.find (Marker.closing d (d.markerName target)) = y at hfind ⊢
  cases hfind with
  | none => exact .none
  | @some f g hfg =>
    obtain ⟨x, hx⟩ := hends hs
    obtain ⟨y, hy⟩ := hends ht
    have hhere := hfg.here (Marker.closing_leavesSuffix d _)
    rw [hx, hy] at hhere
    have hmatched := Rebroken.cut (by decide) (by decide) hhere hfg.rest
    have hfront : Rebroken LineBreaks.any.inner (f.before ++ (x ++ ['>']))
        (g.before ++ (y ++ ['>'])) :=
      Rebroken.append (b := LineBreaks.any.inner) hfg.before hmatched
    have hback : Rebroken .any (m ++ f.rest) (m.crlf ++ g.rest) :=
      (Rebroken.weaken_inner (b := .crlf) (Rebroken.crlf m)).append hfg.rest
    have hlines := sameLines_of_rebroken hw hfront hback (List.append_assoc ..).symm
    refine .some ?_
    simpa [newline, Text.Found.behind, hx, hy] using hlines

/-! ### Moving a block -/

theorem exists_matched_of_find? {f : Text.Found Stretch} (h : Stretch.find? d name s = some f) :
    ∃ x, f.matched = x ++ ['>'] := by
  have hread := (Text.read_of_find (Stretch.named_leavesSuffix d (d.markerName name)) h).1
  obtain ⟨inner, close, hopen, hclose, _, hrest⟩ := Stretch.named_eq_some_iff.1 hread
  obtain ⟨u, hu⟩ := Marker.opening_leavesSuffix d _ _ _ _ hopen
  obtain ⟨x, hx⟩ := Marker.exists_matched_of_closing hclose
  have hinner := Text.find_eq_append (Marker.closing_leavesSuffix d _) hclose
  refine ⟨u ++ (close.before ++ x), (List.append_left_inj f.rest).1 ?_⟩
  rw [← hu, hinner, hx, hrest]
  simp

/-- Two rewrites that fail alike or give results with the given relation. -/
def Agree (p : Text → Text → Prop) : Except RewriteError Text → Except RewriteError Text → Prop
  | .error e, .error e' => e' = e
  | .ok r, .ok r' => p r r'
  | _, _ => False

theorem moveBlock_crlf {after : Option Text} (hname : OneLine name)
    (hafter : ∀ target, after = some target → target = [] ∨ OneLine target) :
    Agree (fun r r' => r = s ∧ r' = s.crlf ∨ SameLines r r') (moveBlock s name after)
      (moveBlock s.crlf name after) := by
  simp only [moveBlock, ofText_crlf, find?_crlf hname]
  cases hf : Stretch.find? (Dialect.ofText s) name s with
  | none => exact rfl
  | some f =>
    obtain ⟨w, t, hjoined, hw, ht⟩ := joined_crlf f.before f.rest
    simp only [Option.map_some, Text.Found.crlf, hjoined]
    cases htarget : after.filter (!·.isEmpty) with
    | none =>
      have hinsert := insertFront?_rebroken (Dialect.ofText s) hw ht (exists_matched_of_find? hf)
      simp only
      generalize insertFront? _ f.matched _ = x at hinsert ⊢
      generalize insertFront? _ f.matched.crlf _ = y at hinsert ⊢
      cases hinsert with
      | none => exact .inl ⟨rfl, rfl⟩
      | some hlines => exact .inr hlines
    | some target =>
      obtain ⟨hsome, hne⟩ := Option.filter_eq_some_iff.1 htarget
      have hn : OneLine target := (hafter target hsome).resolve_left (by simpa using hne)
      have hinsert := insertAfter?_rebroken hn (Dialect.ofText s) hw ht f.matched
      simp only
      split
      · exact .inl ⟨rfl, rfl⟩
      · generalize insertAfter? _ target f.matched _ = x at hinsert ⊢
        generalize insertAfter? _ target f.matched.crlf _ = y at hinsert ⊢
        cases hinsert with
        | none => exact rfl
        | some hlines => exact .inr hlines

/-- Rewriting a text with carriage returns in front of its newlines. The body is the one of the text
without them when no newline stands at its ends, and in no other case. A move fails on the same
names; it leaves both texts as they are, or its results have the same lines but for carriage returns
and empty lines, and then a newline without a carriage return was put in. -/
theorem rewriting_crlf {after : Option Text} (hname : OneLine name)
    (hafter : ∀ target, after = some target → target = [] ∨ OneLine target) (s : Text) :
    body? s.crlf name = (s.stretch? name).map (fun f => f.value.body.crlf.dropEnd newline) ∧
      (∀ f, s.stretch? name = some f →
        (body? s.crlf name = (body? s name).map Text.crlf ↔ f.value.content = f.value.body)) ∧
      Agree (fun r r' => r = s ∧ r' = s.crlf ∨ SameLines r r') (moveBlock s name after)
        (moveBlock s.crlf name after) := by
  have hbody := body?_crlf hname s
  refine ⟨hbody, fun f hf => ?_, moveBlock_crlf hname hafter⟩
  rw [hbody, body?, hf, Option.map_some, Option.map_some, Option.map_some, Option.some_inj]
  exact dropEnd_crlf_iff f.value

theorem rewriting_crlf_blocks : ∃ f, blocksAB.stretch? "a".toList = some f ∧
    (body? blocksAB.crlf "a".toList = (body? blocksAB "a".toList).map Text.crlf ↔
      f.value.content = f.value.body) ∧
    Agree (fun r r' => r = blocksAB ∧ r' = blocksAB.crlf ∨ SameLines r r')
      (moveBlock blocksAB "a".toList (some "b".toList))
      (moveBlock blocksAB.crlf "a".toList (some "b".toList)) := by
  have hname : OneLine "a".toList := by decide
  have hafter : ∀ target, some "b".toList = some target → target = [] ∨ OneLine target := by
    rintro _ ⟨rfl⟩
    exact .inr (by decide)
  obtain ⟨_, hbody, hmove⟩ := rewriting_crlf hname hafter blocksAB
  have hf : blocksAB.stretch? "a".toList = some _ := rfl
  exact ⟨_, hf, hbody _ hf, hmove⟩

/-- The line breaks at the ends of a body on lines of its own stay, and a move puts in a bare
newline and leaves an empty line. -/
theorem rewriting_crlf_differs : '\r' ∉ blocksAB ∧
    body? blocksAB "a".toList = some "A".toList ∧
    body? blocksAB.crlf "a".toList = some "\r\nA\r".toList ∧
    moveBlock blocksAB "a".toList (some "b".toList) = .ok blocksBA ∧
    moveBlock blocksAB.crlf "a".toList (some "b".toList) =
      .ok ("\r\n".toList ++ blockB.crlf ++ newline ++ blockA.crlf ++ "\r\n".toList) ∧
    Text.crlf "A".toList ≠ "\r\nA\r".toList ∧
    "\r\n".toList ++ blockB.crlf ++ newline ++ blockA.crlf ++ "\r\n".toList ≠ blocksBA.crlf := by
  exact ⟨by decide, rfl, rfl, rfl, rfl, by decide, by decide⟩

end TemplateBlocks
