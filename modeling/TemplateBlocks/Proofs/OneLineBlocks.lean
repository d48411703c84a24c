import TemplateBlocks.Proofs.LineMarkers
import TemplateBlocks.Proofs.MarkerSeams

/-!
# Blocks on one line

A line that begins with an opening directive can end in a closing one. The line scan looks for it
from the left, so it takes the first closing directive that reaches the end of the line, and the
name of this one can run on over the start of another (`Marker.find_lastDirective`). A block on one
line is therefore recognised unless a closing directive runs into its closing marker, and then it
stays open (`Scan.ofText_oneLine`).
-/

namespace TemplateBlocks

namespace Marker

variable {word n k mid c s rest : Text}

/-! ### Directives at the end of a line -/

theorem lastDirective_iff (hword : IsKeyword word) : lastDirective word s = some (n, rest) ↔
    Named .directive n ∧ SpellsDirective word n s ∧ rest = [] := by
  constructor
  · intro h
    obtain ⟨m, hm, rfl⟩ := (namedDirective_iff hword).1 (namedDirective_of_lastDirective h)
    obtain ⟨t, _, h⟩ := Option.bind_eq_some_iff.1 h
    obtain ⟨hne, hplain, x, _, hend⟩ := Text.shortest_eq_append h
    obtain rfl : rest = [] := by simpa using (Option.filter_eq_some_iff.1 hend).2
    refine ⟨⟨hne, fun a ha => by simpa [isDirectiveChar] using hplain a ha⟩, ?_, rfl⟩
    rwa [List.append_nil]
  · rintro ⟨⟨hne, hplain⟩, hs, rfl⟩
    have hnamed := (namedDirective_iff hword).2 ⟨s, hs, (List.append_nil s).symm⟩
    obtain ⟨x, hstart, hend⟩ := namedDirective_eq_some_iff.1 hnamed
    have hlast : (afterEnd? x).filter List.isEmpty = some [] := by rw [hend]; rfl
    have hchars : ∀ a ∈ n, isDirectiveChar a = true := fun a ha => by
      simp [isDirectiveChar, hplain a ha]
    have hread : Text.shortest isDirectiveChar (fun t => (afterEnd? t).filter List.isEmpty)
        (n ++ x) = some (n, []) := by
      refine Text.shortest_append hne hchars hlast fun t ht hsuf => ?_
      -- In front of the end of the name, more than blanks stands before the end of the comment.
      obtain ⟨w, hw, rfl⟩ := afterEnd?_iff.1 hend
      refine Option.filter_eq_none_iff.2 fun r hr hempty => ?_
      obtain rfl := List.isEmpty_iff.1 hempty
      obtain ⟨w', hw', heq⟩ := afterEnd?_iff.1 hr
      rw [← List.append_assoc] at heq
      have hblank : t ++ w = w' := List.append_cancel_right heq
      obtain ⟨a, t, rfl⟩ := List.exists_cons_of_ne_nil ht
      have ha : isBlank a = true := hw' a (by simp [← hblank])
      have hplain := hplain a (List.mem_of_mem_tail (hsuf.subset (List.mem_cons_self ..)))
      rw [ha] at hplain
      exact absurd hplain (by decide)
    rw [lastDirective, hstart]
    exact hread

/-- A closing directive begins in the text and nothing ends its name in front of the marker, which
has no blank behind the start of its comment. -/
def RunsInto (mid c : Text) : Prop :=
  commentStart ++ closeWord <+: c ∧ ∃ x v y, Blanks v ∧ (∀ a ∈ y, isBlank a = false) ∧
    mid = x ++ (commentStart ++ (v ++ (closeWord ++ y)))

theorem RunsInto.append_left (h : RunsInto mid c) (u : Text) : RunsInto (u ++ mid) c := by
  obtain ⟨hc, x, v, y, hv, hy, rfl⟩ := h
  exact ⟨hc, u ++ x, v, y, hv, hy, by simp⟩

theorem RunsInto.exists_spelling (hn : Named .directive n) (hc : SpellsClosing .directive n c)
    (h : RunsInto mid c) : ∃ x z k, mid = x ++ z ∧ z ≠ [] ∧ Named .directive k ∧
      SpellsClosing .directive k (z ++ c) := by
  obtain ⟨v', w, hv', hw, rfl⟩ := hc
  obtain ⟨⟨r, hr⟩, x, v, y, hv, hy, rfl⟩ := h
  rw [List.append_assoc, List.append_cancel_left_eq] at hr
  obtain rfl : v' = [] := by
    cases v' with
    | nil => rfl
    | cons a v' =>
      have ha : isBlank a = true := hv' a (List.mem_cons_self ..)
      obtain rfl : '@' = a := (List.cons.inj hr).1
      exact absurd ha (by decide)
  have hplain : Text.Free isBlank (commentStart ++ closeWord) := by decide
  refine ⟨x, _, y ++ (commentStart ++ closeWord ++ n), rfl, by simp [commentStart], ⟨?_, ?_⟩,
    v, w, hv, hw, by simp⟩
  · simp [commentStart]
  · intro a ha
    rcases List.mem_append.1 ha with ha | ha
    · exact hy a ha
    · exact (List.mem_append.1 ha).elim (hplain a) (hn.2 a)

theorem Named.trimEnd_append {w : Text} (hn : Named .directive n) (hw : Blanks w) (u : Text) :
    Text.trimEnd (u ++ n ++ w) = u ++ n := by
  obtain ⟨t, a, rfl⟩ := (List.eq_nil_or_concat' n).resolve_left hn.1
  have ha : isBlank a = false := hn.2 a (by simp)
  have htrim := Text.trimEnd_append ha (u ++ t) hw
  simpa using htrim

/-- A closing directive that begins in front of a closing marker and ends with it runs into it, and
has a longer name. -/
theorem runsInto_of_spelling (hn : Named .directive n) (hc : SpellsClosing .directive n c)
    (hk : Named .directive k) (hmid : mid ≠ []) (h : SpellsClosing .directive k (mid ++ c)) :
    RunsInto mid c ∧ k ≠ n := by
  obtain ⟨v, w, hv, hw, rfl⟩ := hc
  obtain ⟨b, w', hb, hw', heq⟩ := h
  let head := commentStart ++ (b ++ closeWord)
  -- Without the end of the comment and the blanks there, both markers end with their names.
  have hends : mid ++ (commentStart ++ (v ++ closeWord)) ++ n ++ w ++ commentEnd =
      head ++ k ++ w' ++ commentEnd := by simpa [head] using heq
  have hnames := congrArg Text.trimEnd (List.append_cancel_right hends)
  rw [hn.trimEnd_append hw, hk.trimEnd_append hw', List.append_assoc] at hnames
  obtain ⟨y, rfl, rfl⟩ : ∃ y, mid = head ++ y ∧
      k = y ++ (commentStart ++ (v ++ closeWord) ++ n) := by
    rcases List.append_eq_append_iff.1 hnames with ⟨a, ha, hrest⟩ | ⟨y, hy, hrest⟩
    · cases a with
      | nil => exact ⟨[], by simpa using ha.symm, hrest.symm⟩
      | cons d a =>
        -- The marker would begin within the start of the other directive.
        obtain rfl : '<' = d := (List.cons.inj hrest).1
        obtain ⟨e, mid, rfl⟩ := List.exists_cons_of_ne_nil hmid
        have htail : "!--".toList ++ (b ++ closeWord) = mid ++ '<' :: a := (List.cons.inj ha).2
        have hfree : AngleFree ("!--".toList ++ (b ++ closeWord)) :=
          AngleFree.append (by decide) (hb.angleFree.append (by decide))
        rw [htail] at hfree
        exact absurd hfree.1 (by simp)
    · exact ⟨y, hy, hrest⟩
  obtain rfl : v = [] := List.eq_nil_iff_forall_not_mem.2 fun a ha => by
    have hplain := hk.2 a (by simp [ha])
    rw [hv a ha] at hplain
    exact absurd hplain (by decide)
  refine ⟨⟨⟨n ++ (w ++ commentEnd), by simp⟩, [], b, y, hb, fun a ha => hk.2 a (by simp [ha]),
    by simp [head]⟩, fun heq => ?_⟩
  have hlen := congrArg List.length heq
  have hstart : commentStart.length = 4 := by decide
  simp only [List.length_append, hstart] at hlen
  omega

/-- The search for a closing directive at the end of a line finds the one that stands there, unless
another one runs into it. -/
theorem find_lastDirective (hn : Named .directive n) (hc : SpellsClosing .directive n c)
    (mid : Text) : ∃ f, Text.find (lastDirective closeWord) (mid ++ c) = some f ∧
      (f.value ≠ n ↔ RunsInto mid c) := by
  have hread : ∀ {k s : Text}, Named .directive k → SpellsClosing .directive k s →
      lastDirective closeWord s = some (k, []) := fun hk hs =>
    (lastDirective_iff isKeyword_closeWord).2 ⟨hk, hs, rfl⟩
  obtain ⟨t, ht⟩ := hc.exists_eq_cons
  have hne : c ≠ [] := by simp [ht, commentStart]
  obtain ⟨f, hf, hbefore⟩ := Text.exists_find_of_read (u := mid) hne (hread hn hc)
  refine ⟨f, hf, ?_⟩
  obtain ⟨m, rfl⟩ := hbefore
  have hsuffix := lastDirective_leavesSuffix closeWord
  have hsplit := Text.find_eq_append hsuffix hf
  rw [List.append_assoc, List.append_assoc, List.append_cancel_left_eq] at hsplit
  have hfound := (Text.read_of_find hsuffix hf).1
  rw [← hsplit] at hfound
  obtain ⟨hk, hm, _⟩ := (lastDirective_iff isKeyword_closeWord).1 hfound
  constructor
  · intro hvalue
    have hmne : m ≠ [] := by
      rintro rfl
      rw [List.nil_append, hread hn hc] at hfound
      exact hvalue (Prod.mk.inj (Option.some.inj hfound)).1.symm
    exact (runsInto_of_spelling hn hc hk hmne hm).1.append_left _
  · intro hruns
    obtain ⟨x, z, k, hmid, hz, hk', hspell⟩ := hruns.exists_spelling hn hc
    obtain ⟨g, hg, hfirst⟩ := Text.exists_find_of_read (u := x) (by simp [hz]) (hread hk' hspell)
    rw [← List.append_assoc, ← hmid, hf] at hg
    obtain rfl := Option.some.inj hg
    have hmne : m ≠ [] := by
      rintro rfl
      have hlen := congrArg List.length hmid
      have hle := hfirst.length_le
      have hpos := List.length_pos_of_ne_nil hz
      simp only [List.append_nil, List.length_append] at hlen
      omega
    exact (runsInto_of_spelling hn hc hk hmne hm).2

end Marker

/-! ### A block on one line -/

theorem MarkerEvent.ofLine_oneLine {n o c : Text} (hn : DirectiveText n)
    (ho : Marker.SpellsOpening .directive n o) (hc : Marker.SpellsClosing .directive n c)
    (mid : Text) : ∃ k, MarkerEvent.ofLine (o ++ (mid ++ c)) =
      [.opens ⟨.directive, n⟩, .closes ⟨.directive, k⟩] ∧ (k ≠ n ↔ Marker.RunsInto mid c) := by
  have hnamed : Marker.namedDirective Marker.openWord n (o ++ (mid ++ c)) = some ((), mid ++ c) :=
    (Marker.namedDirective_iff Marker.isKeyword_openWord).2 ⟨o, ho, rfl⟩
  have hopen := Marker.directive_of_namedDirective hn hnamed
  obtain ⟨f, hf, hname⟩ := Marker.find_lastDirective ⟨hn.ne_nil, hn.not_blank⟩ hc mid
  refine ⟨f.value, ?_, hname⟩
  rw [ofLine, hopen]
  simp only [hf]
  rfl

theorem Text.events_of_line {s : Text} (hne : s ≠ []) (hline : '\n' ∉ s) :
    MarkerEvent.ofLines s.lines = (MarkerEvent.ofLine s.trim).map fun e => (e, 1) := by
  obtain ⟨a, t, rfl⟩ := List.exists_cons_of_ne_nil hne
  have hlines : Text.lines (a :: t) = [a :: t] := Text.splitAt_of_not_mem hline
  rw [hlines]
  exact (eventsFrom_cons 1 _ []).trans (List.append_nil _)

/-- A line of an opening directive, anything, and a closing directive of the same name is scanned as
one block, unless a closing directive in between runs into the closing marker. Then nothing closes
the block. -/
theorem Scan.ofText_oneLine {n o mid c : Text} (hn : DirectiveText n)
    (ho : Marker.SpellsOpening .directive n o) (hc : Marker.SpellsClosing .directive n c)
    (hline : '\n' ∉ o ++ (mid ++ c)) :
    (¬ Marker.RunsInto mid c → ofText (o ++ (mid ++ c)) = ⟨[⟨n, .delimited, 1, 1, true⟩], []⟩) ∧
    (Marker.RunsInto mid c → ofText (o ++ (mid ++ c)) = ⟨[], [⟨⟨.directive, n⟩, 1⟩]⟩) := by
  obtain ⟨k, hevents, hname⟩ := MarkerEvent.ofLine_oneLine hn ho hc mid
  obtain ⟨t, ht⟩ := ho.exists_eq_cons
  obtain ⟨u, hu⟩ := hc.exists_eq_append
  have htrim : (o ++ (mid ++ c)).trim = o ++ (mid ++ c) := by
    have hends := Text.trim_of_ends (a := '<') (z := '>') (by decide) (by decide)
      ("!--".toList ++ t ++ (mid ++ (u ++ "--".toList)))
    simpa [ht, hu, Marker.commentStart, Marker.commentEnd] using hends
  have hread := Text.events_of_line (s := o ++ (mid ++ c)) (by simp [ht, Marker.commentStart]) hline
  rw [htrim, hevents] at hread
  constructor
  · intro hruns
    obtain rfl : k = n := by_contra fun hne => hruns (hname.1 hne)
    have hpairs : pairMarkers (MarkerEvent.ofLines (o ++ (mid ++ c)).lines) [] =
        ([⟨⟨.directive, k⟩, 1, 1⟩], []) := by
      rw [hread]
      exact pairMarkers_adjacent ⟨.directive, k⟩ 1 1 [] []
    simp [ofText, ofLines, hpairs, Block.sort, MarkerPair.block, Dialect.blockName]
  · intro hruns
    have hkey : (⟨.directive, n⟩ : MarkerKey) ≠ ⟨.directive, k⟩ := by
      simp [(hname.2 hruns).symm]
    have hpairs : pairMarkers (MarkerEvent.ofLines (o ++ (mid ++ c)).lines) [] =
        ([], [⟨⟨.directive, n⟩, 1⟩]) := by
      rw [hread]
      simp [pairMarkers, takeOpen, hkey]
    simp [ofText, ofLines, hpairs, Block.sort]

/-- A blank in the closing marker keeps the name of an unfinished directive from running into it. -/
theorem Scan.ofText_oneLine_spaced :
    ofText "<!-- @block:a -->$x<!--@endblock:b<!-- @endblock:a -->".toList =
      ⟨[⟨"a".toList, .delimited, 1, 1, true⟩], []⟩ := by
  have hn : DirectiveName "a".toList := by decide
  have hblanks : Blanks [' '] := gap_space.1
  have ho : Marker.SpellsOpening .directive "a".toList "<!-- @block:a -->".toList :=
    ⟨[' '], [' '], hblanks, hblanks, by decide⟩
  have hc : Marker.SpellsClosing .directive "a".toList "<!-- @endblock:a -->".toList :=
    ⟨[' '], [' '], hblanks, hblanks, by decide⟩
  have hline : '\n' ∉ "<!-- @block:a -->".toList ++
      ("$x<!--@endblock:b".toList ++ "<!-- @endblock:a -->".toList) := by decide
  refine (ofText_oneLine hn.toText ho hc hline).1 ?_
  rintro ⟨hbegins, _⟩
  exact absurd hbegins (by decide)

/-- The closing marker of an inner block runs into that of the block around it. -/
theorem oneLine_block_missed :
    Marker.SpellsOpening .directive "a".toList "<!--@block:a-->".toList ∧
    Marker.SpellsClosing .directive "a".toList "<!--@endblock:a-->".toList ∧
    Scan.ofText ("<!--@block:a-->".toList ++
      ("<!--@block:b-->x<!--@endblock:b-->".toList ++ "<!--@endblock:a-->".toList)) =
      ⟨[], [⟨⟨.directive, "a".toList⟩, 1⟩]⟩ := by
  have hblanks : Blanks [] := by simp [Blanks]
  exact ⟨⟨[], [], hblanks, hblanks, by decide⟩, ⟨[], [], hblanks, hblanks, by decide⟩,
    by decide +kernel⟩

end TemplateBlocks
