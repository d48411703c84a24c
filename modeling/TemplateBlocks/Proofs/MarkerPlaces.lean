import TemplateBlocks.Proofs.LineMarkers

/-!
# Markers and stretches of any name

The markers of a block are read in all their spellings whatever its name is, also when the name
begins with blanks or holds a whole comment (`Marker.reads_opening_iff`,
`Marker.reads_closing_iff`). So the search for a stretch takes the leftmost opening marker of the
name and the first closing one behind it (`find_named_iff`), and it fails only when no opening
marker stands in front of a closing one (`find_named_eq_none_iff`).
-/

namespace TemplateBlocks

namespace Marker

variable {d : Dialect} {n s rest : Text}

/-! ### Names behind blanks -/

/-- Blanks in front of a name may be its own, but what follows the marker is the same. -/
theorem rest_eq_of_blanks {v w w' rest' : Text} (hv : Blanks v) (hw : Blanks w) (hw' : Blanks w')
    (h : v ++ (n ++ (w ++ (commentEnd ++ rest))) = n ++ (w' ++ (commentEnd ++ rest'))) :
    rest = rest' := by
  have hend : ∀ {x : Text} (_ : Blanks x) (t : Text),
      Text.dropBlanks (x ++ (commentEnd ++ t)) = commentEnd ++ t := fun hx t => by
    rw [Text.dropBlanks_append hx, isKeyword_commentEnd.dropBlanks]
  have hname : ∀ t : Text, Text.dropBlanks (n ++ t) =
      if n.dropBlanks.isEmpty then t.dropBlanks else n.dropBlanks ++ t := fun t =>
    List.dropWhile_append
  have hdrop := congrArg Text.dropBlanks h
  rw [Text.dropBlanks_append hv, hname, hname] at hdrop
  by_cases hn : n.dropBlanks.isEmpty = true
  · rw [if_pos hn, if_pos hn, hend hw, hend hw'] at hdrop
    exact List.append_cancel_left hdrop
  · rw [if_neg hn, if_neg hn] at hdrop
    have hbehind := congrArg Text.dropBlanks (List.append_cancel_left hdrop)
    rw [hend hw, hend hw'] at hbehind
    exact List.append_cancel_left hbehind

theorem reads_spacedName_iff : afterSpacedName? n s = some rest ↔
    ∃ v w, Gap v ∧ Gap w ∧ s = v ++ (n ++ (w ++ (commentEnd ++ rest))) := by
  induction s with
  | nil =>
    refine ⟨fun h => by simp [afterSpacedName?] at h, ?_⟩
    rintro ⟨v, w, hv, _, hs⟩
    exact absurd (List.append_eq_nil_iff.1 hs.symm).1 hv.2
  | cons c s ih =>
    constructor
    · intro h
      unfold afterSpacedName? at h
      split at h
      · rename_i hc
        have hblank : Blanks [c] := by simpa [Blanks] using hc
        split at h
        · rename_i found hfound
          obtain rfl := Option.some.inj h
          obtain ⟨t, ht, hend⟩ := Option.bind_eq_some_iff.1 hfound
          obtain ⟨w, hw, rfl⟩ := afterSpacedEnd?_iff.1 hend
          obtain rfl := Text.eq_append_of_after? ht
          exact ⟨[c], w, ⟨hblank, List.cons_ne_nil c []⟩, hw, rfl⟩
        · obtain ⟨v, w, hv, hw, rfl⟩ := ih.1 h
          exact ⟨c :: v, w, hblank.append_gap hv, hw, rfl⟩
      · exact absurd h (by simp)
    · rintro ⟨v, w, ⟨hv, hne⟩, hw, heq⟩
      obtain ⟨b, v, rfl⟩ := List.exists_cons_of_ne_nil hne
      obtain ⟨hcb, hs⟩ := List.cons.inj heq
      subst hcb
      obtain ⟨hc, hv⟩ := List.forall_mem_cons.1 hv
      rw [afterSpacedName?, if_pos hc]
      split
      · rename_i found hfound
        obtain ⟨t, ht, hend⟩ := Option.bind_eq_some_iff.1 hfound
        obtain ⟨w', hw', rfl⟩ := afterSpacedEnd?_iff.1 hend
        have hread := Text.eq_append_of_after? ht
        rw [hs] at hread
        rw [rest_eq_of_blanks hv hw.1 hw'.1 hread]
      · rename_i hnone
        refine ih.2 ⟨v, w, ⟨hv, ?_⟩, hw, hs⟩
        -- The name does not begin here, so there are more blanks in front of it.
        rintro rfl
        have hread : Text.after? s n >>= afterSpacedEnd? = some rest := by
          rw [hs, show [].append (n ++ (w ++ (commentEnd ++ rest))) =
            n ++ (w ++ (commentEnd ++ rest)) from rfl, Text.after?_append]
          exact afterSpacedEnd?_iff.2 ⟨w, hw, rfl⟩
        exact absurd (hread.symm.trans hnone) (by simp)

theorem reads_opening_iff :
    opening d n s = some ((), rest) ↔ ∃ m, SpellsOpening d n m ∧ s = m ++ rest := by
  cases d with
  | directive => exact namedDirective_iff isKeyword_openWord
  | banner =>
    constructor
    · intro h
      obtain ⟨t, ht, h⟩ := Option.bind_eq_some_iff.1 h
      obtain rfl : t = rest := by simpa using h
      obtain ⟨x, hx, hname⟩ := Option.bind_eq_some_iff.1 ht
      obtain ⟨v, w, hv, hw, rfl⟩ := reads_spacedName_iff.1 hname
      obtain rfl := Text.eq_append_of_after? hx
      exact ⟨_, ⟨v, w, hv, hw, rfl⟩, by simp⟩
    · rintro ⟨m, ⟨v, w, hv, hw, rfl⟩, rfl⟩
      have hname : afterSpacedName? n (v ++ (n ++ (w ++ (commentEnd ++ rest)))) = some rest :=
        reads_spacedName_iff.2 ⟨v, w, hv, hw, rfl⟩
      simp only [opening, List.append_assoc, Text.after?_append, Option.bind_eq_bind,
        Option.bind_some, hname]
      rfl

theorem reads_closing_iff :
    closing d n s = some ((), rest) ↔ ∃ m, SpellsClosing d n m ∧ s = m ++ rest := by
  cases d with
  | directive => exact namedDirective_iff isKeyword_closeWord
  | banner =>
    constructor
    · intro h
      obtain ⟨t, ht, h⟩ := Option.bind_eq_some_iff.1 h
      obtain ⟨x, hx, h⟩ := Option.bind_eq_some_iff.1 h
      obtain rfl : x = rest := by simpa using h
      obtain ⟨y, hy, hblank⟩ := Option.bind_eq_some_iff.1 ht
      obtain ⟨z, hz, hname⟩ := Option.bind_eq_some_iff.1 hx
      obtain ⟨u, hu, rfl, _⟩ := Text.dropBlanks1?_eq_some_iff.1 hblank
      obtain ⟨v, w, hv, hw, rfl⟩ := reads_spacedName_iff.1 hname
      obtain rfl := Text.eq_append_of_after? hy
      obtain rfl := Text.eq_append_of_after? hz
      exact ⟨_, ⟨u, v, w, hu, hv, hw, rfl⟩, by simp⟩
    · rintro ⟨m, ⟨u, v, w, hu, hv, hw, rfl⟩, rfl⟩
      have hname : afterSpacedName? n (v ++ (n ++ (w ++ (commentEnd ++ rest)))) = some rest :=
        reads_spacedName_iff.2 ⟨v, w, hv, hw, rfl⟩
      have hgap : Text.dropBlanks1? (u ++ (endOf ++ (v ++ (n ++ (w ++ (commentEnd ++ rest)))))) =
          some (endOf ++ (v ++ (n ++ (w ++ (commentEnd ++ rest))))) :=
        Text.dropBlanks1?_eq_some_iff.2 ⟨u, hu, rfl, isKeyword_endOf.dropBlanks _⟩
      simp only [closing, List.append_assoc, Text.after?_append, Option.bind_eq_bind,
        Option.bind_some, hgap, hname]
      rfl

end Marker

/-! ### The first stretch of a name -/

/-- A stretch of a text runs from the leftmost opening marker of a name to the first closing marker
behind it. -/
structure FirstStretch (d : Dialect) (n s : Text) (f : Text.Found Stretch) : Prop where
  name_eq : f.value.name = n
  matched_eq : f.matched = f.value.text
  eq_append : s = f.before ++ (f.value.opening ++ (f.value.body ++ (f.value.closing ++ f.rest)))
  opens : Marker.SpellsOpening d n f.value.opening
  closes : Marker.SpellsClosing d n f.value.closing
  leftmost : ∀ u m t, s = u ++ (m ++ t) → Marker.SpellsOpening d n m → f.before <+: u
  first : ∀ u m t, f.value.body ++ (f.value.closing ++ f.rest) = u ++ (m ++ t) →
    Marker.SpellsClosing d n m → f.value.body <+: u

variable {d : Dialect} {n s : Text} {f g : Text.Found Stretch}

namespace Marker

theorem SpellsOpening.ne_nil {m : Text} (h : SpellsOpening d n m) : m ≠ [] := by
  obtain ⟨t, rfl⟩ := h.exists_eq_append
  simp [commentEnd]

theorem SpellsClosing.ne_nil {m : Text} (h : SpellsClosing d n m) : m ≠ [] := by
  obtain ⟨t, rfl⟩ := h.exists_eq_append
  simp [commentEnd]

/-- Two markers of one kind that stand at the same place are the same. -/
theorem eq_of_append_eq {m m' t t' : Text} (hcount : plainCount m = plainCount m')
    (hm : ∃ x, m = x ++ commentEnd) (hm' : ∃ x, m' = x ++ commentEnd) (heq : m ++ t = m' ++ t') :
    m = m' ∧ t = t' := by
  obtain ⟨x, hx⟩ := hm
  obtain ⟨x', hx'⟩ := hm'
  have hle := length_le_of_plainCount (u := []) hcount hx heq
  have hge := length_le_of_plainCount (u := []) hcount.symm hx' heq.symm
  simp only [List.length_nil, Nat.zero_add] at hle hge
  exact List.append_inj heq (Nat.le_antisymm hle hge)

/-- The search for a closing marker stops at the first one. -/
theorem find_closing_iff {f : Text.Found Unit} : s.find (closing d n) = some f ↔
    SpellsClosing d n f.matched ∧ s = f.before ++ (f.matched ++ f.rest) ∧
      ∀ u m t, s = u ++ (m ++ t) → SpellsClosing d n m → f.before <+: u := by
  have hsuffix := closing_leavesSuffix d n
  have hsound : ∀ g : Text.Found Unit, s.find (closing d n) = some g →
      SpellsClosing d n g.matched ∧ s = g.before ++ (g.matched ++ g.rest) := by
    intro g hg
    obtain ⟨m, hm, hend⟩ := reads_closing_iff.1 (Text.read_of_find hsuffix hg).1
    obtain rfl : g.matched = m := List.append_cancel_right hend
    exact ⟨hm, (Text.find_eq_append hsuffix hg).trans (List.append_assoc ..)⟩
  have hfirst : ∀ u m t, s = u ++ (m ++ t) → SpellsClosing d n m →
      ∃ g, s.find (closing d n) = some g ∧ g.before <+: u := by
    intro u m t hs hm
    rw [hs]
    exact Text.exists_find_of_read (by simp [hm.ne_nil]) (reads_closing_iff.2 ⟨m, hm, rfl⟩)
  constructor
  · intro h
    obtain ⟨hm, hs⟩ := hsound f h
    refine ⟨hm, hs, fun u m t ht hspells => ?_⟩
    obtain ⟨g, hg, hbefore⟩ := hfirst u m t ht hspells
    obtain rfl := Option.some.inj (h.symm.trans hg)
    exact hbefore
  · rintro ⟨hm, hs, hleast⟩
    obtain ⟨g, hg, hbefore⟩ := hfirst _ _ _ hs hm
    obtain ⟨hm', hs'⟩ := hsound g hg
    have heq : g.before = f.before :=
      hbefore.eq_of_length_le (hleast _ _ _ hs' hm').length_le
    have htext := hs'.symm.trans hs
    rw [heq, List.append_cancel_left_eq] at htext
    obtain ⟨hmatched, hrest⟩ := eq_of_append_eq (hm'.plainCount_eq hm) hm'.exists_eq_append
      hm.exists_eq_append htext
    rw [hg]
    obtain ⟨_, _, _, _⟩ := f
    obtain ⟨_, _, _, _⟩ := g
    simp only [Option.some.injEq, Text.Found.mk.injEq]
    exact ⟨heq, trivial, hmatched, hrest⟩

end Marker

/-- An opening marker with a closing one somewhere behind it is where the search stops, or the
search stops before it. -/
theorem Stretch.exists_find_of_spells {u o v c t : Text} (ho : Marker.SpellsOpening d n o)
    (hc : Marker.SpellsClosing d n c) : ∃ f,
      (u ++ (o ++ (v ++ (c ++ t)))).find (Stretch.named d n) = some f ∧ f.before <+: u := by
  have hread : Marker.closing d n (c ++ t) = some ((), t) :=
    Marker.reads_closing_iff.2 ⟨c, hc, rfl⟩
  have hne : c ++ t ≠ [] := by simp [hc.ne_nil]
  obtain ⟨close, hclose, _⟩ := Text.exists_find_of_read (u := v) hne hread
  have hopen : Marker.opening d n (o ++ (v ++ (c ++ t))) = some ((), v ++ (c ++ t)) :=
    Marker.reads_opening_iff.2 ⟨o, ho, rfl⟩
  have hnamed := Stretch.named_eq_some_iff.2 ⟨_, close, hopen, hclose, rfl, rfl⟩
  exact Text.exists_find_of_read (by simp [ho.ne_nil]) hnamed

theorem firstStretch_of_find (h : s.find (Stretch.named d n) = some f) : FirstStretch d n s f := by
  have hsuffix := Stretch.named_leavesSuffix d n
  have hsplit := Text.find_eq_append hsuffix h
  obtain ⟨inner, close, hopening, hclose, hvalue, hrest⟩ :=
    Stretch.named_eq_some_iff.1 (Text.read_of_find hsuffix h).1
  obtain ⟨o, ho, hstart⟩ := Marker.reads_opening_iff.1 hopening
  obtain ⟨hc, hinner, hfirst⟩ := Marker.find_closing_iff.1 hclose
  rw [hstart, Text.upTo_append] at hvalue
  have htext : s = f.before ++ (o ++ inner) := by rw [hsplit, List.append_assoc, hstart]
  refine ⟨by rw [hvalue], ?_, by rw [htext, hinner, hvalue, hrest], by rwa [hvalue],
    by rwa [hvalue], ?_, ?_⟩
  · rw [hinner, hrest] at hstart
    refine List.append_cancel_right (hstart.trans ?_)
    simp [Stretch.text, hvalue]
  · intro u m t hs hm
    have hbefore : f.before <+: s := ⟨_, htext.symm⟩
    have hu : u <+: s := ⟨_, hs.symm⟩
    rcases List.prefix_or_prefix_of_prefix hbefore hu with hpre | ⟨x, hx⟩
    · exact hpre
    · -- The marker ends no later than the one found, so the same closing marker is behind it.
      rw [hs, ← hx, List.append_assoc, List.append_cancel_left_eq] at htext
      obtain ⟨y, hy⟩ := hm.exists_eq_append
      have hle := Marker.length_le_of_plainCount (hm.plainCount_eq ho) hy htext
      obtain ⟨z, hz⟩ : m <+: x ++ o := by
        refine List.prefix_of_prefix_length_le (List.prefix_append m t) ⟨inner, ?_⟩ (by simpa)
        rw [htext, List.append_assoc]
      have ht : t = (z ++ close.before) ++ (close.matched ++ close.rest) := by
        rw [← List.append_assoc x, ← hz, List.append_assoc, List.append_cancel_left_eq] at htext
        rw [htext, hinner, List.append_assoc]
      obtain ⟨f', hf', hbefore⟩ := Stretch.exists_find_of_spells (u := u)
        (v := z ++ close.before) (t := close.rest) hm hc
      rw [← ht, ← hs, h] at hf'
      obtain rfl := Option.some.inj hf'
      exact hbefore
  · intro u m t hs hm
    rw [hvalue, hrest, ← hinner] at hs
    rw [hvalue]
    exact hfirst u m t hs hm

theorem FirstStretch.unique (hf : FirstStretch d n s f) (hg : FirstStretch d n s g) : f = g := by
  have hbefore : f.before = g.before :=
    (hf.leftmost _ _ _ hg.eq_append hg.opens).eq_of_length_le
      (hg.leftmost _ _ _ hf.eq_append hf.opens).length_le
  have htext := hf.eq_append.symm.trans hg.eq_append
  rw [hbefore, List.append_cancel_left_eq] at htext
  obtain ⟨hopening, hbehind⟩ := Marker.eq_of_append_eq (hf.opens.plainCount_eq hg.opens)
    hf.opens.exists_eq_append hg.opens.exists_eq_append htext
  have hbody : f.value.body = g.value.body :=
    (hf.first _ _ _ hbehind hg.closes).eq_of_length_le
      (hg.first _ _ _ hbehind.symm hf.closes).length_le
  rw [hbody, List.append_cancel_left_eq] at hbehind
  obtain ⟨hclosing, hrest⟩ := Marker.eq_of_append_eq (hf.closes.plainCount_eq hg.closes)
    hf.closes.exists_eq_append hg.closes.exists_eq_append hbehind
  have hmatched : f.matched = g.matched := by
    rw [hf.matched_eq, hg.matched_eq, Stretch.text, Stretch.text, hopening, hbody, hclosing]
  have hname := hf.name_eq.trans hg.name_eq.symm
  obtain ⟨_, ⟨_, _, _, _⟩, _, _⟩ := f
  obtain ⟨_, ⟨_, _, _, _⟩, _, _⟩ := g
  simp only [Text.Found.mk.injEq, Stretch.mk.injEq]
  exact ⟨hbefore, ⟨hname, hopening, hbody, hclosing⟩, hmatched, hrest⟩

/-- The search for a stretch finds the first one of the name. -/
theorem find_named_iff : s.find (Stretch.named d n) = some f ↔ FirstStretch d n s f := by
  refine ⟨firstStretch_of_find, fun h => ?_⟩
  obtain ⟨g, hg, _⟩ := Stretch.exists_find_of_spells (u := f.before) (v := f.value.body)
    (t := f.rest) h.opens h.closes
  rw [← h.eq_append] at hg
  rw [hg, (firstStretch_of_find hg).unique h]

theorem find_named_eq_none_iff :
    s.find (Stretch.named d n) = none ↔ IsEmpty (Bracketing d n s) := by
  constructor
  · intro h
    refine ⟨fun b => ?_⟩
    obtain ⟨f, hf, _⟩ := Stretch.exists_find_of_spells (u := b.before) (v := b.inner)
      (t := b.rest) b.opens b.closes
    rw [← b.eq_append, h] at hf
    exact absurd hf (by simp)
  · intro h
    cases hfind : s.find (Stretch.named d n) with
    | none => rfl
    | some f =>
      have hf := firstStretch_of_find hfind
      exact (h.false ⟨_, _, _, _, _, hf.eq_append, hf.opens, hf.closes⟩).elim

end TemplateBlocks
