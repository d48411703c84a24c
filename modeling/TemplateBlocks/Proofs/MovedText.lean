import TemplateBlocks.Rewrite
import TemplateBlocks.Proofs.CommentSearch
import TemplateBlocks.Proofs.MarkerPlaces

/-!
# What a move does to a text

A move cuts the first stretch of a block out of a text and puts it in at one place of what is left,
with a newline between it and the marker it is put next to (`moveBlock_cases`). So it changes
nothing but a few newlines outside the stretch (`moveBlock_keeps_text`). When the cut and the place
are at the ends of lines, the lines only change their order, except that an empty line at the start
or at the end of the text is lost with the cut next to it (`moveBlock_lines`).
-/

namespace TemplateBlocks

variable {s name r : Text} {after : Option Text} {d : Dialect} {f : Text.Found Stretch}

/-! ### Cutting a stretch out -/

/-- Nothing, or one newline. -/
def AtMostNewline (v : Text) : Prop := v = [] ∨ v = newline

theorem exists_dropStart_eq (s : Text) : ∃ v, AtMostNewline v ∧ s = v ++ s.dropStart newline := by
  cases hafter : s.after? newline with
  | none => exact ⟨[], .inl rfl, by simp [Text.dropStart, hafter]⟩
  | some t =>
    refine ⟨newline, .inr rfl, ?_⟩
    simpa [Text.dropStart, hafter] using Text.eq_append_of_after? hafter

theorem exists_dropEnd_eq (s : Text) : ∃ v, AtMostNewline v ∧ s = s.dropEnd newline ++ v := by
  obtain ⟨v, hv, hs⟩ := exists_dropStart_eq s.reverse
  refine ⟨v, hv, ?_⟩
  have hrev : v.reverse = v := by
    rcases hv with rfl | rfl <;> rfl
  have hback := congrArg List.reverse hs
  rwa [List.reverse_reverse, List.reverse_append, hrev] at hback

/-- The two sides of a cut lose at most one newline each, and at most one is put between them. -/
theorem exists_joined_eq (before rest : Text) : ∃ b left mid right c : Text,
    before = b ++ left ∧ rest = right ++ c ∧ joined before rest = b ++ (mid ++ c) ∧
      AtMostNewline left ∧ AtMostNewline mid ∧ AtMostNewline right := by
  obtain ⟨left, hleft, hbefore⟩ := exists_dropEnd_eq before
  obtain ⟨right, hright, hrest⟩ := exists_dropStart_eq rest
  rw [joined]
  split
  · exact ⟨_, left, [], right, _, hbefore, hrest, rfl, hleft, .inl rfl, hright⟩
  · exact ⟨_, left, newline, right, _, hbefore, hrest, List.append_assoc .., hleft, .inr rfl,
      hright⟩

/-! ### Putting it in at another place -/

/-- The two sides of the place in `t` where the block called `name` is put in, when it is moved: in
front of the first opening marker, or behind the closing marker of the block it is to follow. -/
def insertPlace? (d : Dialect) (name : Text) (after : Option Text) (t : Text) :
    Option (Text × Text) :=
  match after.filter (!·.isEmpty) with
  | none => (t.find (Marker.anyOpening d)).map fun g => (g.before, g.matched ++ g.rest)
  | some target =>
    if target = name then none
    else (t.find (Marker.closing d (d.markerName target))).map fun g =>
      (g.before ++ g.matched, g.rest)

/-- What is put in: the stretch, and a newline on the side of the marker. -/
def insertedText (after : Option Text) (stretch : Text) : Text :=
  match after.filter (!·.isEmpty) with
  | none => stretch ++ newline
  | some _ => newline ++ stretch

theorem eq_append_of_insertPlace? {t u v : Text} (h : insertPlace? d name after t = some (u, v)) :
    t = u ++ v := by
  unfold insertPlace? at h
  split at h
  · obtain ⟨g, hg, huv⟩ := Option.map_eq_some_iff.1 h
    obtain ⟨rfl, rfl⟩ := Prod.mk.inj huv
    simpa using Text.find_eq_append (Marker.anyOpening_leavesSuffix d) hg
  · split at h
    · exact absurd h (by simp)
    · obtain ⟨g, hg, huv⟩ := Option.map_eq_some_iff.1 h
      obtain ⟨rfl, rfl⟩ := Prod.mk.inj huv
      exact Text.find_eq_append (Marker.closing_leavesSuffix d _) hg

theorem ne_nil_of_insertPlace? {t u v : Text} (h : insertPlace? d name after t = some (u, v)) :
    t ≠ [] := by
  rintro rfl
  unfold insertPlace? at h
  split at h
  · simp [Text.find] at h
  · simp [Text.find] at h

/-- The stretch moves to its place. Without a place the text stays as it is, or the block it is to
follow is missing. -/
theorem moveBlock_eq (hf : Stretch.find? (Dialect.ofText s) name s = some f) :
    moveBlock s name after =
      match insertPlace? (Dialect.ofText s) name after (joined f.before f.rest) with
      | some (u, v) => .ok (u ++ (insertedText after f.matched ++ v))
      | none => match after.filter (!·.isEmpty) with
        | none => .ok s
        | some target => if target = name then .ok s else .error (.targetNotFound target) := by
  cases hafter : after.filter (!·.isEmpty) with
  | none =>
    simp only [moveBlock, insertPlace?, insertedText, insertFront?, hf, hafter]
    cases (joined f.before f.rest).find (Marker.anyOpening (Dialect.ofText s)) with
    | none => rfl
    | some g => simp
  | some target =>
    simp only [moveBlock, insertPlace?, insertedText, insertAfter?, hf, hafter]
    by_cases htarget : target = name
    · simp only [if_pos htarget]
    · simp only [if_neg htarget]
      cases (joined f.before f.rest).find
          (Marker.closing (Dialect.ofText s) ((Dialect.ofText s).markerName target)) with
      | none => rfl
      | some g => simp

theorem moveBlock_cases (h : moveBlock s name after = .ok r) :
    ∃ f, Stretch.find? (Dialect.ofText s) name s = some f ∧
      (r = s ∨ ∃ u v,
        insertPlace? (Dialect.ofText s) name after (joined f.before f.rest) = some (u, v) ∧
        r = u ++ (insertedText after f.matched ++ v)) := by
  cases hf : Stretch.find? (Dialect.ofText s) name s with
  | none => simp [moveBlock, hf] at h
  | some f =>
    refine ⟨f, rfl, ?_⟩
    rw [moveBlock_eq hf] at h
    cases hplace : insertPlace? (Dialect.ofText s) name after (joined f.before f.rest) with
    | some sides =>
      rw [hplace] at h
      exact .inr ⟨sides.1, sides.2, rfl, (Except.ok.inj h).symm⟩
    | none =>
      rw [hplace] at h
      cases hafter : after.filter (!·.isEmpty) with
      | none =>
        rw [hafter] at h
        exact .inl (Except.ok.inj h).symm
      | some target =>
        simp only [hafter] at h
        split at h
        · exact .inl (Except.ok.inj h).symm
        · cases h

/-! ### No character is lost but newlines -/

def withoutNewlines (t : Text) : Text := t.filter (· ≠ '\n')

@[simp] theorem withoutNewlines_append (t u : Text) :
    withoutNewlines (t ++ u) = withoutNewlines t ++ withoutNewlines u :=
  List.filter_append ..

@[simp] theorem withoutNewlines_newline : withoutNewlines newline = [] := rfl

theorem AtMostNewline.withoutNewlines_eq {v : Text} (h : AtMostNewline v) :
    withoutNewlines v = [] := by
  rcases h with rfl | rfl <;> rfl

theorem AtMostNewline.count_le {v : Text} (h : AtMostNewline v) : v.count '\n' ≤ 1 := by
  rcases h with rfl | rfl <;> decide

theorem withoutNewlines_joined (before rest : Text) :
    withoutNewlines (joined before rest) = withoutNewlines (before ++ rest) := by
  obtain ⟨b, left, mid, right, c, rfl, rfl, hjoined, hleft, hmid, hright⟩ :=
    exists_joined_eq before rest
  simp [hjoined, hleft.withoutNewlines_eq, hmid.withoutNewlines_eq, hright.withoutNewlines_eq]

theorem count_joined (before rest : Text) :
    (joined before rest).count '\n' ≤ (before ++ rest).count '\n' + 1 ∧
      (before ++ rest).count '\n' ≤ (joined before rest).count '\n' + 2 := by
  obtain ⟨b, left, mid, right, c, rfl, rfl, hjoined, hleft, hmid, hright⟩ :=
    exists_joined_eq before rest
  have hl := hleft.count_le
  have hm := hmid.count_le
  have hr := hright.count_le
  simp only [hjoined, List.count_append]
  omega

/-- A move leaves a text as it is, or it puts the stretch of the block between two texts that are
what stood around it up to newlines, of which at most two are gained or lost. -/
theorem moveBlock_keeps_text (h : moveBlock s name after = .ok r) :
    r = s ∨ ∃ f p q, FirstStretch (Dialect.ofText s) ((Dialect.ofText s).markerName name) s f ∧
      s = f.before ++ f.matched ++ f.rest ∧ r = p ++ f.matched ++ q ∧
      withoutNewlines (p ++ q) = withoutNewlines (f.before ++ f.rest) ∧
      r.count '\n' ≤ s.count '\n' + 2 ∧ s.count '\n' ≤ r.count '\n' + 2 := by
  obtain ⟨f, hf, rfl | ⟨u, v, hplace, rfl⟩⟩ := moveBlock_cases h
  · exact .inl rfl
  refine .inr ?_
  have hsplit := Text.find_eq_append (Stretch.named_leavesSuffix _ _) hf
  have hjoined := eq_append_of_insertPlace? hplace
  have hkept := withoutNewlines_joined f.before f.rest
  have hcount := count_joined f.before f.rest
  have hs := congrArg (List.count '\n') hsplit
  rw [hjoined] at hkept hcount
  simp only [List.count_append] at hcount hs
  -- The newline that is put in goes with the side on which the marker stands.
  unfold insertedText
  split
  · refine ⟨f, u, newline ++ v, find_named_iff.1 hf, hsplit, by simp, by simpa using hkept, ?_⟩
    simp only [List.count_append, show newline.count '\n' = 1 from rfl]
    omega
  · refine ⟨f, u ++ newline, v, find_named_iff.1 hf, hsplit, by simp, by simpa using hkept, ?_⟩
    simp only [List.count_append, show newline.count '\n' = 1 from rfl]
    omega

def inlineBlock : Text := "<!-- @block:x -->a<!-- @endblock:x -->".toList

def lineBlock : Text := Text.join newline
  ["<!-- @block:y -->".toList, "b".toList, "<!-- @endblock:y -->".toList]

/-- A block that is moved out of a line breaks the line where it stood. -/
theorem moveBlock_keeps_text_inline :
    ∃ s r, moveBlock s "x".toList (some "y".toList) = .ok r ∧ r ≠ s ∧
      r.count '\n' = s.count '\n' + 2 ∧
      ∃ f p q, FirstStretch (Dialect.ofText s) ((Dialect.ofText s).markerName "x".toList) s f ∧
        s = f.before ++ f.matched ++ f.rest ∧ r = p ++ f.matched ++ q ∧
        withoutNewlines (p ++ q) = withoutNewlines (f.before ++ f.rest) := by
  have hmove : moveBlock ("<p>".toList ++ inlineBlock ++ "</p>\n".toList ++ lineBlock) "x".toList
      (some "y".toList) = .ok ("<p>\n</p>\n".toList ++ lineBlock ++ newline ++ inlineBlock) := rfl
  refine ⟨_, _, hmove, by decide, by decide, ?_⟩
  rcases moveBlock_keeps_text hmove with heq | ⟨f, p, q, hfirst, hs, hr, hkept, _⟩
  · exact absurd heq (by decide)
  · exact ⟨f, p, q, hfirst, hs, hr, hkept⟩

/-! ### Whole lines only change their order -/

/-- What stands in front of the start of a line. -/
def BeforeLine (u : Text) : Prop := u = [] ∨ ∃ t, u = t ++ newline

/-- The place where a block is put in is the start of a line in front of a marker, and the end of a
line behind one. -/
def BetweenLines (after : Option Text) (u v : Text) : Prop :=
  match after.filter (!·.isEmpty) with
  | none => BeforeLine u
  | some _ => BehindLine v

/-- A block of whole lines that is moved to a place between lines. -/
structure MovesLines (s name : Text) (after : Option Text) (f : Text.Found Stretch) : Prop where
  found : Stretch.find? (Dialect.ofText s) name s = some f
  before : BeforeLine f.before
  rest : BehindLine f.rest
  place : ∀ u v, insertPlace? (Dialect.ofText s) name after (joined f.before f.rest) = some (u, v) →
    BetweenLines after u v

/-- The empty line that is lost with a cut. A newline that is all there is in front of the stretch,
or all there is behind it, goes with the stretch, and at an end of the text none is put back. -/
def lostLine (before rest : Text) : List Text :=
  if before = newline ∨ rest = newline then [[]] else []

theorem joined_nil_cons (w : Text) : joined [] ('\n' :: w) = w := by
  simp [joined, Text.dropEnd, Text.dropStart, Text.after?, newline]

theorem joined_append_nil (t : Text) : joined (t ++ newline) [] = t := by
  simp [joined, Text.dropEnd, Text.dropStart, Text.after?, newline]

theorem joined_append_cons (t w : Text) : joined (t ++ newline) ('\n' :: w) =
    if t = [] ∨ w = [] then t ++ w else t ++ newline ++ w := by
  simp [joined, Text.dropEnd, Text.dropStart, Text.after?, newline]

theorem splitAt_cut_between (m : Text) {t w : Text}
    (hne : joined (t ++ newline) ('\n' :: w) ≠ []) :
    (Text.splitAt '\n' (t ++ newline ++ m ++ '\n' :: w)).Perm
      (lostLine (t ++ newline) ('\n' :: w) ++
        (Text.splitAt '\n' m ++ Text.splitAt '\n' (joined (t ++ newline) ('\n' :: w)))) := by
  have hlines : Text.splitAt '\n' (t ++ newline ++ m ++ '\n' :: w) =
      Text.splitAt '\n' t ++ (Text.splitAt '\n' m ++ Text.splitAt '\n' w) := by
    rw [Text.splitAt_append_separator, newline, List.append_assoc t, List.singleton_append,
      Text.splitAt_append_separator, List.append_assoc]
  rw [joined_append_cons] at hne ⊢
  rw [hlines]
  by_cases ht : t = []
  · subst ht
    exact List.Perm.refl _
  · by_cases hw : w = []
    · subst hw
      have hlost : lostLine (t ++ newline) newline = [[]] := by simp [lostLine]
      rw [if_pos (.inr rfl), ← newline, hlost, List.append_nil]
      refine (List.perm_append_comm_assoc ..).trans ?_
      rw [← List.append_assoc]
      exact List.perm_append_comm
    · have hlost : lostLine (t ++ newline) ('\n' :: w) = [] := by simp [lostLine, newline, ht, hw]
      rw [if_neg (by simp [ht, hw]), hlost, List.nil_append, List.append_assoc, newline,
        List.singleton_append, Text.splitAt_append_separator]
      exact List.perm_append_comm_assoc ..

/-- The lines of a text are those of a stretch of whole lines and those of the text around it, and
the line that is lost. -/
theorem splitAt_cut (m : Text) {before rest : Text} (hbefore : BeforeLine before)
    (hrest : BehindLine rest) (hne : joined before rest ≠ []) :
    (Text.splitAt '\n' (before ++ m ++ rest)).Perm (lostLine before rest ++
      (Text.splitAt '\n' m ++ Text.splitAt '\n' (joined before rest))) := by
  rcases hbefore with rfl | ⟨t, rfl⟩
  · rcases hrest with rfl | ⟨w, rfl⟩
    · exact absurd rfl hne
    · rw [joined_nil_cons] at hne ⊢
      have hlost : lostLine [] ('\n' :: w) = [] := by simp [lostLine, newline, hne]
      rw [hlost, List.nil_append, List.nil_append, Text.splitAt_append_separator]
  · rcases hrest with rfl | ⟨w, rfl⟩
    · rw [joined_append_nil] at hne ⊢
      have hlost : lostLine (t ++ newline) [] = [] := by simp [lostLine, newline, hne]
      rw [hlost, List.append_nil, List.append_assoc, newline, List.singleton_append,
        Text.splitAt_append_separator]
      exact List.perm_append_comm
    · exact splitAt_cut_between m hne

/-- A stretch that is put in between lines adds its own lines and breaks none. -/
theorem splitAt_insertedText (m : Text) {u v : Text} (h : BetweenLines after u v) :
    (Text.splitAt '\n' (u ++ (insertedText after m ++ v))).Perm
      (Text.splitAt '\n' m ++ Text.splitAt '\n' (u ++ v)) := by
  unfold BetweenLines at h
  unfold insertedText
  split
  · rename_i hafter
    rw [hafter] at h
    rcases h with rfl | ⟨t, rfl⟩
    · simp [newline, Text.splitAt_append_separator]
    · simp only [newline, List.append_assoc, List.singleton_append, Text.splitAt_append_separator]
      exact List.perm_append_comm_assoc ..
  · rename_i hafter
    rw [hafter] at h
    rcases h with rfl | ⟨w, rfl⟩
    · simp only [newline, List.append_nil, List.singleton_append, Text.splitAt_append_separator]
      exact List.perm_append_comm
    · simp only [newline, List.cons_append, List.nil_append, Text.splitAt_append_separator]
      exact List.perm_append_comm_assoc ..

/-- A block of whole lines that is moved to a place between lines takes its lines with it, and the
other lines stay, but for an empty first line in front of it or an empty last line behind it. -/
theorem moveBlock_lines (hlines : MovesLines s name after f)
    (h : moveBlock s name after = .ok r) :
    ((Text.splitAt '\n' s).Perm (Text.splitAt '\n' r) ↔
      r = s ∨ (f.before ≠ newline ∧ f.rest ≠ newline)) ∧
    (r ≠ s → (Text.splitAt '\n' s).Perm (lostLine f.before f.rest ++ Text.splitAt '\n' r)) := by
  obtain ⟨f', hf', hcases⟩ := moveBlock_cases h
  obtain rfl : f = f' := Option.some.inj (hlines.found.symm.trans hf')
  rcases hcases with rfl | ⟨u, v, hplace, hr⟩
  · exact ⟨by simp, fun hne => absurd rfl hne⟩
  have hperm : (Text.splitAt '\n' s).Perm (lostLine f.before f.rest ++ Text.splitAt '\n' r) := by
    have hcut := splitAt_cut f.matched hlines.before hlines.rest (ne_nil_of_insertPlace? hplace)
    rw [← Text.find_eq_append (Stretch.named_leavesSuffix _ _) hf'] at hcut
    refine hcut.trans (List.Perm.append_left _ ?_)
    rw [hr, eq_append_of_insertPlace? hplace]
    exact (splitAt_insertedText f.matched (hlines.place u v hplace)).symm
  refine ⟨?_, fun _ => hperm⟩
  constructor
  · intro hsame
    have hlength := hperm.length_eq
    rw [hsame.length_eq, List.length_append] at hlength
    have hnone : lostLine f.before f.rest = [] := List.eq_nil_of_length_eq_zero (by omega)
    refine .inr (not_or.1 fun hlost => ?_)
    rw [lostLine, if_pos hlost] at hnone
    exact absurd hnone (by simp)
  · rintro (rfl | hkept)
    · exact List.Perm.refl _
    · rw [lostLine, if_neg (not_or.2 hkept)] at hperm
      exact hperm

def blockA : Text := "<!-- @block:a -->\nA\n<!-- @endblock:a -->".toList

def blockB : Text := "<!-- @block:b -->\nB\n<!-- @endblock:b -->".toList

def blocksAB : Text := blockA ++ newline ++ blockB ++ newline

def blocksBA : Text := blockB ++ newline ++ blockA ++ newline

theorem moveBlock_lines_behind : ∃ f, MovesLines blocksAB "a".toList (some "b".toList) f ∧
    moveBlock blocksAB "a".toList (some "b".toList) = .ok blocksBA ∧
    (Text.splitAt '\n' blocksAB).Perm (Text.splitAt '\n' blocksBA) := by
  have hlines : MovesLines blocksAB "a".toList (some "b".toList)
      ⟨[], ⟨"a".toList, "<!-- @block:a -->".toList, "\nA\n".toList, "<!-- @endblock:a -->".toList⟩,
        blockA, newline ++ blockB ++ newline⟩ := by
    refine ⟨rfl, .inl rfl, .inr ⟨_, rfl⟩, fun u v h => ?_⟩
    have hplace : insertPlace? (Dialect.ofText blocksAB) "a".toList (some "b".toList)
        (joined [] (newline ++ blockB ++ newline)) = some (blockB, newline) := rfl
    obtain ⟨-, rfl⟩ := Prod.mk.inj (Option.some.inj (hplace.symm.trans h))
    exact .inr ⟨[], rfl⟩
  have hmove : moveBlock blocksAB "a".toList (some "b".toList) = .ok blocksBA := rfl
  exact ⟨_, hlines, hmove, (moveBlock_lines hlines hmove).1.2 (.inr ⟨by decide, by decide⟩)⟩

/-- The last block of a text that ends with a newline takes the newline along to the front. -/
theorem moveBlock_loses_last_line : ∃ f r, MovesLines blocksAB "b".toList none f ∧
    moveBlock blocksAB "b".toList none = .ok r ∧
    ¬ (Text.splitAt '\n' blocksAB).Perm (Text.splitAt '\n' r) := by
  have hlines : MovesLines blocksAB "b".toList none
      ⟨blockA ++ newline, ⟨"b".toList, "<!-- @block:b -->".toList, "\nB\n".toList,
        "<!-- @endblock:b -->".toList⟩, blockB, newline⟩ := by
    refine ⟨rfl, .inr ⟨_, rfl⟩, .inr ⟨[], rfl⟩, fun u v h => ?_⟩
    have hplace : insertPlace? (Dialect.ofText blocksAB) "b".toList none
        (joined (blockA ++ newline) newline) = some ([], blockA) := rfl
    obtain ⟨rfl, -⟩ := Prod.mk.inj (Option.some.inj (hplace.symm.trans h))
    exact .inl rfl
  have hmove : moveBlock blocksAB "b".toList none = .ok (blockB ++ newline ++ blockA) := rfl
  exact ⟨_, _, hlines, hmove, by decide⟩

end TemplateBlocks
