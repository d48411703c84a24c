import TemplateBlocks.Proofs.MarkerPlaces
import TemplateBlocks.Rewrite

/-!
# Seams that no marker crosses

When a name has no angle brackets, its markers have one at each end and none in between. Such a
marker does not cross a seam, which is a place with `<` behind it or `>` in front of it
(`Angled.append_cases`). Since a stretch begins with `<` and ends with `>`, a change between its
markers leaves the first stretch of the name where it is (`FirstStretch.withBody`), and it makes no
markers of another dialect meet (`Bracketing.of_changed_middle`).
-/

namespace TemplateBlocks

/-! ### Angle brackets -/

def AngleFree (t : Text) : Prop := '<' ∉ t ∧ '>' ∉ t

instance (t : Text) : Decidable (AngleFree t) := inferInstanceAs (Decidable (_ ∧ _))

theorem AngleFree.append {s t : Text} (hs : AngleFree s) (ht : AngleFree t) :
    AngleFree (s ++ t) := by
  simp only [AngleFree, List.mem_append, not_or]
  exact ⟨⟨hs.1, ht.1⟩, ⟨hs.2, ht.2⟩⟩

theorem Blanks.angleFree {w : Text} (hw : Blanks w) : AngleFree w :=
  ⟨fun h => absurd (hw _ h) (by decide), fun h => absurd (hw _ h) (by decide)⟩

theorem AngleFree.markerName {n : Text} (hn : AngleFree n) (d : Dialect) :
    AngleFree (d.markerName n) := by
  cases d with
  | directive => exact hn
  | banner =>
    have hmem : ∀ c ∈ n.replaceChar '_' ' ', c = ' ' ∨ c ∈ n := by
      intro c hc
      obtain ⟨a, ha, rfl⟩ := List.mem_map.1 hc
      split
      · exact .inl rfl
      · exact .inr ha
    refine ⟨fun h => ?_, fun h => ?_⟩
    · exact (hmem _ h).elim (by decide) hn.1
    · exact (hmem _ h).elim (by decide) hn.2

/-- A text that begins with `<`, ends with `>` and has no angle brackets in between. -/
def Angled (m : Text) : Prop := ∃ t, AngleFree t ∧ m = '<' :: (t ++ ['>'])

/-- A place with `<` behind it or `>` in front of it. -/
def Seam (x y : Text) : Prop := (∃ t, y = '<' :: t) ∨ ∃ t, x = t ++ ['>']

namespace Angled

variable {m o u v x y : Text}

theorem not_mem_of_split {a c : Text} (hm : Angled (a ++ c)) (ha : a ≠ []) (hc : c ≠ []) :
    '<' ∉ c ∧ '>' ∉ a := by
  obtain ⟨t, ht, heq⟩ := hm
  obtain ⟨b, a, rfl⟩ := List.exists_cons_of_ne_nil ha
  obtain ⟨c, e, rfl⟩ := (List.eq_nil_or_concat' c).resolve_left hc
  obtain ⟨hb, htail⟩ := List.cons.inj heq
  subst hb
  obtain ⟨rfl, he⟩ := List.append_inj' ((List.append_assoc a c [e]).trans htail) rfl
  obtain rfl : e = '>' := by simpa using he
  simp only [AngleFree, List.mem_append, not_or] at ht
  simp [ht]

/-- A text in angle brackets lies on one side of a seam. -/
theorem append_cases (hm : Angled m) (hseam : Seam x y) (h : u ++ (m ++ v) = x ++ y) :
    (∃ z, x = u ++ (m ++ z) ∧ v = z ++ y) ∨ ∃ z, u = x ++ z ∧ y = z ++ (m ++ v) := by
  rcases List.append_eq_append_iff.1 h with ⟨a, rfl, ha⟩ | ⟨z, rfl, hz⟩
  · rcases List.append_eq_append_iff.1 ha with ⟨z, rfl, hz⟩ | ⟨c, rfl, rfl⟩
    · exact .inl ⟨z, rfl, hz⟩
    · by_cases ha : a = []
      · subst ha
        exact .inr ⟨[], by simp, rfl⟩
      · by_cases hc : c = []
        · subst hc
          exact .inl ⟨[], by simp, rfl⟩
        · -- The seam would lie within the angle brackets.
          obtain ⟨hleft, hright⟩ := hm.not_mem_of_split ha hc
          rcases hseam with ⟨w, hw⟩ | ⟨w, hw⟩
          · obtain ⟨b, c, rfl⟩ := List.exists_cons_of_ne_nil hc
            obtain rfl : b = '<' := (List.cons.inj hw).1
            exact absurd (List.mem_cons_self ..) hleft
          · rw [← List.dropLast_append_getLast ha, ← List.append_assoc] at hw
            have hlast : a.getLast ha = '>' := by simpa using (List.append_inj' hw rfl).2
            exact absurd (hlast ▸ List.getLast_mem ha) hright
  · exact .inr ⟨z, rfl, hz⟩

theorem infix_append (hm : Angled m) (hseam : Seam x y) (h : m <:+: x ++ y) :
    m <:+: x ∨ m <:+: y := by
  obtain ⟨u, v, huv⟩ := h
  rw [List.append_assoc] at huv
  rcases hm.append_cases hseam huv with ⟨z, rfl, _⟩ | ⟨z, _, rfl⟩
  · exact .inl ⟨u, z, by simp⟩
  · exact .inr ⟨z, v, by simp⟩

theorem mem_left (hm : Angled m) : '<' ∈ m := by
  obtain ⟨t, _, rfl⟩ := hm
  simp

theorem mem_right (hm : Angled m) : '>' ∈ m := by
  obtain ⟨t, _, rfl⟩ := hm
  simp

theorem eq_of_infix (hm : Angled m) (ho : Angled o) (h : m <:+: o) : m = o := by
  obtain ⟨u, v, huv⟩ := h
  obtain ⟨t, ht, rfl⟩ := ho
  obtain rfl : u = [] := by
    refine List.eq_nil_iff_forall_not_mem.2 fun c hc => ?_
    obtain ⟨b, u, rfl⟩ := List.exists_cons_of_ne_nil (List.ne_nil_of_mem hc)
    have htail := (List.cons.inj huv).2
    have hmem : '<' ∈ t ++ ['>'] := by
      rw [← htail]
      simp [hm.mem_left]
    exact ht.1 (by simpa using hmem)
  rcases List.eq_nil_or_concat v with rfl | ⟨v, e, rfl⟩
  · simpa using huv
  · rw [List.concat_eq_append, List.nil_append, ← List.append_assoc, ← List.cons_append] at huv
    have hinit := (List.append_inj' huv rfl).1
    have hmem : '>' ∈ '<' :: t := by
      rw [← hinit]
      simp [hm.mem_right]
    exact absurd ht.2 (by simpa using hmem)

/-- Newlines around a text do not make texts in angle brackets. -/
theorem infix_of_framed (hm : Angled m) (h : m <:+: newline ++ x ++ newline) : m <:+: x := by
  obtain ⟨t, _, rfl⟩ := hm
  rcases List.infix_concat_iff.1 h with hsuffix | h
  · obtain ⟨u, hu⟩ := hsuffix
    have hlast := congrArg List.getLast? hu
    simp [newline, List.getLast?_append, List.getLast?_cons] at hlast
  · rcases List.infix_cons_iff.1 h with hprefix | h
    · exact absurd (List.cons_prefix_cons.1 hprefix).1 (by decide)
    · exact h

end Angled

/-! ### Markers of names without angle brackets -/

namespace Marker

variable {d : Dialect} {n m : Text}

/-- The text is an opening or a closing marker of the name. -/
def Spells (d : Dialect) (n m : Text) : Prop := SpellsOpening d n m ∨ SpellsClosing d n m

theorem angled_comment {t : Text} (ht : AngleFree t) : Angled (commentStart ++ (t ++ commentEnd)) :=
  ⟨"!--".toList ++ (t ++ "--".toList),
    AngleFree.append (by decide) (ht.append (by decide)), by simp [commentStart, commentEnd]⟩

theorem SpellsDirective.angled {word : Text} (hword : AngleFree word) (hn : AngleFree n)
    (h : SpellsDirective word n m) : Angled m := by
  obtain ⟨v, w, hv, hw, rfl⟩ := h
  have hsaid := hv.angleFree.append (hword.append (hn.append hw.angleFree))
  simpa using angled_comment hsaid

theorem SpellsOpening.angled (hn : AngleFree n) (h : SpellsOpening d n m) : Angled m := by
  cases d with
  | directive => exact SpellsDirective.angled (by decide) hn h
  | banner =>
    obtain ⟨v, w, hv, hw, rfl⟩ := h
    have hsaid := hv.1.angleFree.append (hn.append hw.1.angleFree)
    simpa using angled_comment hsaid

theorem SpellsClosing.angled (hn : AngleFree n) (h : SpellsClosing d n m) : Angled m := by
  cases d with
  | directive => exact SpellsDirective.angled (by decide) hn h
  | banner =>
    obtain ⟨u, v, w, hu, hv, hw, rfl⟩ := h
    have hend : AngleFree endOf := by decide
    have hsaid := hu.1.angleFree.append (hend.append (hv.1.angleFree.append
      (hn.append hw.1.angleFree)))
    simpa using angled_comment hsaid

theorem Spells.angled (hn : AngleFree n) (h : Spells d n m) : Angled m :=
  h.elim (SpellsOpening.angled hn) (SpellsClosing.angled hn)

theorem plainCount_markerName_le (d : Dialect) (n : Text) :
    plainCount (d.markerName n) ≤ plainCount n := by
  cases d with
  | directive => exact Nat.le_refl _
  | banner =>
    have hcount : plainCount (n.replaceChar '_' ' ') =
        n.countP ((fun c => !isBlank c) ∘ fun c => if c = '_' then ' ' else c) := List.countP_map
    show plainCount (n.replaceChar '_' ' ') ≤ _
    rw [hcount]
    refine List.countP_mono_left fun c _ hc => ?_
    by_cases hscore : c = '_'
    · rw [hscore]
      decide
    · simpa [hscore] using hc

theorem SpellsDirective.plainCount_eq {word : Text} (h : SpellsDirective word n m) :
    plainCount m = 7 + plainCount word + plainCount n := by
  obtain ⟨v, w, hv, hw, rfl⟩ := h
  have hstart : plainCount commentStart = 4 := by decide
  have hend : plainCount commentEnd = 3 := by decide
  simp only [plainCount_append, plainCount_blanks hv, plainCount_blanks hw, hstart, hend]
  omega

/-- A directive of a block is longer than its banners, so no text is both. -/
theorem Spells.not_banner (h : Spells .directive n m) :
    ¬ Spells .banner (Dialect.banner.markerName n) m := by
  have hname := plainCount_markerName_le .banner n
  have hopen : plainCount openWord = 7 := by decide
  have hclose : plainCount closeWord = 10 := by decide
  have hstart : plainCount commentStart = 4 := by decide
  have hend : plainCount commentEnd = 3 := by decide
  have heo : plainCount endOf = 2 := by decide
  have hmany : 14 + plainCount n ≤ plainCount m := by
    rcases h with h | h
    · have hcount := SpellsDirective.plainCount_eq h
      omega
    · have hcount := SpellsDirective.plainCount_eq h
      omega
  rintro (⟨v, w, hv, hw, rfl⟩ | ⟨u, v, w, hu, hv, hw, rfl⟩)
  · simp only [plainCount_append, plainCount_blanks hv.1, plainCount_blanks hw.1, hstart, hend]
      at hmany
    omega
  · simp only [plainCount_append, plainCount_blanks hu.1, plainCount_blanks hv.1,
      plainCount_blanks hw.1, hstart, hend, heo] at hmany
    omega

end Marker

/-! ### Changes between two seams -/

variable {d : Dialect} {n s : Text} {f : Text.Found Stretch}

/-- Around a piece between two seams that has no markers of the name in it, a marker stands in front
of the piece or behind it. -/
theorem Marker.Spells.append_cases {p mid q u m v : Text} (hn : AngleFree n) (hm : Spells d n m)
    (hp : Seam p (mid ++ q)) (hq : Seam mid q) (hfree : ¬ m <:+: mid)
    (h : p ++ (mid ++ q) = u ++ (m ++ v)) :
    (∃ z, p = u ++ (m ++ z)) ∨ ∃ z, u = p ++ (mid ++ z) ∧ q = z ++ (m ++ v) := by
  rcases (hm.angled hn).append_cases hp h.symm with ⟨z, hz, _⟩ | ⟨z, rfl, hz⟩
  · exact .inl ⟨z, hz⟩
  · rcases (hm.angled hn).append_cases hq hz.symm with ⟨y, hy, _⟩ | ⟨y, rfl, hy⟩
    · exact absurd ⟨z, y, by rw [hy, List.append_assoc]⟩ hfree
    · exact .inr ⟨y, rfl, hy⟩

/-- The markers around such a piece meet over any other piece as well. -/
theorem Bracketing.of_changed_middle {p mid q : Text} (other : Text) (hn : AngleFree n)
    (hp : Seam p (mid ++ q)) (hq : Seam mid q)
    (hfree : ∀ m, Marker.Spells d n m → ¬ m <:+: mid) (b : Bracketing d n (p ++ (mid ++ q))) :
    Nonempty (Bracketing d n (p ++ (other ++ q))) := by
  obtain ⟨u, o, v, c, w, heq, ho, hc⟩ := b
  have heq' : p ++ (mid ++ q) = (u ++ (o ++ v)) ++ (c ++ w) := by simp [heq]
  rcases Marker.Spells.append_cases hn (.inr hc) hp hq (hfree c (.inr hc)) heq' with
    ⟨z, rfl⟩ | ⟨z, _, rfl⟩
  · exact ⟨⟨u, o, v, c, z ++ (other ++ q), by simp, ho, hc⟩⟩
  · rcases Marker.Spells.append_cases hn (.inl ho) hp hq (hfree o (.inl ho)) heq with
      ⟨y, rfl⟩ | ⟨y, _, hy⟩
    · exact ⟨⟨u, o, y ++ (other ++ z), c, w, by simp, ho, hc⟩⟩
    · exact ⟨⟨p ++ (other ++ y), o, v, c, w, by simp [hy], ho, hc⟩⟩

def Text.Found.withBody (f : Text.Found Stretch) (body : Text) : Text.Found Stretch :=
  { f with value := f.value.withBody body, matched := (f.value.withBody body).text }

/-- In front of the first stretch no marker opens another one, whatever follows from there. -/
theorem FirstStretch.before_prefix (hn : AngleFree n) (h : FirstStretch d n s f) {y : Text}
    (hy : ∃ t, y = '<' :: t) {u m t : Text} (heq : f.before ++ y = u ++ (m ++ t))
    (hm : Marker.SpellsOpening d n m) : f.before <+: u := by
  rcases (hm.angled hn).append_cases (.inl hy) heq.symm with ⟨x, hx, _⟩ | ⟨x, hx, _⟩
  · -- The marker would open an earlier stretch of the text as it was.
    have hold := h.eq_append
    rw [hx] at hold
    exact h.leftmost u m _ (by simpa using hold) hm
  · exact ⟨x, hx.symm⟩

/-- The first stretch stays where it is when it gets another body without closing markers. -/
theorem FirstStretch.withBody (hn : AngleFree n) (h : FirstStretch d n s f) {body : Text}
    (hbody : ∀ m, Marker.SpellsClosing d n m → ¬ m <:+: body) :
    FirstStretch d n (f.before ++ ((f.value.withBody body).text ++ f.rest)) (f.withBody body) := by
  obtain ⟨a, ha⟩ := (h.opens.angled hn).imp fun _ h => h.2
  obtain ⟨z, hz⟩ := (h.closes.angled hn).imp fun _ h => h.2
  refine ⟨h.name_eq, rfl, ?_, h.opens, h.closes, ?_, ?_⟩
  · simp [Stretch.text, Text.Found.withBody, Stretch.withBody]
  · intro u m t heq hm
    exact h.before_prefix hn ⟨_, by simp [Stretch.text, Stretch.withBody, ha]; rfl⟩ heq hm
  · intro u m t heq hm
    have hseam : Seam (f.withBody body).value.body (f.value.closing ++ f.rest) :=
      .inl ⟨_, by simp [hz]; rfl⟩
    rcases (hm.angled hn).append_cases hseam heq.symm with ⟨x, hx, _⟩ | ⟨x, hx, _⟩
    · have hinfix : m <:+: newline ++ body ++ newline := ⟨u, x, by
        rw [List.append_assoc]
        exact hx.symm⟩
      exact absurd ((hm.angled hn).infix_of_framed hinfix) (hbody m hm)
    · exact ⟨x, hx.symm⟩

end TemplateBlocks
