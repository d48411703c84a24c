import TemplateBlocks.Proofs.BodyLens
import TemplateBlocks.Proofs.SuccessiveMatches

/-!
# The stretches of a text

The marked blocks of a text are what a search from left to right finds that takes the first closing
marker behind each opening one. An opening marker without one is passed over by a single character,
so that a marker may begin within it. `marked_blocks_greedy` describes the result by the spellings
of the markers alone: it cuts the text into stretches and gaps, and what opens within a gap is closed
nowhere behind it.
-/

namespace TemplateBlocks

namespace Marker

/-! ### Opening markers of any name -/

/-- The names that opening markers are read with. The name of a directive ends with the first end of
a comment behind its first character. -/
def ShortestName : Dialect → Text → Prop
  | .directive, n => DirectiveText n
  | .banner, n => BannerRun n

/-- An opening marker, and the name that it is read with. -/
def Opens (d : Dialect) (n m : Text) : Prop := ShortestName d n ∧ SpellsOpening d n m

variable {d : Dialect} {n s rest : Text}

theorem afterSpacedEnd?_space (h : afterSpacedEnd? s = some rest) :
    afterSpacedEnd? (' ' :: s) = some rest := by
  obtain ⟨w, hw, rfl⟩ := afterSpacedEnd?_iff.1 h
  exact afterSpacedEnd?_iff.2 ⟨' ' :: w, gap_space.append hw.1, rfl⟩

/-- The shortest run in front of the end of a comment is no longer for a space at its end. -/
theorem eq_space_of_shortest {p : Char → Bool} {run : Text} (hlast : run.getLast? = some ' ')
    (h : Text.shortest p afterSpacedEnd? (run ++ s) = some (run, rest))
    (hend : afterSpacedEnd? s = some rest) : run = [' '] := by
  obtain ⟨front, rfl⟩ := List.getLast?_eq_some_iff.1 hlast
  cases front with
  | nil => rfl
  | cons c front =>
    have hsuffix : [' '] <:+ (c :: front ++ [' ']).tail := List.suffix_append front [' ']
    have hnone := Text.stop_eq_none_of_shortest h (List.cons_ne_nil ' ' []) hsuffix
    rw [List.singleton_append, afterSpacedEnd?_space hend] at hnone
    exact absurd hnone (by simp)

theorem bannerRun_of_banner (h : banner s = some (n, rest)) : BannerRun n := by
  obtain ⟨hhead, hchars, _⟩ := banner_reads h
  obtain ⟨t, _, h⟩ := Option.bind_eq_some_iff.1 h
  obtain ⟨⟨c, u⟩, _, h⟩ := Option.bind_eq_some_iff.1 h
  obtain ⟨⟨run, x⟩, hrun, hpair⟩ := Option.bind_eq_some_iff.1 h
  obtain ⟨rfl, rfl⟩ : c :: run = n ∧ x = rest := by simpa using hpair
  obtain ⟨hne, _, z, rfl, hend⟩ := Text.shortest_eq_append hrun
  have hpos := List.length_pos_iff.2 hne
  refine ⟨hhead, hchars, by rw [List.length_cons]; omega, fun hlast => ?_⟩
  rw [List.getLast?_cons_of_ne_nil hne] at hlast
  rw [eq_space_of_shortest hlast hrun hend]
  rfl

theorem anyOpening_iff :
    anyOpening d s = some (n, rest) ↔ ∃ m, Opens d n m ∧ s = m ++ rest := by
  constructor
  · intro h
    obtain ⟨_, m, hm, hs⟩ := anyOpening_spelling h
    refine ⟨m, ⟨?_, hm⟩, hs⟩
    cases d with
    | directive => exact directiveText_of_directive h
    | banner => exact bannerRun_of_banner h
  · rintro ⟨m, ⟨hn, hm⟩, rfl⟩
    cases d with
    | directive =>
      exact directive_of_namedDirective hn ((namedDirective_iff isKeyword_openWord).2 ⟨m, hm, rfl⟩)
    | banner =>
      obtain ⟨v, w, hv, hw, rfl⟩ := hm
      obtain ⟨c, t, hct, hc⟩ := BannerRun.head hn
      have hkeyword : IsKeyword n := ⟨c, t, hct, not_blank_of_isBannerStart hc⟩
      have hgap : Text.dropBlanks1? (v ++ (n ++ (w ++ (commentEnd ++ rest)))) =
          some (n ++ (w ++ (commentEnd ++ rest))) :=
        Text.dropBlanks1?_eq_some_iff.2 ⟨v, hv, rfl, hkeyword.dropBlanks _⟩
      exact banner_of_run hn (Text.after?_eq_some_iff.2 (by simp)) hgap
        (afterSpacedEnd?_iff.2 ⟨w, hw, rfl⟩)

end Marker

/-! ### Stretches of any name -/

namespace Stretch

variable {d : Dialect} {s rest w : Text} {st : Stretch}

/-- The text `w` is the stretch `st` in front of `rest`: an opening marker, a body and the first
marker behind the opening one that closes its name. -/
structure Closest (d : Dialect) (st : Stretch) (w rest : Text) : Prop where
  eq_text : w = st.text
  opens : Marker.Opens d st.name st.opening
  closes : Marker.SpellsClosing d st.name st.closing
  first : ∀ u c t, st.body ++ (st.closing ++ rest) = u ++ (c ++ t) →
    Marker.SpellsClosing d st.name c → st.body <+: u

/-- No marker that closes its name stands anywhere behind an opening marker that begins in the text
`gap` in front of `rest`. -/
def Unclosed (d : Dialect) (gap rest : Text) : Prop :=
  ∀ t n m u, t ≠ [] → t <:+ gap → t ++ rest = m ++ u → Marker.Opens d n m →
    ∀ c, Marker.SpellsClosing d n c → ¬ c <:+: u

theorem closest_of_any (h : any d s = some (st, rest)) :
    ∃ w, Closest d st w rest ∧ s = w ++ rest := by
  obtain ⟨⟨n, inner⟩, hopen, h⟩ := Option.bind_eq_some_iff.1 h
  obtain ⟨close, hclose, h⟩ := Option.bind_eq_some_iff.1 h
  simp only [Option.pure_def, Option.some.injEq, Prod.mk.injEq] at h
  obtain ⟨rfl, rfl⟩ := h
  obtain ⟨m, hm, rfl⟩ := Marker.anyOpening_iff.1 hopen
  obtain ⟨hcloses, hinner, hfirst⟩ := Marker.find_closing_iff.1 hclose
  rw [Text.upTo_append]
  refine ⟨_, ⟨rfl, hm, hcloses, ?_⟩, ?_⟩
  · rw [← hinner]
    exact hfirst
  · conv_lhs => rw [hinner]
    simp [text]

theorem Closest.any_eq (h : Closest d st w rest) : any d (w ++ rest) = some (st, rest) := by
  obtain ⟨n, opening, body, closing⟩ := st
  obtain ⟨rfl, hopens, hcloses, hfirst⟩ := h
  have htext : (text ⟨n, opening, body, closing⟩) ++ rest =
      opening ++ (body ++ (closing ++ rest)) := by
    simp [text]
  have hopen : Marker.anyOpening d (opening ++ (body ++ (closing ++ rest))) =
      some (n, body ++ (closing ++ rest)) :=
    Marker.anyOpening_iff.2 ⟨opening, hopens, rfl⟩
  have hclose : (body ++ (closing ++ rest)).find (Marker.closing d n) =
      some ⟨body, (), closing, rest⟩ :=
    Marker.find_closing_iff.2 ⟨hcloses, rfl, hfirst⟩
  rw [htext, any, reader, hopen]
  simp only [Option.bind_eq_bind, Option.bind_some, hclose, Text.upTo_append]
  rfl

theorem any_eq_none_iff : any d s = none ↔ ∀ n m u, s = m ++ u → Marker.Opens d n m →
    ∀ c, Marker.SpellsClosing d n c → ¬ c <:+: u := by
  have hclosings : ∀ n u : Text, (∀ c, Marker.SpellsClosing d n c → ¬ c <:+: u) ↔
      u.find (Marker.closing d n) = none := fun _ _ =>
    forall_not_infix_iff (fun _ _ => Marker.reads_closing_iff) fun _ h => h.ne_nil
  constructor
  · intro h n m u hs hm
    refine (hclosings n u).2 (Option.eq_none_iff_forall_ne_some.2 fun close hclose => ?_)
    have hopen := Marker.anyOpening_iff.2 ⟨m, hm, hs⟩
    rw [any, reader, hopen] at h
    simp [hclose] at h
  · intro h
    cases hopen : Marker.anyOpening d s with
    | none => simp [any, reader, hopen]
    | some r =>
      obtain ⟨n, u⟩ := r
      obtain ⟨m, hm, hs⟩ := Marker.anyOpening_iff.1 hopen
      have hclose := (hclosings n u).1 (h n m u hs hm)
      simp [any, reader, hopen, hclose]

theorem any_describedBy (d : Dialect) : (any d).DescribedBy (Unclosed d) (Closest d) where
  read_iff _ _ _ := by
    refine ⟨closest_of_any, ?_⟩
    rintro ⟨w, hw, rfl⟩
    exact hw.any_eq
  ne_nil _ _ _ h := by
    rw [h.eq_text]
    simp [text, h.opens.2.ne_nil]
  idle_iff gap rest := by
    simp only [any_eq_none_iff]
    exact ⟨fun h t hne ht n m u heq => h t n m u hne ht heq,
      fun h t n m u hne ht heq => h t hne ht n m u heq⟩

end Stretch

/-- Every text is cut into stretches and gaps in exactly one way: each stretch ends with the first
marker that closes it, and no opening marker that begins in a gap is closed anywhere behind it. The
marked blocks are these stretches, under the names on their markers. -/
theorem marked_blocks_greedy (d : Dialect) (s : Text) : ∃ sts : List Stretch,
    (∀ others, Text.Successive (Stretch.Unclosed d) (Stretch.Closest d) s others ↔ others = sts) ∧
    MarkedBlock.allOf d s = sts.map fun st => {
      name := match d with
        | .directive => st.name
        | .banner => st.name.trim.replaceChar ' ' '_'
      body := st.body } := by
  refine ⟨s.allMatches (Stretch.any d),
    fun _ => Text.successive_iff (Stretch.any_describedBy d), ?_⟩
  cases d with
  | directive => rfl
  | banner => rfl

end TemplateBlocks
