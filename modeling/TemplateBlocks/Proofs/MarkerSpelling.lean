import Mathlib.Data.List.DropRight
import TemplateBlocks.Proofs.MarkerText

/-!
# Spellings of a marker

A marker keeps its meaning with any blanks around its words. The readers of the markers of one
block read exactly the spellings of these markers (`Marker.opening_iff`, `Marker.closing_iff`).
A marker that is read with any name is such a spelling too (`Marker.anyOpening_spelling`).
-/

namespace TemplateBlocks

/-! ### Blanks -/

def Blanks (w : Text) : Prop := ∀ c ∈ w, isBlank c = true

/-- Blanks where at least one is needed. -/
def Gap (w : Text) : Prop := Blanks w ∧ w ≠ []

theorem Blanks.append {v w : Text} (hv : Blanks v) (hw : Blanks w) : Blanks (v ++ w) := by
  intro c hc
  rcases List.mem_append.1 hc with hc | hc
  · exact hv c hc
  · exact hw c hc

theorem Gap.append {v w : Text} (hv : Gap v) (hw : Blanks w) : Gap (v ++ w) :=
  ⟨hv.1.append hw, by simp [hv.2]⟩

theorem Blanks.append_gap {v w : Text} (hv : Blanks v) (hw : Gap w) : Gap (v ++ w) :=
  ⟨hv.append hw.1, by simp [hw.2]⟩

theorem gap_space : Gap [' '] := by
  refine ⟨fun c hc => ?_, List.cons_ne_nil _ _⟩
  obtain rfl : c = ' ' := by simpa using hc
  decide

namespace Text

theorem dropBlanks_append {w : Text} (hw : Blanks w) (s : Text) :
    dropBlanks (w ++ s) = dropBlanks s :=
  List.dropWhile_append_of_pos hw

theorem exists_blanks_append (s : Text) : ∃ w, Blanks w ∧ s = w ++ s.dropBlanks :=
  ⟨s.takeWhile isBlank, fun _ hc => List.mem_takeWhile_imp hc,
    List.takeWhile_append_dropWhile.symm⟩

theorem dropBlanks1?_eq_some_iff {s t : Text} :
    s.dropBlanks1? = some t ↔ ∃ w, Gap w ∧ s = w ++ t ∧ t.dropBlanks = t := by
  constructor
  · intro h
    cases s with
    | nil => simp [dropBlanks1?] at h
    | cons c s =>
      by_cases hc : isBlank c = true
      · simp only [dropBlanks1?, hc, if_true, Option.some.injEq] at h
        obtain ⟨w, hw, hs⟩ := exists_blanks_append s
        rw [h] at hs
        refine ⟨c :: w, ⟨List.forall_mem_cons.2 ⟨hc, hw⟩, by simp⟩, by rw [hs]; rfl, ?_⟩
        rw [← h]
        exact List.dropWhile_idempotent isBlank s
      · simp [dropBlanks1?, hc] at h
  · rintro ⟨w, ⟨hw, hne⟩, rfl, ht⟩
    obtain ⟨c, w, rfl⟩ := List.exists_cons_of_ne_nil hne
    obtain ⟨hc, hw⟩ := List.forall_mem_cons.1 hw
    rw [List.cons_append, dropBlanks1?, if_pos hc, dropBlanks_append hw, ht]

theorem trimEnd_append {c : Char} (hc : isBlank c = false) (s : Text) {gap : Text}
    (hgap : Blanks gap) : trimEnd (s ++ c :: gap) = s ++ [c] := by
  have hrev : ∀ a ∈ gap.reverse, isBlank a = true := fun a ha => hgap a (List.mem_reverse.1 ha)
  have hall : (s ++ c :: gap).reverse = gap.reverse ++ c :: s.reverse := by simp
  rw [trimEnd, dropEndWhile, hall, List.dropWhile_append_of_pos hrev,
    List.dropWhile_cons_of_neg (by simp [hc])]
  simp

/-- Trimming takes blanks away at both ends and nothing else. -/
theorem exists_trim (s : Text) : ∃ v w, Blanks v ∧ Blanks w ∧ s = v ++ (s.trim ++ w) := by
  obtain ⟨v, hv, hs⟩ := exists_blanks_append s
  obtain ⟨w, hw, hrev⟩ := exists_blanks_append (List.reverse (dropBlanks s))
  refine ⟨v, w.reverse, hv, fun c hc => hw c (List.mem_reverse.1 hc), ?_⟩
  have hback := congrArg List.reverse hrev
  rw [List.reverse_reverse, List.reverse_append] at hback
  have htrim : s.trim = (dropBlanks (List.reverse (dropBlanks s))).reverse := rfl
  rw [htrim, ← hback, ← hs]

end Text

namespace Marker

/-! ### Words behind blanks -/

variable {lit n s rest : Text}

theorem isKeyword_commentEnd : IsKeyword commentEnd := ⟨'-', "->".toList, rfl, by decide⟩

theorem isKeyword_endOf : IsKeyword endOf := ⟨'E', "O".toList, rfl, by decide⟩

theorem IsKeyword.dropBlanks (h : IsKeyword lit) (t : Text) :
    Text.dropBlanks (lit ++ t) = lit ++ t := by
  obtain ⟨c, u, rfl, hc⟩ := h
  exact Text.dropBlanks_cons hc (u ++ t)

theorem after?_blanks_iff (hlit : IsKeyword lit) :
    s.dropBlanks.after? lit = some rest ↔ ∃ w, Blanks w ∧ s = w ++ (lit ++ rest) := by
  rw [Text.after?_eq_some_iff]
  constructor
  · intro h
    obtain ⟨w, hw, hs⟩ := Text.exists_blanks_append s
    rw [h] at hs
    exact ⟨w, hw, hs⟩
  · rintro ⟨w, hw, rfl⟩
    rw [Text.dropBlanks_append hw, hlit.dropBlanks]

theorem after?_gap_iff (hlit : IsKeyword lit) :
    (s.dropBlanks1? >>= fun t => t.after? lit) = some rest ↔
      ∃ w, Gap w ∧ s = w ++ (lit ++ rest) := by
  constructor
  · intro h
    obtain ⟨t, ht, hrest⟩ := Option.bind_eq_some_iff.1 h
    obtain ⟨w, hw, rfl, _⟩ := Text.dropBlanks1?_eq_some_iff.1 ht
    exact ⟨w, hw, by rw [Text.eq_append_of_after? hrest]⟩
  · rintro ⟨w, hw, rfl⟩
    have hdrop := Text.dropBlanks1?_eq_some_iff.2 ⟨w, hw, rfl, hlit.dropBlanks rest⟩
    rw [hdrop]
    exact Text.after?_append lit rest

theorem afterEnd?_iff : afterEnd? s = some rest ↔
    ∃ w, Blanks w ∧ s = w ++ (commentEnd ++ rest) :=
  after?_blanks_iff isKeyword_commentEnd

theorem afterSpacedEnd?_iff : afterSpacedEnd? s = some rest ↔
    ∃ w, Gap w ∧ s = w ++ (commentEnd ++ rest) :=
  after?_gap_iff isKeyword_commentEnd

/-- A name that does not begin with a blank stands behind all of the blanks. -/
theorem afterSpacedName?_eq (hn : IsKeyword n) (s : Text) :
    afterSpacedName? n s = (s.dropBlanks1? >>= fun t => t.after? n) >>= afterSpacedEnd? := by
  induction s with
  | nil => rfl
  | cons c s ih =>
    by_cases hc : isBlank c = true
    · rw [afterSpacedName?, if_pos hc, Text.dropBlanks1?, if_pos hc]
      cases s with
      | nil =>
        obtain ⟨a, t, rfl, _⟩ := hn
        rfl
      | cons b s =>
        by_cases hb : isBlank b = true
        · have hread : Text.after? (b :: s) n = none := by
            obtain ⟨a, t, rfl, ha⟩ := hn
            have hab : b ≠ a := by
              rintro rfl
              rw [hb] at ha
              exact absurd ha (by decide)
            rw [Text.after?, if_neg hab]
          have hdrop : Text.dropBlanks (b :: s) = Text.dropBlanks s := by
            simp [Text.dropBlanks, hb]
          rw [hread, hdrop]
          rw [Text.dropBlanks1?, if_pos hb] at ih
          exact ih
        · have hb : isBlank b = false := by simpa using hb
          have hnone : afterSpacedName? n (b :: s) = none := by
            rw [afterSpacedName?, hb]
            rfl
          rw [Text.dropBlanks_cons hb, hnone]
          simp only [Option.bind_eq_bind, Option.bind_some]
          cases (Text.after? (b :: s) n).bind afterSpacedEnd? with
          | none => rfl
          | some found => rfl
    · simp [afterSpacedName?, Text.dropBlanks1?, hc]

theorem afterSpacedName?_iff (hn : IsKeyword n) : afterSpacedName? n s = some rest ↔
    ∃ v w, Gap v ∧ Gap w ∧ s = v ++ (n ++ (w ++ (commentEnd ++ rest))) := by
  rw [afterSpacedName?_eq hn, Option.bind_eq_bind, Option.bind_eq_some_iff]
  constructor
  · rintro ⟨t, ht, hrest⟩
    obtain ⟨v, hv, rfl⟩ := (after?_gap_iff hn).1 ht
    obtain ⟨w, hw, rfl⟩ := afterSpacedEnd?_iff.1 hrest
    exact ⟨v, w, hv, hw, rfl⟩
  · rintro ⟨v, w, hv, hw, rfl⟩
    exact ⟨_, (after?_gap_iff hn).2 ⟨v, hv, rfl⟩, afterSpacedEnd?_iff.2 ⟨w, hw, rfl⟩⟩

/-! ### The spellings of the markers of one block -/

def SpellsDirective (word n m : Text) : Prop :=
  ∃ v w, Blanks v ∧ Blanks w ∧ m = commentStart ++ (v ++ (word ++ (n ++ (w ++ commentEnd))))

def SpellsOpening : Dialect → Text → Text → Prop
  | .directive, n, m => SpellsDirective openWord n m
  | .banner, n, m => ∃ v w, Gap v ∧ Gap w ∧ m = commentStart ++ (v ++ (n ++ (w ++ commentEnd)))

def SpellsClosing : Dialect → Text → Text → Prop
  | .directive, n, m => SpellsDirective closeWord n m
  | .banner, n, m => ∃ u v w, Gap u ∧ Gap v ∧ Gap w ∧
      m = commentStart ++ (u ++ (endOf ++ (v ++ (n ++ (w ++ commentEnd)))))

/-- A directive carries a name without blanks, and a banner one that does not begin with a blank. -/
def Named : Dialect → Text → Prop
  | .directive, n => n ≠ [] ∧ ∀ c ∈ n, isBlank c = false
  | .banner, n => IsKeyword n

theorem namedDirective_iff {word : Text} (hword : IsKeyword word) :
    namedDirective word n s = some ((), rest) ↔ ∃ m, SpellsDirective word n m ∧ s = m ++ rest := by
  constructor
  · intro h
    obtain ⟨x, hstart, hend⟩ := namedDirective_eq_some_iff.1 h
    obtain ⟨t, ht, hafter⟩ := Option.bind_eq_some_iff.1 hstart
    obtain ⟨v, hv, rfl⟩ := (after?_blanks_iff hword).1 hafter
    obtain ⟨w, hw, rfl⟩ := afterEnd?_iff.1 hend
    obtain rfl := Text.eq_append_of_after? ht
    exact ⟨_, ⟨v, w, hv, hw, rfl⟩, by simp⟩
  · rintro ⟨m, ⟨v, w, hv, hw, rfl⟩, rfl⟩
    have hstart : afterDirective? word
        (commentStart ++ (v ++ (word ++ (n ++ (w ++ commentEnd)))) ++ rest) =
          some (n ++ (w ++ (commentEnd ++ rest))) := by
      refine Option.bind_eq_some_iff.2 ⟨v ++ (word ++ (n ++ (w ++ (commentEnd ++ rest)))), ?_, ?_⟩
      · rw [Text.after?_eq_some_iff]
        simp
      · exact (after?_blanks_iff hword).2 ⟨v, hv, rfl⟩
    exact namedDirective_eq_some_iff.2 ⟨_, hstart, afterEnd?_iff.2 ⟨w, hw, rfl⟩⟩

theorem opening_banner_iff (hn : IsKeyword n) :
    opening .banner n s = some ((), rest) ↔ ∃ m, SpellsOpening .banner n m ∧ s = m ++ rest := by
  constructor
  · intro h
    obtain ⟨t, ht, h⟩ := Option.bind_eq_some_iff.1 h
    obtain rfl : t = rest := by simpa using h
    obtain ⟨x, hx, hname⟩ := Option.bind_eq_some_iff.1 ht
    obtain ⟨v, w, hv, hw, rfl⟩ := (afterSpacedName?_iff hn).1 hname
    obtain rfl := Text.eq_append_of_after? hx
    exact ⟨_, ⟨v, w, hv, hw, rfl⟩, by simp⟩
  · rintro ⟨m, ⟨v, w, hv, hw, rfl⟩, rfl⟩
    have hname : afterSpacedName? n (v ++ (n ++ (w ++ (commentEnd ++ rest)))) = some rest :=
      (afterSpacedName?_iff hn).2 ⟨v, w, hv, hw, rfl⟩
    simp only [opening, List.append_assoc, Text.after?_append, Option.bind_eq_bind,
      Option.bind_some, hname]
    rfl

theorem closing_banner_iff (hn : IsKeyword n) :
    closing .banner n s = some ((), rest) ↔ ∃ m, SpellsClosing .banner n m ∧ s = m ++ rest := by
  constructor
  · intro h
    obtain ⟨t, ht, h⟩ := Option.bind_eq_some_iff.1 h
    obtain ⟨x, hx, h⟩ := Option.bind_eq_some_iff.1 h
    obtain rfl : x = rest := by simpa using h
    obtain ⟨y, hy, hblank⟩ := Option.bind_eq_some_iff.1 ht
    obtain ⟨z, hz, hname⟩ := Option.bind_eq_some_iff.1 hx
    obtain ⟨u, hu, rfl, _⟩ := Text.dropBlanks1?_eq_some_iff.1 hblank
    obtain ⟨v, w, hv, hw, rfl⟩ := (afterSpacedName?_iff hn).1 hname
    obtain rfl := Text.eq_append_of_after? hy
    obtain rfl := Text.eq_append_of_after? hz
    exact ⟨_, ⟨u, v, w, hu, hv, hw, rfl⟩, by simp⟩
  · rintro ⟨m, ⟨u, v, w, hu, hv, hw, rfl⟩, rfl⟩
    have hname : afterSpacedName? n (v ++ (n ++ (w ++ (commentEnd ++ rest)))) = some rest :=
      (afterSpacedName?_iff hn).2 ⟨v, w, hv, hw, rfl⟩
    have hgap : Text.dropBlanks1? (u ++ (endOf ++ (v ++ (n ++ (w ++ (commentEnd ++ rest)))))) =
        some (endOf ++ (v ++ (n ++ (w ++ (commentEnd ++ rest))))) :=
      Text.dropBlanks1?_eq_some_iff.2 ⟨u, hu, rfl, isKeyword_endOf.dropBlanks _⟩
    simp only [closing, List.append_assoc, Text.after?_append, Option.bind_eq_bind,
      Option.bind_some, hgap, hname]
    rfl

variable {d : Dialect}

/-- The opening markers of a block are read in all their spellings and in no others. -/
theorem opening_iff (hn : Named d n) :
    opening d n s = some ((), rest) ↔ ∃ m, SpellsOpening d n m ∧ s = m ++ rest := by
  cases d with
  | directive => exact namedDirective_iff isKeyword_openWord
  | banner => exact opening_banner_iff hn

/-- The closing markers of a block are read in all their spellings and in no others. -/
theorem closing_iff (hn : Named d n) :
    closing d n s = some ((), rest) ↔ ∃ m, SpellsClosing d n m ∧ s = m ++ rest := by
  cases d with
  | directive => exact namedDirective_iff isKeyword_closeWord
  | banner => exact closing_banner_iff hn

/-! ### Blanks around a name -/

theorem SpellsOpening.trim {m : Text} (h : SpellsOpening .banner n m) :
    SpellsOpening .banner n.trim m := by
  obtain ⟨v, w, hv, hw, rfl⟩ := h
  obtain ⟨a, b, ha, hb, hn⟩ := n.exists_trim
  refine ⟨v ++ a, b ++ w, hv.append ha, hb.append_gap hw, ?_⟩
  conv_lhs => rw [hn]
  simp

theorem SpellsClosing.trim {m : Text} (h : SpellsClosing .banner n m) :
    SpellsClosing .banner n.trim m := by
  obtain ⟨u, v, w, hu, hv, hw, rfl⟩ := h
  obtain ⟨a, b, ha, hb, hn⟩ := n.exists_trim
  refine ⟨u, v ++ a, b ++ w, hu, hv.append ha, hb.append_gap hw, ?_⟩
  conv_lhs => rw [hn]
  simp

/-- A banner that says the closing word in front of a name closes that name. -/
theorem SpellsOpening.closing {m : Text} (h : SpellsOpening .banner (endOf ++ ' ' :: n) m) :
    SpellsClosing .banner n m := by
  obtain ⟨v, w, hv, hw, rfl⟩ := h
  exact ⟨v, [' '], w, hv, gap_space, hw, by simp⟩

theorem IsKeyword.trim (hn : IsKeyword n) : IsKeyword n.trim := by
  obtain ⟨c, t, rfl, hc⟩ := hn
  have hdrop : Text.dropBlanks (c :: t) = c :: t := Text.dropBlanks_cons hc t
  refine ⟨c, Text.trimEnd t, ?_, hc⟩
  rw [Text.trim, hdrop, Text.trimEnd, Text.dropEndWhile, Text.trimEnd, Text.dropEndWhile,
    List.reverse_cons, List.dropWhile_append]
  split
  · rename_i hnil
    rw [List.isEmpty_iff] at hnil
    simp [hnil, hc]
  · simp

/-! ### Markers with any name -/

theorem namedDirective_of_directive {word : Text} (h : directive word s = some (n, rest)) :
    namedDirective word n s = some ((), rest) := by
  obtain ⟨t, ht, h⟩ := Option.bind_eq_some_iff.1 h
  obtain ⟨_, _, x, rfl, hend⟩ := Text.shortest_eq_append h
  exact namedDirective_eq_some_iff.2 ⟨x, ht, hend⟩

theorem namedDirective_of_lastDirective {word : Text} (h : lastDirective word s = some (n, rest)) :
    namedDirective word n s = some ((), rest) := by
  obtain ⟨t, ht, h⟩ := Option.bind_eq_some_iff.1 h
  obtain ⟨_, _, x, rfl, hend⟩ := Text.shortest_eq_append h
  exact namedDirective_eq_some_iff.2 ⟨x, ht, (Option.filter_eq_some_iff.1 hend).1⟩

theorem lastDirective_leavesSuffix (word : Text) : (lastDirective word).LeavesSuffix := by
  intro s n rest h
  exact namedDirective_leavesSuffix word n _ _ _ (namedDirective_of_lastDirective h)

/-- What the reader of banners takes for a name: it begins with a capital. -/
theorem banner_reads (h : banner s = some (n, rest)) :
    (∃ c t, n = c :: t ∧ isBannerStart c = true) ∧ (∀ c ∈ n, isBannerChar c = true) ∧
      ∃ m, SpellsOpening .banner n m ∧ s = m ++ rest := by
  obtain ⟨t, ht, h⟩ := Option.bind_eq_some_iff.1 h
  obtain ⟨⟨c, u⟩, hu, h⟩ := Option.bind_eq_some_iff.1 h
  obtain ⟨⟨run, x⟩, hrun, hpair⟩ := Option.bind_eq_some_iff.1 h
  obtain ⟨y, hy, hc⟩ := Option.bind_eq_some_iff.1 hu
  obtain ⟨_, hchars, z, rfl, hend⟩ := Text.shortest_eq_append hrun
  obtain ⟨v, hv, rfl, _⟩ := Text.dropBlanks1?_eq_some_iff.1 hy
  obtain ⟨w, hw, rfl⟩ := afterSpacedEnd?_iff.1 hend
  obtain rfl := Text.eq_append_of_after? ht
  obtain ⟨rfl, rfl⟩ : c :: run = n ∧ x = rest := by simpa using hpair
  obtain ⟨hstart, rfl⟩ := Text.char?_eq_some_iff.1 hc
  exact ⟨⟨c, run, rfl, hstart⟩, List.forall_mem_cons.2 ⟨by simp [isBannerChar, hstart], hchars⟩,
    _, ⟨v, w, hv, hw, rfl⟩, by simp⟩

theorem banner_spelling (h : banner s = some (n, rest)) :
    IsKeyword n ∧ ∃ m, SpellsOpening .banner n m ∧ s = m ++ rest := by
  obtain ⟨⟨c, t, hn, hc⟩, _, hm⟩ := banner_reads h
  exact ⟨⟨c, t, hn, not_blank_of_isBannerStart hc⟩, hm⟩

theorem directiveText_of_directive {word : Text} (h : directive word s = some (n, rest)) :
    DirectiveText n := by
  obtain ⟨t, _, h⟩ := Option.bind_eq_some_iff.1 h
  obtain ⟨hne, hplain, x, rfl, _⟩ := Text.shortest_eq_append h
  refine ⟨hne, fun c hc => by simpa [isDirectiveChar] using hplain c hc, fun hend => ?_⟩
  -- An end of a comment within the name would have ended the name.
  obtain ⟨u, v, huv⟩ := hend
  have hsuffix : commentEnd ++ v <:+ n.tail := ⟨u, by rw [← huv, List.append_assoc]⟩
  have hnone := Text.stop_eq_none_of_shortest h (by simp [commentEnd]) hsuffix
  have hread : afterEnd? (commentEnd ++ v ++ x) = some (v ++ x) :=
    afterEnd?_iff.2 ⟨[], by simp [Blanks], by simp⟩
  rw [hread] at hnone
  exact absurd hnone (by simp)

theorem bannerWords_of_banner (h : banner s = some (n, rest)) : BannerWords n.trim := by
  obtain ⟨⟨c, t, rfl, hstart⟩, hchars, _⟩ := banner_reads h
  have hblank := not_blank_of_isBannerStart hstart
  have htrim : Text.trim (c :: t) = (c :: t).rdropWhile isBlank := by
    rw [Text.trim, Text.dropBlanks_cons hblank]
    rfl
  have hbegin : Text.trim (c :: t) <+: c :: t := htrim ▸ List.rdropWhile_prefix ..
  obtain ⟨b, u, hb, _⟩ : IsKeyword (Text.trim (c :: t)) := IsKeyword.trim ⟨c, t, rfl, hblank⟩
  refine ⟨⟨b, u, hb, ?_⟩, fun a ha => hchars a (hbegin.subset ha), fun hlast => ?_⟩
  · rw [hb] at hbegin
    rw [(List.cons_prefix_cons.1 hbegin).1]
    exact hstart
  · rw [htrim] at hlast
    obtain ⟨hne, hspace⟩ := List.mem_getLast?_eq_getLast hlast
    refine List.rdropWhile_last_not isBlank (c :: t) hne ?_
    rw [← hspace]
    decide

theorem anyOpening_spelling (h : anyOpening d s = some (n, rest)) :
    Named d n ∧ ∃ m, SpellsOpening d n m ∧ s = m ++ rest := by
  cases d with
  | directive =>
    have hn := directiveText_of_directive h
    exact ⟨⟨hn.ne_nil, hn.not_blank⟩,
      (namedDirective_iff isKeyword_openWord).1 (namedDirective_of_directive h)⟩
  | banner => exact banner_spelling h

/-- Where a directive is read by its name, one is read with any name, which can be a shorter one. -/
theorem exists_directive_of_named {word : Text} (hn : Named .directive n)
    (h : namedDirective word n s = some ((), rest)) : ∃ r, directive word s = some r := by
  obtain ⟨x, ht, hend⟩ := namedDirective_eq_some_iff.1 h
  have hplain : ∀ c ∈ n, isDirectiveChar c = true := fun c hc => by
    simp [isDirectiveChar, hn.2 c hc]
  obtain ⟨r, hr⟩ := Text.exists_shortest hn.1 hplain hend
  refine ⟨r, ?_⟩
  rw [directive, ht]
  exact hr

/-! ### Where a marker begins and ends -/

def plainCount (m : Text) : Nat := m.countP fun c => !isBlank c

theorem plainCount_blanks {w : Text} (hw : Blanks w) : plainCount w = 0 :=
  List.countP_eq_zero.2 fun c hc => by simp [hw c hc]

@[simp] theorem plainCount_append (v w : Text) :
    plainCount (v ++ w) = plainCount v + plainCount w :=
  List.countP_append

theorem SpellsOpening.plainCount_eq {m m' : Text} (h : SpellsOpening d n m)
    (h' : SpellsOpening d n m') : plainCount m = plainCount m' := by
  cases d with
  | directive =>
    obtain ⟨v, w, hv, hw, rfl⟩ := h
    obtain ⟨v', w', hv', hw', rfl⟩ := h'
    simp [plainCount_blanks hv, plainCount_blanks hw, plainCount_blanks hv', plainCount_blanks hw']
  | banner =>
    obtain ⟨v, w, hv, hw, rfl⟩ := h
    obtain ⟨v', w', hv', hw', rfl⟩ := h'
    simp [plainCount_blanks hv.1, plainCount_blanks hw.1, plainCount_blanks hv'.1,
      plainCount_blanks hw'.1]

theorem SpellsClosing.plainCount_eq {m m' : Text} (h : SpellsClosing d n m)
    (h' : SpellsClosing d n m') : plainCount m = plainCount m' := by
  cases d with
  | directive =>
    obtain ⟨v, w, hv, hw, rfl⟩ := h
    obtain ⟨v', w', hv', hw', rfl⟩ := h'
    simp [plainCount_blanks hv, plainCount_blanks hw, plainCount_blanks hv', plainCount_blanks hw']
  | banner =>
    obtain ⟨u, v, w, hu, hv, hw, rfl⟩ := h
    obtain ⟨u', v', w', hu', hv', hw', rfl⟩ := h'
    simp [plainCount_blanks hu.1, plainCount_blanks hv.1, plainCount_blanks hw.1,
      plainCount_blanks hu'.1, plainCount_blanks hv'.1, plainCount_blanks hw'.1]

theorem SpellsOpening.exists_eq_append {m : Text} (h : SpellsOpening d n m) :
    ∃ t, m = t ++ commentEnd := by
  cases d with
  | directive =>
    obtain ⟨v, w, _, _, rfl⟩ := h
    exact ⟨commentStart ++ (v ++ (openWord ++ (n ++ w))), by simp⟩
  | banner =>
    obtain ⟨v, w, _, _, rfl⟩ := h
    exact ⟨commentStart ++ (v ++ (n ++ w)), by simp⟩

theorem SpellsClosing.exists_eq_append {m : Text} (h : SpellsClosing d n m) :
    ∃ t, m = t ++ commentEnd := by
  cases d with
  | directive =>
    obtain ⟨v, w, _, _, rfl⟩ := h
    exact ⟨commentStart ++ (v ++ (closeWord ++ (n ++ w))), by simp⟩
  | banner =>
    obtain ⟨u, v, w, _, _, _, rfl⟩ := h
    exact ⟨commentStart ++ (u ++ (endOf ++ (v ++ (n ++ w)))), by simp⟩

theorem SpellsOpening.exists_eq_cons {m : Text} (h : SpellsOpening d n m) :
    ∃ t, m = commentStart ++ t := by
  cases d with
  | directive =>
    obtain ⟨v, w, _, _, rfl⟩ := h
    exact ⟨_, rfl⟩
  | banner =>
    obtain ⟨v, w, _, _, rfl⟩ := h
    exact ⟨_, rfl⟩

theorem SpellsClosing.exists_eq_cons {m : Text} (h : SpellsClosing d n m) :
    ∃ t, m = commentStart ++ t := by
  cases d with
  | directive =>
    obtain ⟨v, w, _, _, rfl⟩ := h
    exact ⟨_, rfl⟩
  | banner =>
    obtain ⟨u, v, w, _, _, _, rfl⟩ := h
    exact ⟨_, rfl⟩

/-- Two pieces with the same count of plain characters, the first of which begins no later, end in
the same order when the first one ends in a plain character. -/
theorem length_le_of_plainCount {m m' t u r r' : Text} (hcount : plainCount m = plainCount m')
    (hend : m = t ++ commentEnd) (h : m ++ r = u ++ (m' ++ r')) :
    m.length ≤ u.length + m'.length := by
  by_contra hlt
  rw [← List.append_assoc] at h
  rcases List.append_eq_append_iff.1 h with ⟨x, hx, _⟩ | ⟨x, hx, _⟩
  · have hlen := congrArg List.length hx
    simp only [List.length_append] at hlen
    omega
  · -- The first piece is the second one with more in front and behind, all of it blanks.
    have hparts := congrArg plainCount hx
    rw [plainCount_append, plainCount_append, hcount] at hparts
    have hne : x ≠ [] := by
      rintro rfl
      rw [hx] at hlt
      simp at hlt
    obtain ⟨y, c, rfl⟩ : ∃ y c, x = y ++ [c] :=
      ⟨x.dropLast, x.getLast hne, (List.dropLast_append_getLast hne).symm⟩
    have hlast : c = '>' := by
      have hget := congrArg List.getLast? (hend.symm.trans hx)
      simpa [commentEnd] using hget.symm
    subst hlast
    have hplain : plainCount ['>'] = 1 := by decide
    rw [plainCount_append, hplain] at hparts
    omega

end Marker

end TemplateBlocks
