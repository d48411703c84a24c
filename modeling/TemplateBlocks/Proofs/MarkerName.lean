import TemplateBlocks.Marker
import TemplateBlocks.Proofs.CommentSearch

/-!
# Names on markers

Which names the markers of a dialect can carry, and how such a name is read. A marker that is
looked up by its name is also read with that name by the reader of any marker:
`Marker.anyOpening_of_opening`.
-/

namespace TemplateBlocks

/-! ### Characters of names -/

theorem isBlank_eq_false {c : Char} (hlow : 32 < c.toNat) (hhigh : c.toNat < 133) :
    isBlank c = false := by
  refine Bool.eq_false_iff.2 fun hblank => ?_
  obtain ⟨r, hr, hlo, hhi⟩ := (isBlank_iff c).1 hblank
  have hall : ∀ r ∈ blankRanges, r.2 ≤ 32 ∨ 133 ≤ r.1 := by decide
  have hrange := hall r hr
  omega

theorem toNat_of_isBannerStart {c : Char} (h : Marker.isBannerStart c = true) :
    65 ≤ c.toNat ∧ c.toNat ≤ 90 := by
  simp only [Marker.isBannerStart, Bool.and_eq_true, decide_eq_true_eq, Char.le_def,
    UInt32.le_iff_toNat_le] at h
  exact h

theorem toNat_of_isDigit {c : Char} (h : c.isDigit = true) : 48 ≤ c.toNat ∧ c.toNat ≤ 57 := by
  simp only [Char.isDigit, Bool.and_eq_true, decide_eq_true_eq, ge_iff_le,
    UInt32.le_iff_toNat_le] at h
  exact h

theorem toNat_of_isAlphanum {c : Char} (h : c.isAlphanum = true) :
    (48 ≤ c.toNat ∧ c.toNat ≤ 57) ∨ (65 ≤ c.toNat ∧ c.toNat ≤ 122) := by
  have hcases : ((decide (c.val ≥ 'A'.val ∧ c.val ≤ 'Z'.val) ||
      (decide (c.val ≥ 'a'.val) && decide (c.val ≤ 'z'.val))) ||
      (decide (c.val ≥ '0'.val) && decide (c.val ≤ '9'.val))) = true := h
  simp only [Bool.or_eq_true, Bool.and_eq_true, decide_eq_true_eq, ge_iff_le,
    UInt32.le_iff_toNat_le] at hcases
  show (48 ≤ c.val.toNat ∧ c.val.toNat ≤ 57) ∨ (65 ≤ c.val.toNat ∧ c.val.toNat ≤ 122)
  have h0 : '0'.val.toNat = 48 := rfl
  have h9 : '9'.val.toNat = 57 := rfl
  have hA : 'A'.val.toNat = 65 := rfl
  have hZ : 'Z'.val.toNat = 90 := rfl
  have ha : 'a'.val.toNat = 97 := rfl
  have hz : 'z'.val.toNat = 122 := rfl
  omega

theorem toNat_of_isBannerChar {c : Char} (h : Marker.isBannerChar c = true) :
    c.toNat = 32 ∨ (48 ≤ c.toNat ∧ c.toNat ≤ 57) ∨ (65 ≤ c.toNat ∧ c.toNat ≤ 90) ∨
      c.toNat = 95 := by
  simp only [Marker.isBannerChar, Bool.or_eq_true, beq_iff_eq] at h
  rcases h with ((hup | hdigit) | rfl) | rfl
  · exact .inr (.inr (.inl (toNat_of_isBannerStart hup)))
  · exact .inr (.inl (toNat_of_isDigit hdigit))
  · exact .inl rfl
  · exact .inr (.inr (.inr rfl))

theorem not_blank_of_isBannerStart {c : Char} (h : Marker.isBannerStart c = true) :
    isBlank c = false := by
  have hrange := toNat_of_isBannerStart h
  exact isBlank_eq_false (by omega) (by omega)

theorem not_blank_of_isBannerChar {c : Char} (h : Marker.isBannerChar c = true) (hc : c ≠ ' ') :
    isBlank c = false := by
  have hrange := toNat_of_isBannerChar h
  have hspace : c.toNat ≠ 32 := fun heq => hc (Char.toNat_inj.1 heq)
  exact isBlank_eq_false (by omega) (by omega)

structure DirectiveText (n : Text) : Prop where
  ne_nil : n ≠ []
  not_blank : ∀ c ∈ n, isBlank c = false
  not_ended : ¬ Marker.commentEnd <:+: n.tail

/-- A name that a directive can carry within a line of its own. -/
structure DirectiveName (n : Text) : Prop where
  ne_nil : n ≠ []
  plain : ∀ c ∈ n, isBlank c = false ∧ c ≠ '<' ∧ c ≠ '>'

/-- What a banner can say, of one character or more. -/
structure BannerWords (n : Text) : Prop where
  head : ∃ c t, n = c :: t ∧ Marker.isBannerStart c = true
  chars : ∀ c ∈ n, Marker.isBannerChar c = true
  last : n.getLast? ≠ some ' '

/-- What is taken for a name of any banner. A space stands at its end only where the name would be
too short without it. -/
structure BannerRun (n : Text) : Prop where
  head : ∃ c t, n = c :: t ∧ Marker.isBannerStart c = true
  chars : ∀ c ∈ n, Marker.isBannerChar c = true
  two_le : 2 ≤ n.length
  last : n.getLast? = some ' ' → n.length = 2

structure BannerText (n : Text) : Prop where
  two_le : 2 ≤ n.length
  head : ∀ c ∈ n.head?, Marker.isBannerStart c = true
  plain : ∀ c ∈ n, c = ' ' ∨ Marker.isBannerStart c = true ∨ c.isDigit = true
  last : n.getLast? ≠ some ' '

/-- A name that a banner can carry without being taken for a closing one. -/
structure BannerName (n : Text) : Prop extends BannerText n where
  ne_endOf : n ≠ Marker.endOf
  not_closing : ¬ Marker.endOf ++ [' '] <+: n

theorem DirectiveName.toText {n : Text} (h : DirectiveName n) : DirectiveText n := by
  refine ⟨h.ne_nil, fun c hc => (h.plain c hc).1, fun hend => ?_⟩
  have hmem : '>' ∈ n.tail := hend.subset (by decide)
  exact (h.plain _ (List.mem_of_mem_tail hmem)).2.2 rfl

def Dialect.IsName : Dialect → Text → Prop
  | .directive, n => DirectiveName n
  | .banner, n => BannerName n

theorem directiveName_iff (n : Text) : DirectiveName n ↔
    n ≠ [] ∧ (n.all fun c => !isBlank c && c != '<' && c != '>') = true := by
  simp only [List.all_eq_true, Bool.and_eq_true, Bool.not_eq_true', bne_iff_ne, and_assoc]
  exact ⟨fun h => ⟨h.ne_nil, h.plain⟩, fun h => ⟨h.1, h.2⟩⟩

theorem bannerText_iff (n : Text) : BannerText n ↔
    2 ≤ n.length ∧ n.head?.all Marker.isBannerStart = true ∧
      (n.all fun c => c == ' ' || Marker.isBannerStart c || c.isDigit) = true ∧
      n.getLast? ≠ some ' ' := by
  simp only [List.all_eq_true, Option.all_eq_true, Bool.or_eq_true, beq_iff_eq, or_assoc]
  exact ⟨fun h => ⟨h.two_le, h.head, h.plain, h.last⟩, fun h => ⟨h.1, h.2.1, h.2.2.1, h.2.2.2⟩⟩

instance (n : Text) : Decidable (DirectiveName n) := decidable_of_iff _ (directiveName_iff n).symm

instance (n : Text) : Decidable (BannerText n) := decidable_of_iff _ (bannerText_iff n).symm

instance (n : Text) : Decidable (BannerName n) :=
  decidable_of_iff (BannerText n ∧ n ≠ Marker.endOf ∧ ¬ Marker.endOf ++ [' '] <+: n)
    ⟨fun h => ⟨h.1, h.2.1, h.2.2⟩, fun h => ⟨h.toBannerText, h.ne_endOf, h.not_closing⟩⟩

instance (d : Dialect) (n : Text) : Decidable (d.IsName n) :=
  match d with
  | .directive => inferInstanceAs (Decidable (DirectiveName n))
  | .banner => inferInstanceAs (Decidable (BannerName n))

namespace BannerText

variable {n : Text}

theorem exists_cons (h : BannerText n) : ∃ c t, n = c :: t ∧ t ≠ [] ∧
    Marker.isBannerStart c = true := by
  obtain ⟨hlen, hhead, _, _⟩ := h
  cases n with
  | nil => simp at hlen
  | cons c t =>
    refine ⟨c, t, rfl, ?_, hhead c rfl⟩
    intro heq
    subst heq
    simp at hlen

theorem toNat_mem (h : BannerText n) {c : Char} (hc : c ∈ n) :
    c.toNat = 32 ∨ (48 ≤ c.toNat ∧ c.toNat ≤ 57) ∨ (65 ≤ c.toNat ∧ c.toNat ≤ 90) := by
  rcases h.plain c hc with rfl | hup | hdigit
  · exact .inl rfl
  · exact .inr (.inr (toNat_of_isBannerStart hup))
  · exact .inr (.inl (toNat_of_isDigit hdigit))

theorem isBannerChar (h : BannerText n) {c : Char} (hc : c ∈ n) : Marker.isBannerChar c = true := by
  rcases h.plain c hc with rfl | hup | hdigit
  · decide
  · simp [Marker.isBannerChar, hup]
  · simp [Marker.isBannerChar, hdigit]

theorem words (h : BannerText n) : BannerWords n := by
  obtain ⟨c, t, hn, _, hc⟩ := h.exists_cons
  exact ⟨⟨c, t, hn, hc⟩, fun _ ha => h.isBannerChar ha, h.last⟩

end BannerText

namespace BannerWords

variable {n t : Text}

theorem run (h : BannerWords n) (hlen : 2 ≤ n.length) : BannerRun n :=
  ⟨h.head, h.chars, hlen, fun hspace => absurd hspace h.last⟩

theorem hyphen_not_mem (h : BannerWords n) : '-' ∉ n := by
  intro hmem
  have hrange := toNat_of_isBannerChar (h.chars _ hmem)
  simp at hrange

/-- An ending of a banner's words ends in a character that is no blank. -/
theorem exists_plain_mem (h : BannerWords n) (ht : t <:+ n) (hne : t ≠ []) :
    ∃ c, t.getLast? = some c ∧ isBlank c = false := by
  have hlast := List.getLast?_eq_some_getLast hne
  refine ⟨t.getLast hne, hlast, ?_⟩
  refine not_blank_of_isBannerChar (h.chars _ (ht.subset (List.getLast_mem hne))) fun hspace => ?_
  obtain ⟨u, rfl⟩ := ht
  refine h.last ?_
  rw [List.getLast?_append, hlast, hspace]
  rfl

end BannerWords

/-! ### Shortest runs and blanks -/

namespace Text

/-- A run is shortest when the stop succeeds behind it and fails before its proper endings. -/
theorem shortest_append {α : Type} {p : Char → Bool} {stop : Text → Option α} {run rest : Text}
    {a : α} (hne : run ≠ []) (hp : ∀ c ∈ run, p c = true) (hstop : stop rest = some a)
    (hskip : ∀ t, t ≠ [] → t <:+ run.tail → stop (t ++ rest) = none) :
    shortest p stop (run ++ rest) = some (run, a) := by
  induction run with
  | nil => exact absurd rfl hne
  | cons c run ih =>
    have hc : p c = true := hp c (List.mem_cons_self ..)
    rw [List.cons_append, shortest, if_pos hc]
    cases run with
    | nil => simp [hstop]
    | cons b run =>
      have hnone := hskip (b :: run) (List.cons_ne_nil b run) (List.suffix_refl _)
      have hrun := ih (List.cons_ne_nil b run) (fun x hx => hp x (List.mem_cons_of_mem c hx))
        fun t ht hsuf => hskip t ht (hsuf.trans (List.suffix_cons b run))
      rw [hnone, hrun]
      rfl

/-- In front of the place where a shortest run ends, the stop fails. -/
theorem stop_eq_none_of_shortest {α : Type} {p : Char → Bool} {stop : Text → Option α}
    {run rest t : Text} {a : α} (h : shortest p stop (run ++ rest) = some (run, a)) (hne : t ≠ [])
    (ht : t <:+ run.tail) : stop (t ++ rest) = none := by
  induction run with
  | nil => exact absurd (List.suffix_nil.1 ht) hne
  | cons c run ih =>
    rw [List.cons_append, shortest] at h
    split at h
    · split at h
      · simp only [Option.some.injEq, Prod.mk.injEq, List.cons.injEq, true_and] at h
        obtain ⟨rfl, _⟩ := h
        exact absurd (List.suffix_nil.1 ht) hne
      · rename_i hnone
        obtain ⟨r, hr, heq⟩ := Option.map_eq_some_iff.1 h
        obtain ⟨hrun, rfl⟩ := Prod.mk.inj heq
        obtain rfl := (List.cons.inj hrun).2
        cases hrun : r.1 with
        | nil =>
          rw [hrun] at ht
          exact absurd (List.suffix_nil.1 ht) hne
        | cons b u =>
          rw [hrun] at ht
          rcases List.suffix_cons_iff.1 ht with rfl | ht
          · rw [hrun] at hnone
            exact hnone
          · refine ih hr ?_
            rw [hrun]
            exact ht
    · simp at h

/-- There is a shortest run wherever there is a run. -/
theorem exists_shortest {α : Type} {p : Char → Bool} {stop : Text → Option α} {run rest : Text}
    {a : α} (hne : run ≠ []) (hp : ∀ c ∈ run, p c = true) (hstop : stop rest = some a) :
    ∃ r, shortest p stop (run ++ rest) = some r := by
  induction run with
  | nil => exact absurd rfl hne
  | cons c run ih =>
    have hc : p c = true := hp c (List.mem_cons_self ..)
    rw [List.cons_append, shortest, if_pos hc]
    cases hnext : stop (run ++ rest) with
    | some b => exact ⟨_, rfl⟩
    | none =>
      cases run with
      | nil =>
        rw [List.nil_append, hstop] at hnext
        exact absurd hnext (by simp)
      | cons b run =>
        obtain ⟨r, hr⟩ := ih (List.cons_ne_nil b run) fun x hx => hp x (List.mem_cons_of_mem c hx)
        exact ⟨_, by rw [hr]; rfl⟩

theorem char?_eq_some_iff {p : Char → Bool} {c : Char} {s rest : Text} :
    char? p s = some (c, rest) ↔ p c = true ∧ s = c :: rest := by
  cases s with
  | nil => simp [char?]
  | cons a s =>
    rw [char?]
    split
    · rename_i ha
      simp only [Option.some.injEq, Prod.mk.injEq, List.cons.injEq]
      exact ⟨fun h => ⟨h.1 ▸ ha, h⟩, fun h => h.2⟩
    · rename_i ha
      simp only [reduceCtorEq, List.cons.injEq, false_iff]
      rintro ⟨hc, rfl, _⟩
      exact ha hc

theorem dropBlanks_cons {c : Char} (hc : isBlank c = false) (s : Text) :
    dropBlanks (c :: s) = c :: s := by
  simp [dropBlanks, hc]

/-- Nothing is trimmed from a text with a plain character at each end. -/
theorem trim_of_ends {a z : Char} (ha : isBlank a = false) (hz : isBlank z = false) (t : Text) :
    trim (a :: (t ++ [z])) = a :: (t ++ [z]) := by
  rw [trim, dropBlanks_cons ha, trimEnd, dropEndWhile]
  simp [hz]

theorem dropBlanks_space (s : Text) : dropBlanks (' ' :: s) = dropBlanks s := by
  have hspace : isBlank ' ' = true := by decide
  simp [dropBlanks, hspace]

theorem dropBlanks1?_space (s : Text) : dropBlanks1? (' ' :: s) = some (dropBlanks s) := rfl

theorem dropBlanks_append_of_mem {t : Text} {c : Char} (hc : c ∈ t) (hblank : isBlank c = false)
    (v : Text) : ∃ a u, a ∈ t ∧ isBlank a = false ∧ dropBlanks (t ++ v) = a :: u := by
  induction t with
  | nil => exact absurd hc List.not_mem_nil
  | cons b t ih =>
    by_cases hb : isBlank b = true
    · have hct : c ∈ t := by
        rcases List.mem_cons.1 hc with rfl | hct
        · rw [hb] at hblank
          exact absurd hblank (by decide)
        · exact hct
      obtain ⟨a, u, ha, hab, hdrop⟩ := ih hct
      refine ⟨a, u, List.mem_cons_of_mem b ha, hab, ?_⟩
      rw [← hdrop]
      simp [dropBlanks, hb]
    · have hb : isBlank b = false := by simpa using hb
      exact ⟨b, t ++ v, List.mem_cons_self .., hb, dropBlanks_cons hb _⟩

end Text

namespace Marker

/-! ### Where a name ends -/

def behindName? : Dialect → Text → Option Text
  | .directive => afterEnd?
  | .banner => afterSpacedEnd?

def IsText : Dialect → Text → Prop
  | .directive, n => DirectiveText n
  | .banner, n => BannerText n

/-- A name that can be read on an opening marker. -/
def Readable : Dialect → Text → Prop
  | .directive, n => DirectiveText n
  | .banner, n => BannerWords n

theorem readable_of_isName {d : Dialect} {n : Text} (h : d.IsName n) : Readable d n := by
  cases d with
  | directive => exact h.toText
  | banner => exact h.words

theorem IsText.ne_nil {d : Dialect} {n : Text} (h : IsText d n) : n ≠ [] := by
  cases d with
  | directive => exact DirectiveText.ne_nil h
  | banner =>
    obtain ⟨c, t, rfl, _, _⟩ := BannerText.exists_cons h
    exact List.cons_ne_nil c t

theorem isText_of_isName {d : Dialect} {n : Text} (h : d.IsName n) : IsText d n := by
  cases d with
  | directive => exact h.toText
  | banner => exact h.toBannerText

theorem behindName?_space (d : Dialect) (v : Text) :
    behindName? d (' ' :: (commentEnd ++ v)) = some v := by
  cases d with
  | directive => exact Text.after?_append commentEnd v
  | banner => exact Text.after?_append commentEnd v

theorem afterEnd?_append {t x v : Text} (hne : t ≠ []) (ht : ∀ c ∈ t, isBlank c = false)
    (hend : ¬ commentEnd <:+: t) (hx : afterEnd? x = some v) : afterEnd? (t ++ x) = none := by
  refine Option.eq_none_iff_forall_ne_some.2 fun rest hrest => ?_
  have hcomment : commentEnd = ['-', '-', '>'] := rfl
  have hstart : ∀ c u, isBlank c = false → x = c :: u → ∃ w, c = '-' ∧ u = '-' :: w := by
    intro c u hc hu
    rw [hu, afterEnd?, Text.dropBlanks_cons hc, Text.after?_eq_some_iff, hcomment] at hx
    simp only [List.cons_append, List.nil_append, List.cons.injEq] at hx
    exact ⟨_, hx⟩
  obtain ⟨a, t, rfl⟩ := List.exists_cons_of_ne_nil hne
  have ha := ht a (List.mem_cons_self ..)
  rw [afterEnd?, List.cons_append, Text.dropBlanks_cons ha, Text.after?_eq_some_iff, hcomment,
    List.cons_append, List.cons_append, List.cons_append, List.nil_append, List.cons.injEq] at hrest
  obtain ⟨rfl, hrest⟩ := hrest
  -- Behind a name of one or two hyphens the end of the comment does not go on with the bracket.
  match t, hrest with
  | [], hrest =>
    obtain ⟨w, _, hw⟩ := hstart '-' ('>' :: rest) (by decide) hrest
    exact absurd (List.cons.inj hw).1 (by decide)
  | [b], hrest =>
    obtain ⟨w, hw, _⟩ := hstart '>' rest (by decide) (List.cons.inj hrest).2
    exact absurd hw (by decide)
  | b :: c :: u, hrest =>
    simp only [List.cons_append, List.cons.injEq] at hrest
    obtain ⟨rfl, rfl, _⟩ := hrest
    exact hend ⟨[], u, rfl⟩

/-- Behind characters that are not all blanks, and no hyphens, a comment does not end. -/
theorem afterSpacedEnd?_eq_none {t : Text} {c : Char} (hc : c ∈ t) (hblank : isBlank c = false)
    (hhyphen : '-' ∉ t) (x : Text) : afterSpacedEnd? (t ++ x) = none := by
  refine Option.eq_none_iff_forall_ne_some.2 fun rest hrest => ?_
  obtain ⟨s, hs, hafter⟩ := Option.bind_eq_some_iff.1 hrest
  rw [Text.after?_eq_some_iff] at hafter
  obtain ⟨b, u, rfl⟩ := List.exists_cons_of_ne_nil (List.ne_nil_of_mem hc)
  by_cases hb : isBlank b = true
  · have hne : c ≠ b := by
      rintro rfl
      rw [hb] at hblank
      exact absurd hblank (by decide)
    obtain ⟨a, w, ha, _, hdrop⟩ :=
      Text.dropBlanks_append_of_mem ((List.mem_cons.1 hc).resolve_left hne) hblank x
    simp only [List.cons_append, Text.dropBlanks1?, hb, if_true, Option.some.injEq] at hs
    rw [← hs, hdrop] at hafter
    obtain rfl : a = '-' := (List.cons.inj hafter).1
    exact hhyphen (List.mem_cons_of_mem b ha)
  · simp [Text.dropBlanks1?, hb] at hs

theorem afterSpacedEnd?_append {t n : Text} (hn : BannerWords n) (hne : t ≠ []) (ht : t <:+ n)
    (x : Text) : afterSpacedEnd? (t ++ x) = none := by
  obtain ⟨c, hlast, hblank⟩ := hn.exists_plain_mem ht hne
  exact afterSpacedEnd?_eq_none (List.mem_of_getLast? hlast) hblank
    (fun hmem => hn.hyphen_not_mem (ht.subset hmem)) x

theorem behindName?_append {d : Dialect} {n t x v : Text} (hn : IsText d n) (hne : t ≠ [])
    (ht : t <:+ n.tail) (hx : behindName? d x = some v) : behindName? d (t ++ x) = none := by
  have hsuf : t <:+ n := ht.trans (List.tail_suffix n)
  cases d with
  | directive =>
    exact afterEnd?_append hne (fun c hc => hn.not_blank c (hsuf.subset hc))
      (fun hend => hn.not_ended (hend.trans ht.isInfix)) hx
  | banner => exact afterSpacedEnd?_append (BannerText.words hn) hne hsuf x

/-! ### A marker looked up by name, and any marker -/

theorem namedDirective_eq_some_iff {word n s rest : Text} :
    namedDirective word n s = some ((), rest) ↔
      ∃ x, afterDirective? word s = some (n ++ x) ∧ afterEnd? x = some rest := by
  constructor
  · intro h
    obtain ⟨t, ht, h⟩ := Option.bind_eq_some_iff.1 h
    obtain ⟨u, hu, h⟩ := Option.bind_eq_some_iff.1 h
    obtain ⟨x, hx, hend⟩ := Option.bind_eq_some_iff.1 hu
    obtain rfl : u = rest := by simpa using h
    obtain rfl := Text.eq_append_of_after? hx
    exact ⟨x, ht, hend⟩
  · rintro ⟨x, ht, hend⟩
    rw [namedDirective, ht]
    simp only [Option.bind_eq_bind, Option.bind_some, Text.after?_append, hend]
    rfl

theorem directive_of_namedDirective {word n s rest : Text} (hn : DirectiveText n)
    (h : namedDirective word n s = some ((), rest)) : directive word s = some (n, rest) := by
  obtain ⟨x, ht, hend⟩ := namedDirective_eq_some_iff.1 h
  have hread : Text.shortest isDirectiveChar afterEnd? (n ++ x) = some (n, rest) :=
    Text.shortest_append hn.ne_nil (fun c hc => by simp [isDirectiveChar, hn.not_blank c hc]) hend
      fun t hne hsuf => behindName?_append (d := .directive) hn hne hsuf hend
  unfold directive
  rw [ht]
  exact hread

theorem afterSpacedName?_eq_some {n s rest : Text} (hn : BannerWords n)
    (h : afterSpacedName? n s = some rest) :
    ∃ x, s.dropBlanks1? = some (n ++ x) ∧ afterSpacedEnd? x = some rest := by
  obtain ⟨a, m, ha, hstart⟩ := hn.head
  have hblank : isBlank a = false := not_blank_of_isBannerStart hstart
  induction s with
  | nil => simp [afterSpacedName?] at h
  | cons c s ih =>
    unfold afterSpacedName? at h
    split at h
    · rename_i hc
      split at h
      · rename_i found hfound
        obtain ⟨x, hx, hend⟩ := Option.bind_eq_some_iff.1 hfound
        obtain rfl := Text.eq_append_of_after? hx
        obtain rfl := Option.some.inj h
        refine ⟨x, ?_, hend⟩
        rw [ha, List.cons_append, Text.dropBlanks1?, if_pos hc, Text.dropBlanks_cons hblank]
      · obtain ⟨x, hx, hend⟩ := ih h
        refine ⟨x, ?_, hend⟩
        rw [Text.dropBlanks1?, if_pos hc]
        cases s with
        | nil => simp [Text.dropBlanks1?] at hx
        | cons b s =>
          by_cases hb : isBlank b = true
          · simpa [Text.dropBlanks1?, Text.dropBlanks, hb] using hx
          · simp [Text.dropBlanks1?, hb] at hx
    · simp at h

theorem banner_of_run {n s t x rest : Text} (hn : BannerRun n)
    (hs : s.after? commentStart = some t) (ht : t.dropBlanks1? = some (n ++ x))
    (hend : afterSpacedEnd? x = some rest) : banner s = some (n, rest) := by
  obtain ⟨c, m, rfl, hc⟩ := hn.head
  have hlen := hn.two_le
  rw [List.length_cons] at hlen
  have hskip : ∀ v, v ≠ [] → v <:+ m.tail → afterSpacedEnd? (v ++ x) = none := by
    intro v hv hsuf
    by_cases hspace : (c :: m).getLast? = some ' '
    · have htwo := hn.last hspace
      have hshort := hsuf.length_le
      have hpos := List.length_pos_iff.2 hv
      rw [List.length_cons] at htwo
      rw [List.length_tail] at hshort
      omega
    · have hwords : BannerWords (c :: m) := ⟨hn.head, hn.chars, hspace⟩
      exact afterSpacedEnd?_append hwords hv
        ((hsuf.trans (List.tail_suffix m)).trans (List.suffix_cons c m)) x
  have hne : m ≠ [] := List.length_pos_iff.1 (by omega)
  have hread : Text.shortest isBannerChar afterSpacedEnd? (m ++ x) = some (m, rest) :=
    Text.shortest_append hne (fun a ha => hn.chars a (List.mem_cons_of_mem c ha)) hend hskip
  unfold banner
  rw [hs]
  simp only [Option.bind_eq_bind, Option.bind_some, ht, List.cons_append, Text.char?, hc, if_true,
    hread]
  rfl

/-- A banner is read with all that stands between the blanks. -/
theorem banner_eq_some {n s t x rest : Text} (hn : BannerWords n) (hlen : 2 ≤ n.length)
    (hs : s.after? commentStart = some t) (ht : t.dropBlanks1? = some (n ++ x))
    (hend : afterSpacedEnd? x = some rest) : banner s = some (n, rest) :=
  banner_of_run (hn.run hlen) hs ht hend

theorem banner_of_opening {n s rest : Text} (hn : BannerWords n) (hlen : 2 ≤ n.length)
    (h : opening .banner n s = some ((), rest)) : banner s = some (n, rest) := by
  obtain ⟨t, ht, h⟩ := Option.bind_eq_some_iff.1 h
  obtain ⟨u, hu, hname⟩ := Option.bind_eq_some_iff.1 ht
  obtain rfl : t = rest := by simpa using h
  obtain ⟨x, hx, hend⟩ := afterSpacedName?_eq_some hn hname
  exact banner_eq_some hn hlen hu hx hend

/-- An opening marker that is found by its name is read with that name. -/
theorem anyOpening_of_opening {d : Dialect} {n s rest : Text} (hn : IsText d n)
    (h : opening d n s = some ((), rest)) : anyOpening d s = some (n, rest) := by
  cases d with
  | directive => exact directive_of_namedDirective hn h
  | banner => exact banner_of_opening (BannerText.words hn) (BannerText.two_le hn) h

/-! ### Markers are comments -/

theorem commentStart_prefix {s t : Text} (h : s.after? commentStart = some t) :
    commentStart <+: s := ⟨t, (Text.eq_append_of_after? h).symm⟩

theorem afterDirective?_reads {word s t : Text} (h : afterDirective? word s = some t) :
    commentStart <+: s := by
  obtain ⟨u, hu, _⟩ := Option.bind_eq_some_iff.1 h
  exact commentStart_prefix hu

theorem directive_readsComments (word : Text) : (directive word).ReadsComments := by
  intro s r h
  obtain ⟨t, ht, _⟩ := Option.bind_eq_some_iff.1 h
  exact afterDirective?_reads ht

theorem banner_readsComments : banner.ReadsComments := by
  intro s r h
  obtain ⟨t, ht, _⟩ := Option.bind_eq_some_iff.1 h
  exact commentStart_prefix ht

theorem anyOpening_readsComments (d : Dialect) : (anyOpening d).ReadsComments := by
  cases d with
  | directive => exact directive_readsComments openWord
  | banner => exact banner_readsComments

theorem namedDirective_readsComments (word n : Text) :
    (namedDirective word n).ReadsComments := by
  intro s r h
  obtain ⟨t, ht, _⟩ := Option.bind_eq_some_iff.1 h
  exact afterDirective?_reads ht

theorem opening_readsComments (d : Dialect) (n : Text) : (opening d n).ReadsComments := by
  cases d with
  | directive => exact namedDirective_readsComments openWord n
  | banner =>
    intro s r h
    obtain ⟨t, ht, _⟩ := Option.bind_eq_some_iff.1 h
    obtain ⟨u, hu, _⟩ := Option.bind_eq_some_iff.1 ht
    exact commentStart_prefix hu

theorem closing_readsComments (d : Dialect) (n : Text) : (closing d n).ReadsComments := by
  cases d with
  | directive => exact namedDirective_readsComments closeWord n
  | banner =>
    intro s r h
    obtain ⟨t, ht, _⟩ := Option.bind_eq_some_iff.1 h
    obtain ⟨u, hu, _⟩ := Option.bind_eq_some_iff.1 ht
    exact commentStart_prefix hu

end Marker

end TemplateBlocks
