import TemplateBlocks.Proofs.MarkerName

/-!
# Markers in their plain spelling

A plain marker has one blank on each side of what it says. Plain markers are read back by name
(`opening_openingText`, `closing_closingText` and the two that read nothing) and by the reader of
any opening marker (`anyOpening_openingText`).
-/

namespace TemplateBlocks

namespace Marker

/-! ### Where another name ends -/

theorem IsText.not_space_suffix {d : Dialect} {n t u v : Text} (hn : IsText d n)
    (ht : ' ' :: t <:+ n) : commentEnd ++ v ≠ t ++ u := by
  intro heq
  cases d with
  | directive =>
    have hspace := hn.not_blank ' ' (ht.subset (List.mem_cons_self ..))
    exact absurd hspace (by decide)
  | banner =>
    cases t with
    | nil =>
      obtain ⟨s, hs⟩ := ht
      exact hn.last (by rw [← hs]; simp)
    | cons c t =>
      obtain rfl : '-' = c := (List.cons.inj heq).1
      have hhyphen : '-' ∈ n := ht.subset (List.mem_cons_of_mem ' ' (List.mem_cons_self ..))
      have hrange := BannerText.toNat_mem hn hhyphen
      simp at hrange

/-- Behind one name another one is read only when they are the same. -/
theorem after?_bind_behindName? {d : Dialect} {n m : Text} (hn : IsText d n) (hm : IsText d m)
    (v : Text) : (Text.after? (m ++ ' ' :: (commentEnd ++ v)) n >>= behindName? d) =
      if n = m then some v else none := by
  by_cases hnm : n = m
  · subst hnm
    rw [if_pos rfl, Text.after?_append]
    exact behindName?_space d v
  · rw [if_neg hnm]
    refine Option.eq_none_iff_forall_ne_some.2 fun rest hrest => ?_
    obtain ⟨s, hs, hrest⟩ := Option.bind_eq_some_iff.1 hrest
    rw [Text.after?_eq_some_iff] at hs
    rcases List.append_eq_append_iff.1 hs with ⟨t, rfl, ht⟩ | ⟨t, rfl, rfl⟩
    · cases t with
      | nil => simp at hnm
      | cons c t =>
        rw [List.cons_append] at ht
        obtain ⟨rfl, heq⟩ := List.cons.inj ht
        exact hn.not_space_suffix (List.suffix_append m _) heq
    · have hne : t ≠ [] := by
        intro heq
        subst heq
        simp at hnm
      have hsuf : t <:+ (n ++ t).tail := by
        obtain ⟨c, u, rfl⟩ := List.exists_cons_of_ne_nil hn.ne_nil
        exact List.suffix_append u t
      rw [behindName?_append hm hne hsuf (behindName?_space d v)] at hrest
      exact absurd hrest (by simp)

/-! ### Plain markers -/

def plainComment (words : Text) : Text := commentStart ++ ' ' :: (words ++ ' ' :: commentEnd)

def openingWords : Dialect → Text → Text
  | .directive, n => openWord ++ n
  | .banner, n => n

def closingWords : Dialect → Text → Text
  | .directive, n => closeWord ++ n
  | .banner, n => endOf ++ ' ' :: n

/-- The opening marker of a block in its plain spelling. -/
def openingText (d : Dialect) (n : Text) : Text := plainComment (openingWords d n)

theorem closingText_eq (d : Dialect) (n : Text) :
    closingText d n = plainComment (closingWords d n) := by
  cases d with
  | directive => simp [closingText, plainComment, closingWords]
  | banner => simp [closingText, plainComment, closingWords]

theorem plainComment_append (words v : Text) : plainComment words ++ v =
    commentStart ++ ' ' :: (words ++ ' ' :: (commentEnd ++ v)) := by
  simp [plainComment]

theorem after?_plainComment (words v : Text) : (plainComment words ++ v).after? commentStart =
    some (' ' :: (words ++ ' ' :: (commentEnd ++ v))) := by
  rw [plainComment_append, Text.after?_append]

/-! ### Directives in their plain spelling -/

def IsKeyword (word : Text) : Prop := ∃ c t, word = c :: t ∧ isBlank c = false

theorem isKeyword_openWord : IsKeyword openWord := ⟨'@', "block:".toList, rfl, by decide⟩

theorem isKeyword_closeWord : IsKeyword closeWord := ⟨'@', "endblock:".toList, rfl, by decide⟩

theorem afterDirective?_plainComment (word : Text) {said : Text} (hsaid : IsKeyword said) (n v : Text) :
    afterDirective? word (plainComment (said ++ n) ++ v) =
      Text.after? (said ++ (n ++ ' ' :: (commentEnd ++ v))) word := by
  obtain ⟨c, t, rfl, hc⟩ := hsaid
  have hafter := after?_plainComment (c :: t ++ n) v
  unfold afterDirective?
  rw [hafter]
  simp [Text.dropBlanks_space, Text.dropBlanks_cons hc]

theorem namedDirective_plainComment {word n m : Text} (hword : IsKeyword word)
    (hn : DirectiveText n) (hm : DirectiveText m) (v : Text) :
    namedDirective word n (plainComment (word ++ m) ++ v) = if n = m then some ((), v) else none := by
  have hread := after?_bind_behindName? (d := .directive) hn hm v
  unfold namedDirective
  rw [afterDirective?_plainComment word hword, Text.after?_append]
  simp only [behindName?] at hread
  simp only [Option.bind_eq_bind, Option.bind_some] at hread ⊢
  rw [hread]
  split
  · rfl
  · rfl

theorem directive_plainComment {word n : Text} (hword : IsKeyword word) (hn : DirectiveText n)
    (v : Text) : directive word (plainComment (word ++ n) ++ v) = some (n, v) := by
  have hnamed := namedDirective_plainComment hword hn hn v
  rw [if_pos rfl] at hnamed
  exact directive_of_namedDirective hn hnamed

theorem after?_other_keyword (n : Text) :
    Text.after? (closeWord ++ n) openWord = none ∧ Text.after? (openWord ++ n) closeWord = none :=
  ⟨rfl, rfl⟩

theorem directive_eq_none {word s : Text} (h : afterDirective? word s = none) :
    directive word s = none := by
  unfold directive
  rw [h]
  rfl

theorem namedDirective_eq_none {word s : Text} (h : afterDirective? word s = none) (n : Text) :
    namedDirective word n s = none := by
  unfold namedDirective
  rw [h]
  rfl

/-! ### Banners in their plain spelling -/

theorem afterSpacedName?_space {n m : Text} (hn : BannerText n) (hm : BannerText m) (v : Text) :
    afterSpacedName? n (' ' :: (m ++ ' ' :: (commentEnd ++ v))) = if n = m then some v else none := by
  have hread := after?_bind_behindName? (d := .banner) hn hm v
  have hspace : isBlank ' ' = true := by decide
  rw [afterSpacedName?, if_pos hspace, show Text.after? _ n >>= afterSpacedEnd? = _ from hread]
  by_cases hnm : n = m
  · rw [if_pos hnm]
  · obtain ⟨c, t, rfl, _, hc⟩ := hm.exists_cons
    have hblank := not_blank_of_isBannerStart hc
    simp [hnm, afterSpacedName?, hblank]

theorem endOf_eq : endOf = ['E', 'O'] := rfl

theorem bannerWords_closing {n : Text} (hn : BannerWords n) :
    BannerWords (endOf ++ ' ' :: n) := by
  rw [endOf_eq]
  refine ⟨⟨'E', 'O' :: ' ' :: n, rfl, by decide⟩, fun c hc => ?_, ?_⟩
  · simp only [List.cons_append, List.nil_append, List.mem_cons] at hc
    rcases hc with rfl | rfl | rfl | hc
    · decide
    · decide
    · decide
    · exact hn.chars c hc
  · obtain ⟨c, t, rfl, _⟩ := hn.head
    have hlast := hn.last
    simpa [List.getLast?_cons_cons] using hlast

/-- A banner can also say the closing word in front of a name. -/
theorem bannerText_closing {n : Text} (hn : BannerText n) : BannerText (endOf ++ ' ' :: n) := by
  rw [endOf_eq]
  refine ⟨by simp, fun c hc => ?_, fun c hc => ?_, ?_⟩
  · obtain rfl : 'E' = c := by simpa using hc
    decide
  · simp only [List.cons_append, List.nil_append, List.mem_cons] at hc
    rcases hc with rfl | rfl | rfl | hc
    · exact .inr (.inl (by decide))
    · exact .inr (.inl (by decide))
    · exact .inl rfl
    · exact hn.plain c hc
  · obtain ⟨c, t, rfl, _, _⟩ := hn.exists_cons
    have hlast := hn.last
    simpa [List.getLast?_cons_cons] using hlast

theorem opening_banner_append (n words v : Text) : opening .banner n (plainComment words ++ v) =
    (afterSpacedName? n (' ' :: (words ++ ' ' :: (commentEnd ++ v)))).map fun rest => ((), rest) := by
  unfold opening
  simp only [after?_plainComment, Option.bind_eq_bind, Option.bind_some]
  cases afterSpacedName? n _ with
  | none => rfl
  | some rest => rfl

theorem banner_plainComment {n : Text} (hn : BannerWords n) (hlen : 2 ≤ n.length) (v : Text) :
    banner (plainComment n ++ v) = some (n, v) := by
  have hdrop : Text.dropBlanks1? (' ' :: (n ++ ' ' :: (commentEnd ++ v))) =
      some (n ++ ' ' :: (commentEnd ++ v)) := by
    obtain ⟨c, t, rfl, hc⟩ := hn.head
    rw [Text.dropBlanks1?_space, List.cons_append, Text.dropBlanks_cons (not_blank_of_isBannerStart hc)]
  exact banner_eq_some hn hlen (after?_plainComment n v) hdrop (behindName?_space .banner v)

theorem closing_banner_append {words : Text} (hwords : BannerText words) (n v : Text) :
    closing .banner n (plainComment words ++ v) =
      (Text.after? (words ++ ' ' :: (commentEnd ++ v)) endOf >>= afterSpacedName? n).map
        fun rest => ((), rest) := by
  obtain ⟨c, t, rfl, _, hc⟩ := hwords.exists_cons
  have hblank := not_blank_of_isBannerStart hc
  unfold closing
  simp only [after?_plainComment, Option.bind_eq_bind, Option.bind_some, Text.dropBlanks1?_space,
    List.cons_append, Text.dropBlanks_cons hblank]
  cases Option.bind (Text.after? (c :: (t ++ ' ' :: (commentEnd ++ v))) endOf)
    (afterSpacedName? n) with
  | none => rfl
  | some rest => rfl

theorem closing_openingText_banner {m : Text} (hm : BannerName m) (n v : Text) :
    closing .banner n (plainComment m ++ v) = none := by
  rw [closing_banner_append hm.toBannerText, Option.map_eq_none_iff]
  refine Option.eq_none_iff_forall_ne_some.2 fun rest hrest => ?_
  obtain ⟨s, hs, hrest⟩ := Option.bind_eq_some_iff.1 hrest
  rw [Text.after?_eq_some_iff] at hs
  obtain ⟨a, t, rfl, hne, _⟩ := hm.exists_cons
  obtain ⟨b, t, rfl⟩ := List.exists_cons_of_ne_nil hne
  rw [endOf_eq] at hs
  simp only [List.cons_append, List.nil_append, List.cons.injEq] at hs
  obtain ⟨rfl, rfl, rfl⟩ := hs
  cases t with
  | nil => exact hm.ne_endOf rfl
  | cons c t =>
    have hc : c ≠ ' ' := by
      intro heq
      subst heq
      exact hm.not_closing ⟨t, rfl⟩
    have hblank := not_blank_of_isBannerChar (hm.isBannerChar (by simp)) hc
    simp [afterSpacedName?, hblank] at hrest

/-! ### Markers of one block -/

variable {d : Dialect} {n m : Text}

theorem opening_openingText (hn : d.IsName n) (hm : d.IsName m) (v : Text) :
    opening d n (openingText d m ++ v) = if n = m then some ((), v) else none := by
  cases d with
  | directive => exact namedDirective_plainComment isKeyword_openWord hn.toText hm.toText v
  | banner =>
    have hname := afterSpacedName?_space hn.toBannerText hm.toBannerText v
    rw [openingText, openingWords, opening_banner_append, hname]
    split
    · rfl
    · rfl

theorem opening_closingText (hn : d.IsName n) (hm : d.IsName m) (v : Text) :
    opening d n (closingText d m ++ v) = none := by
  rw [closingText_eq]
  cases d with
  | directive =>
    have hafter := afterDirective?_plainComment openWord isKeyword_closeWord m v
    exact namedDirective_eq_none (hafter.trans (after?_other_keyword _).1) n
  | banner =>
    have hclosing := bannerText_closing hm.toBannerText
    have hne : n ≠ endOf ++ ' ' :: m := by
      intro heq
      subst heq
      exact hn.not_closing ⟨m, by simp⟩
    rw [closingWords, opening_banner_append, afterSpacedName?_space hn.toBannerText hclosing,
      if_neg hne]
    rfl

theorem closing_closingText (hn : d.IsName n) (hm : d.IsName m) (v : Text) :
    closing d n (closingText d m ++ v) = if n = m then some ((), v) else none := by
  rw [closingText_eq]
  cases d with
  | directive => exact namedDirective_plainComment isKeyword_closeWord hn.toText hm.toText v
  | banner =>
    have hname := afterSpacedName?_space hn.toBannerText hm.toBannerText v
    rw [closingWords, closing_banner_append (bannerText_closing hm.toBannerText),
      List.append_assoc, Text.after?_append]
    simp only [Option.bind_eq_bind, Option.bind_some, List.cons_append, hname]
    split
    · rfl
    · rfl

theorem closing_openingText (hm : d.IsName m) (n v : Text) :
    closing d n (openingText d m ++ v) = none := by
  cases d with
  | directive =>
    have hafter := afterDirective?_plainComment closeWord isKeyword_openWord m v
    exact namedDirective_eq_none (hafter.trans (after?_other_keyword _).2) n
  | banner => exact closing_openingText_banner hm n v

theorem anyOpening_openingText (hn : d.IsName n) (v : Text) :
    anyOpening d (openingText d n ++ v) = some (n, v) := by
  refine anyOpening_of_opening (isText_of_isName hn) ?_
  rw [opening_openingText hn hn, if_pos rfl]

end Marker

end TemplateBlocks
