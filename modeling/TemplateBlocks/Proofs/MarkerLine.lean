import TemplateBlocks.Marker.Scan
import TemplateBlocks.Proofs.MarkerText

/-!
# Plain markers as lines

A plain marker that has a line to itself yields one event of the line scan, and a line without a
comment yields none. A search for markers passes over the lines of markers that it does not read.
-/

namespace TemplateBlocks

namespace Marker

variable {d : Dialect} {n m : Text}

/-! ### Markers as lines -/

inductive Said : Text → Prop
  | opens {n : Text} (h : DirectiveName n) : Said (openWord ++ n)
  | closes {n : Text} (h : DirectiveName n) : Said (closeWord ++ n)
  | banner {n : Text} (h : BannerText n) : Said n

theorem said_openingWords (hn : d.IsName n) : Said (openingWords d n) := by
  cases d with
  | directive => exact .opens hn
  | banner => exact .banner hn.toBannerText

theorem said_closingWords (hn : d.IsName n) : Said (closingWords d n) := by
  cases d with
  | directive => exact .closes hn
  | banner => exact .banner (bannerText_closing hn.toBannerText)

theorem Said.not_mem {words : Text} (h : Said words) : '<' ∉ words ∧ '\n' ∉ words := by
  have hdirective : ∀ word n, '<' ∉ word ∧ '\n' ∉ word → DirectiveName n →
      '<' ∉ word ++ n ∧ '\n' ∉ word ++ n := by
    intro word n hword hn
    rw [List.mem_append, List.mem_append, not_or, not_or]
    refine ⟨⟨hword.1, fun hc => (hn.plain _ hc).2.1 rfl⟩, hword.2, fun hc => ?_⟩
    exact absurd (hn.plain _ hc).1 (by decide)
  cases h with
  | opens hn => exact hdirective openWord _ (by decide) hn
  | closes hn => exact hdirective closeWord _ (by decide) hn
  | banner hn =>
    refine ⟨fun hc => ?_, fun hc => ?_⟩
    · have hrange := hn.toNat_mem hc
      simp at hrange
    · have hrange := hn.toNat_mem hc
      simp at hrange

def commentTail (words : Text) : Text := "!-- ".toList ++ words ++ " -->".toList

theorem plainComment_eq_cons (words : Text) : plainComment words = '<' :: commentTail words := by
  simp [plainComment, commentTail, commentStart, commentEnd]

theorem Said.not_mem_tail {words : Text} (h : Said words) : '<' ∉ commentTail words := by
  simp [commentTail, h.not_mem.1]

theorem Said.newline_not_mem {words : Text} (h : Said words) : '\n' ∉ plainComment words := by
  simp [plainComment, commentStart, commentEnd, h.not_mem.2]

theorem trim_plainComment (words : Text) : (plainComment words).trim = plainComment words := by
  have hends : plainComment words =
      '<' :: ("!-- ".toList ++ words ++ " --".toList ++ ['>']) := by
    simp [plainComment, commentStart, commentEnd]
  rw [hends]
  exact Text.trim_of_ends (by decide) (by decide) _

/-! ### Events of plain markers -/

theorem afterDirective?_banner {words : Text} (hwords : BannerWords words) (word : Text)
    (hword : word.head? = some '@') (v : Text) :
    afterDirective? word (plainComment words ++ v) = none := by
  obtain ⟨c, t, rfl, hc⟩ := hwords.head
  have hrange := toNat_of_isBannerStart hc
  have hblank := not_blank_of_isBannerStart hc
  have hat : c ≠ '@' := by
    intro heq
    subst heq
    simp at hrange
  cases word with
  | nil => simp at hword
  | cons b word =>
    obtain rfl : b = '@' := by simpa using hword
    unfold afterDirective?
    rw [after?_plainComment]
    simp [Text.dropBlanks_space, Text.dropBlanks_cons hblank, Text.after?, hat]

theorem trim_bannerWords (hn : BannerWords n) : n.trim = n := by
  obtain ⟨c, t, rfl, hc⟩ := hn.head
  have hdrop := Text.dropBlanks_cons (not_blank_of_isBannerStart hc) t
  obtain ⟨z, hlast, hz⟩ := hn.exists_plain_mem (List.suffix_refl _) (List.cons_ne_nil c t)
  rw [Text.trim, hdrop, Text.trimEnd, Text.dropEndWhile]
  rw [← List.head?_reverse] at hlast
  cases hrev : (c :: t).reverse with
  | nil => simp at hrev
  | cons a u =>
    obtain rfl : a = z := by simpa [hrev] using hlast
    rw [List.dropWhile_cons_of_neg (by simp [hz]), ← hrev, List.reverse_reverse]

theorem ofBanner_of_isName (hn : BannerName n) :
    MarkerEvent.ofBanner n = .opens ⟨.banner, n⟩ := by
  have hafter : n.after? (endOf ++ " ".toList) = none := by
    refine Option.eq_none_iff_forall_ne_some.2 fun rest hrest => ?_
    rw [Text.after?_eq_some_iff] at hrest
    exact hn.not_closing ⟨rest, hrest.symm⟩
  rw [MarkerEvent.ofBanner, hafter]

theorem ofBanner_closing (n : Text) :
    MarkerEvent.ofBanner (endOf ++ ' ' :: n) = .closes ⟨.banner, n⟩ := by
  have hafter : (endOf ++ ' ' :: n).after? (endOf ++ " ".toList) = some n := by
    rw [Text.after?_eq_some_iff]
    simp
  rw [MarkerEvent.ofBanner, hafter]

theorem ofLine_banner {words : Text} (hwords : BannerWords words) (hlen : 2 ≤ words.length) :
    MarkerEvent.ofLine (plainComment words) = [MarkerEvent.ofBanner words] := by
  have hopen := directive_eq_none (afterDirective?_banner hwords openWord rfl [])
  have hclose := directive_eq_none (afterDirective?_banner hwords closeWord rfl [])
  have hread := banner_plainComment hwords hlen []
  rw [List.append_nil] at hopen hclose hread
  rw [MarkerEvent.ofLine, hopen, hclose, hread]
  simp [trim_bannerWords hwords]

theorem ofLine_openingText (hn : d.IsName n) :
    MarkerEvent.ofLine (openingText d n) = [.opens ⟨d, n⟩] := by
  cases d with
  | directive =>
    have hread := directive_plainComment isKeyword_openWord hn.toText []
    rw [List.append_nil] at hread
    rw [openingText, openingWords, MarkerEvent.ofLine, hread]
    rfl
  | banner =>
    have hline := ofLine_banner hn.words hn.two_le
    rw [ofBanner_of_isName hn] at hline
    exact hline

theorem ofLine_closingText (hn : Readable d n) :
    MarkerEvent.ofLine (closingText d n) = [.closes ⟨d, n⟩] := by
  rw [closingText_eq]
  cases d with
  | directive =>
    have hafter := afterDirective?_plainComment openWord isKeyword_closeWord n []
    have hopen := directive_eq_none (hafter.trans (after?_other_keyword _).1)
    have hread := directive_plainComment isKeyword_closeWord hn []
    rw [List.append_nil] at hopen hread
    rw [closingWords, MarkerEvent.ofLine, hopen, hread]
  | banner =>
    have hlen : 2 ≤ (endOf ++ ' ' :: n).length := by simp [endOf_eq]
    rw [closingWords, ofLine_banner (bannerWords_closing hn) hlen, ofBanner_closing]

theorem newline_not_mem_closingText (hn : Readable d n) : '\n' ∉ closingText d n := by
  have hwords : '\n' ∉ closingWords d n := by
    cases d with
    | directive =>
      rw [closingWords, List.mem_append, not_or]
      exact ⟨by decide, fun hmem => absurd (DirectiveText.not_blank hn _ hmem) (by decide)⟩
    | banner =>
      exact fun hmem => absurd ((bannerWords_closing hn).chars _ hmem) (by decide)
  rw [closingText_eq]
  simp [plainComment, commentStart, commentEnd, hwords]

theorem ofLine_trim_of_plain {l : Text} (hl : ¬ commentStart <:+: l) :
    MarkerEvent.ofLine l.trim = [] := by
  have htrim : l.trim <:+: l := by
    have hstart : Text.dropBlanks l <:+ l := Text.dropBlanks_suffix l
    have hend : l.trim <+: Text.dropBlanks l := by
      have hsuf := List.dropWhile_suffix (l := (Text.dropBlanks l).reverse) isBlank
      simpa [Text.trim, Text.trimEnd, Text.dropEndWhile] using List.reverse_prefix.2 hsuf
    exact hend.isInfix.trans hstart.isInfix
  have hnone : ∀ {α : Type} {m : Matcher α}, m.ReadsComments → m l.trim = none := by
    intro α m hm
    refine Option.eq_none_iff_forall_ne_some.2 fun r hr => ?_
    exact hl ((hm _ _ hr).isInfix.trans htrim)
  rw [MarkerEvent.ofLine, hnone (directive_readsComments openWord),
    hnone (directive_readsComments closeWord), hnone banner_readsComments]

theorem openingText_ne_nil (d : Dialect) (n : Text) : openingText d n ≠ [] := by
  rw [openingText, plainComment_eq_cons]
  exact List.cons_ne_nil _ _

theorem closingText_ne_nil (d : Dialect) (n : Text) : closingText d n ≠ [] := by
  rw [closingText_eq, plainComment_eq_cons]
  exact List.cons_ne_nil _ _

/-! ### Searches at plain markers -/

theorem passes_plainComment {α : Type} {r : Matcher α} (hr : r.ReadsComments) {words : Text}
    (hsaid : Said words) (h : ∀ v, r (plainComment words ++ v) = none) :
    r.Passes (plainComment words) := by
  rw [plainComment_eq_cons] at h ⊢
  exact hr.passes_of_comment hsaid.not_mem_tail fun v _ => h v

theorem passes_openingText {α : Type} {r : Matcher α} (hr : r.ReadsComments) (hn : d.IsName n)
    (h : ∀ v, r (openingText d n ++ v) = none) : r.Passes (openingText d n) :=
  passes_plainComment hr (said_openingWords hn) h

theorem passes_closingText {α : Type} {r : Matcher α} (hr : r.ReadsComments) (hn : d.IsName n)
    (h : ∀ v, r (closingText d n ++ v) = none) : r.Passes (closingText d n) := by
  rw [closingText_eq] at h ⊢
  exact passes_plainComment hr (said_closingWords hn) h

/-- The search for a closing marker stops at the first line that is one. -/
theorem find_closing (hn : d.IsName n) {ls : List Text}
    (h : ∀ l ∈ ls, (closing d n).Passes l) (ms : List Text) :
    Text.find (closing d n) (Text.join ['\n'] (ls ++ closingText d n :: ms)) =
      some ⟨Text.terminated ls, (), closingText d n, Text.introduced ms⟩ := by
  refine (closing_readsComments d n).find_join h (closingText_ne_nil d n) fun v _ => ?_
  rw [closing_closingText hn hn, if_pos rfl]

end Marker

end TemplateBlocks
