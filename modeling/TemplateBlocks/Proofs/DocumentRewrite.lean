import TemplateBlocks.Proofs.Document

/-!
# Rewriting documents

A search for the markers of a block leads to the lines around it. So the body of a block is read
from its body lines (`Document.body?_text`), and a replaced body becomes the body lines
(`Document.replaceBody_text`). The text of a document tells its dialect (`Document.ofText_text`).
-/

namespace TemplateBlocks

/-! ### Names in texts and in reports -/

theorem Text.replaceChar_replaceChar {old new : Char} {s : Text} (h : new ∉ s) :
    (s.replaceChar old new).replaceChar new old = s := by
  induction s with
  | nil => rfl
  | cons c s ih =>
    rw [List.mem_cons, not_or] at h
    have hs := ih h.2
    have hc : c ≠ new := fun he => h.1 he.symm
    simp only [replaceChar, List.map_cons, List.map_map] at hs ⊢
    rw [hs]
    by_cases hold : c = old
    · simp [hold]
    · simp [hold, hc]

/-- The markers of a block are found by the name it is reported with. -/
theorem Dialect.markerName_blockName {d : Dialect} {n : Text} (hn : d.IsName n) :
    d.markerName (d.blockName n) = n := by
  cases d with
  | directive => rfl
  | banner =>
    refine Text.replaceChar_replaceChar fun hmem => ?_
    have hrange := BannerText.toNat_mem hn.toBannerText hmem
    simp at hrange

theorem Dialect.blockName_inj {d : Dialect} {m n : Text} (hm : d.IsName m) (hn : d.IsName n) :
    d.blockName m = d.blockName n ↔ m = n := by
  constructor
  · intro h
    have hback := congrArg d.markerName h
    rw [markerName_blockName hm, markerName_blockName hn] at hback
    exact hback
  · intro h
    rw [h]

theorem Dialect.blockName_ne_nil {d : Dialect} {n : Text} (hn : d.IsName n) :
    d.blockName n ≠ [] := by
  cases d with
  | directive => exact hn.ne_nil
  | banner =>
    obtain ⟨c, t, rfl, _, _⟩ := hn.exists_cons
    simp [Dialect.blockName, Text.replaceChar]

/-! ### Searching a document -/

namespace Matcher

theorem passes_nil {α : Type} (m : Matcher α) : m.Passes [] :=
  fun _ _ hne hsuf _ => absurd (List.suffix_nil.1 hsuf) hne

end Matcher

namespace Stretch

theorem named_eq_none {d : Dialect} {n s : Text} (h : Marker.opening d n s = none) :
    named d n s = none := by
  simp [named, reader, h]

theorem named_readsComments (d : Dialect) (n : Text) : (named d n).ReadsComments := by
  intro s r h
  cases hopen : Marker.opening d n s with
  | none =>
    rw [named_eq_none hopen] at h
    exact absurd h (by simp)
  | some t => exact Marker.opening_readsComments d n _ _ hopen

end Stretch

def blockStretch (d : Dialect) (n : Text) (body : List Text) : Stretch where
  name := n
  opening := Marker.openingText d n
  body := '\n' :: Text.terminated body
  closing := Marker.closingText d n

namespace Document

variable {d : Dialect} {doc xs ys : Document} {n : Text} {body : List Text}

theorem lines_block (d : Dialect) (n : Text) (body : List Text) (es : Document) :
    lines d (.block n body :: es) =
      Marker.openingText d n :: (body ++ Marker.closingText d n :: lines d es) := by
  simp [Element.lines]

theorem passes_lines {α : Type} {m : Matcher α} (hm : m.ReadsComments)
    (hfits : ∀ e ∈ doc, e.Fits d) (hmarkers : ∀ k ∈ names doc, d.IsName k → ∀ v,
      m (Marker.openingText d k ++ v) = none ∧ m (Marker.closingText d k ++ v) = none) :
    ∀ l ∈ lines d doc, m.Passes l := by
  intro l hl
  obtain ⟨e, he, hle⟩ := List.mem_flatMap.1 hl
  refine Element.passes_lines hm (hfits e he) (fun k hk v => ?_) l hle
  cases e with
  | gap line => exact absurd hk (by simp [Element.name?])
  | block m' body =>
    obtain rfl : m' = k := by simpa [Element.name?] using hk
    exact hmarkers _ (mem_names.2 ⟨body, he⟩) (hfits _ he).1 v

theorem passes_opening (hfits : ∀ e ∈ doc, e.Fits d) (hn : d.IsName n) (hnot : n ∉ names doc) :
    ∀ l ∈ lines d doc, (Stretch.named d n).Passes l := by
  refine passes_lines (Stretch.named_readsComments d n) hfits fun k hk hkn v => ⟨?_, ?_⟩
  · have hne : n ≠ k := fun he => hnot (he ▸ hk)
    have hopen := Marker.opening_openingText hn hkn v
    rw [if_neg hne] at hopen
    exact Stretch.named_eq_none hopen
  · exact Stretch.named_eq_none (Marker.opening_closingText hn hkn v)

theorem passes_closing (hfits : ∀ e ∈ doc, e.Fits d) (hn : d.IsName n) (hnot : n ∉ names doc) :
    ∀ l ∈ lines d doc, (Marker.closing d n).Passes l := by
  refine passes_lines (Marker.closing_readsComments d n) hfits fun k hk hkn v => ⟨?_, ?_⟩
  · exact Marker.closing_openingText hkn n v
  · have hne : n ≠ k := fun he => hnot (he ▸ hk)
    have hclose := Marker.closing_closingText hn hkn v
    rw [if_neg hne] at hclose
    exact hclose

theorem text_append_block (d : Dialect) (xs : Document) (n : Text) (body : List Text)
    (ys : Document) : text d (xs ++ .block n body :: ys) =
      Text.terminated (lines d xs) ++
        ((blockStretch d n body).text ++ Text.introduced (lines d ys)) := by
  have hbody := Text.introduced_append_newline body
  rw [text, lines_append, lines_block, newline, Text.join_append_cons]
  simp only [Stretch.text, blockStretch, ← hbody]
  simp

theorem named_block (hfits : (Element.block n body).Fits d) (ms : List Text) :
    Stretch.named d n ((blockStretch d n body).text ++ Text.introduced ms) =
      some (blockStretch d n body, Text.introduced ms) := by
  have hopen := Marker.opening_openingText hfits.1 hfits.1
    (Text.join ['\n'] (([] :: body) ++ Marker.closingText d n :: ms))
  have hpasses : ∀ l ∈ [] :: body, (Marker.closing d n).Passes l := by
    intro l hl
    rcases List.mem_cons.1 hl with rfl | hl
    · exact Matcher.passes_nil _
    · exact (Marker.closing_readsComments d n).passes_of_plain (hfits.2 l hl).2
  have hfind := Marker.find_closing hfits.1 hpasses ms
  have htext : (blockStretch d n body).text ++ Text.introduced ms =
      Marker.openingText d n ++ Text.join ['\n'] (([] :: body) ++ Marker.closingText d n :: ms) := by
    rw [Text.join_append_cons]
    simp [Stretch.text, blockStretch]
  rw [if_pos rfl] at hopen
  rw [htext]
  simp only [Stretch.named, Stretch.reader, hopen, Option.map_some, Option.bind_eq_bind,
    Option.bind_some, hfind, Text.upTo_append]
  simp [blockStretch]

theorem find_named_text (hfits : ∀ e ∈ xs ++ .block n body :: ys, e.Fits d) (hnot : n ∉ names xs) :
    Text.find (Stretch.named d n) (text d (xs ++ .block n body :: ys)) =
      some ⟨Text.terminated (lines d xs), blockStretch d n body, (blockStretch d n body).text,
        Text.introduced (lines d ys)⟩ := by
  have hblock : (Element.block n body).Fits d := hfits _ (by simp)
  have hpasses := passes_opening (fun e he => hfits e (List.mem_append_left _ he)) hblock.1 hnot
  have hne : (blockStretch d n body).text ≠ [] := by
    simp [Stretch.text, blockStretch]
  have hread := Text.find_of_read hne (named_block hblock (lines d ys))
  rw [text_append_block, (Stretch.named_readsComments d n).find_terminated hpasses, hread]
  simp [Text.Found.behind]

theorem find_closing_text (hfits : ∀ e ∈ xs ++ .block n body :: ys, e.Fits d) (hnot : n ∉ names xs) :
    Text.find (Marker.closing d n) (text d (xs ++ .block n body :: ys)) =
      some ⟨Text.terminated (lines d xs ++ Marker.openingText d n :: body), (),
        Marker.closingText d n, Text.introduced (lines d ys)⟩ := by
  have hblock : (Element.block n body).Fits d := hfits _ (by simp)
  have hreads := Marker.closing_readsComments d n
  have hbefore := passes_closing (fun e he => hfits e (List.mem_append_left _ he)) hblock.1 hnot
  have hpasses : ∀ l ∈ lines d xs ++ Marker.openingText d n :: body,
      (Marker.closing d n).Passes l := by
    intro l hl
    rcases List.mem_append.1 hl with hl | hl
    · exact hbefore l hl
    · rcases List.mem_cons.1 hl with rfl | hl
      · exact Marker.passes_openingText hreads hblock.1 fun v =>
          Marker.closing_openingText hblock.1 n v
      · exact hreads.passes_of_plain (hblock.2 l hl).2
  have hlines : lines d (xs ++ .block n body :: ys) =
      (lines d xs ++ Marker.openingText d n :: body) ++ Marker.closingText d n :: lines d ys := by
    rw [lines_append, lines_block]
    simp
  rw [text, newline, hlines]
  exact Marker.find_closing hblock.1 hpasses (lines d ys)

/-! ### The dialect of a document -/

theorem passes_directive {α : Type} {m : Matcher α} (hm : m.ReadsComments)
    (hfits : ∀ e ∈ doc, e.Fits .banner) (hwords : ∀ words, BannerText words → ∀ v,
      m (Marker.plainComment words ++ v) = none) : ∀ l ∈ lines .banner doc, m.Passes l := by
  refine passes_lines hm hfits fun k _ hk v => ⟨hwords k hk.toBannerText v, ?_⟩
  rw [Marker.closingText_eq]
  exact hwords _ (Marker.bannerText_closing hk.toBannerText) v

theorem directive_eq_none_of_banner (hfits : ∀ e ∈ doc, e.Fits .banner) :
    Text.find (Marker.directive Marker.openWord) (text .banner doc) = none := by
  have hm := Marker.directive_readsComments Marker.openWord
  refine hm.find_join_eq_none (passes_directive hm hfits fun words hwords v => ?_)
  exact Marker.directive_eq_none (Marker.afterDirective?_banner hwords.words _ rfl v)

theorem named_directive_eq_none_of_banner (hfits : ∀ e ∈ doc, e.Fits .banner) (k : Text) :
    Text.find (Stretch.named .directive k) (text .banner doc) = none := by
  have hm := Stretch.named_readsComments .directive k
  refine hm.find_join_eq_none (passes_directive hm hfits fun words hwords v => ?_)
  have hafter := Marker.afterDirective?_banner hwords.words Marker.openWord rfl v
  exact Stretch.named_eq_none (Marker.namedDirective_eq_none hafter k)

theorem find_anyOpening_text (hfits : ∀ e ∈ xs ++ .block n body :: ys, e.Fits d)
    (hxs : names xs = []) : Text.find (Marker.anyOpening d) (text d (xs ++ .block n body :: ys)) =
      some ⟨Text.terminated (lines d xs), n, Marker.openingText d n,
        Text.introduced (body ++ Marker.closingText d n :: lines d ys)⟩ := by
  have hblock : (Element.block n body).Fits d := hfits _ (by simp)
  have hm := Marker.anyOpening_readsComments d
  have hpasses := passes_lines hm (fun e he => hfits e (List.mem_append_left _ he))
    fun k hk => absurd hk (by simp [hxs])
  rw [text, lines_append, lines_block, newline]
  exact hm.find_join hpasses (Marker.openingText_ne_nil d n) fun v _ =>
    Marker.anyOpening_openingText hblock.1 v

theorem exists_append_of_names_ne_nil (hne : names doc ≠ []) :
    ∃ xs n body ys, doc = xs ++ .block n body :: ys ∧ names xs = [] := by
  induction doc with
  | nil => exact absurd rfl hne
  | cons e es ih =>
    cases e with
    | gap l =>
      obtain ⟨xs, n, body, ys, rfl, hxs⟩ := ih hne
      exact ⟨.gap l :: xs, n, body, ys, rfl, hxs⟩
    | block n body => exact ⟨[], n, body, es, rfl, rfl⟩

/-- The text of a document tells its dialect. -/
theorem ofText_text (hfits : ∀ e ∈ doc, e.Fits d) (hne : names doc ≠ []) :
    Dialect.ofText (text d doc) = d := by
  cases d with
  | directive =>
    obtain ⟨xs, n, body, ys, rfl, hxs⟩ := exists_append_of_names_ne_nil hne
    have hfind := find_anyOpening_text hfits hxs
    have hoccurs : (text .directive (xs ++ .block n body :: ys)).occurs
        (Marker.directive Marker.openWord) = true := by
      rw [Text.occurs, show Marker.directive Marker.openWord = Marker.anyOpening .directive from rfl,
        hfind]
      rfl
    rw [Dialect.ofText, if_pos hoccurs]
  | banner =>
    have hnone := directive_eq_none_of_banner hfits
    rw [Dialect.ofText, Text.occurs, hnone]
    rfl

/-! ### The body of a block -/

theorem find?_text (hfits : ∀ e ∈ xs ++ .block n body :: ys, e.Fits d) (hnot : n ∉ names xs) :
    Stretch.find? d (d.blockName n) (text d (xs ++ .block n body :: ys)) =
      some ⟨Text.terminated (lines d xs), blockStretch d n body, (blockStretch d n body).text,
        Text.introduced (lines d ys)⟩ := by
  have hblock : (Element.block n body).Fits d := hfits _ (by simp)
  rw [Stretch.find?, Dialect.markerName_blockName hblock.1]
  exact find_named_text hfits hnot

theorem stretch?_text (hfits : ∀ e ∈ xs ++ .block n body :: ys, e.Fits d) (hnot : n ∉ names xs) :
    (text d (xs ++ .block n body :: ys)).stretch? (d.blockName n) =
      some ⟨Text.terminated (lines d xs), blockStretch d n body, (blockStretch d n body).text,
        Text.introduced (lines d ys)⟩ := by
  have hfind := find?_text hfits hnot
  cases d with
  | directive => rw [Text.stretch?, hfind]
  | banner =>
    have hnone := named_directive_eq_none_of_banner hfits
    rw [Text.stretch?, Stretch.find?, hnone]
    exact hfind

theorem dropEnd_terminated (ls : List Text) :
    (Text.terminated ls).dropEnd newline = Text.join newline ls := by
  cases ls with
  | nil => rfl
  | cons l ls =>
    rw [Text.terminated_eq_join (List.cons_ne_nil l ls)]
    simp [Text.dropEnd, Text.dropStart, Text.after?, newline]

theorem dropStart_introduced (ls : List Text) :
    (Text.introduced ls).dropStart newline = Text.join newline ls := by
  cases ls with
  | nil => rfl
  | cons l ls =>
    rw [Text.introduced_eq_join (List.cons_ne_nil l ls)]
    simp [Text.dropStart, Text.after?, newline]

theorem content_blockStretch : (blockStretch d n body).content = Text.join newline body := by
  have hstart : (blockStretch d n body).body.dropStart newline = Text.terminated body := by
    simp [blockStretch, Text.dropStart, Text.after?, newline]
  rw [Stretch.content, hstart, dropEnd_terminated]

theorem body?_text (hfits : ∀ e ∈ xs ++ .block n body :: ys, e.Fits d) (hnot : n ∉ names xs) :
    body? (text d (xs ++ .block n body :: ys)) (d.blockName n) = some (Text.join newline body) := by
  rw [body?, stretch?_text hfits hnot, Option.map_some, content_blockStretch]

/-! ### Replacing a body -/

theorem introduced_splitAt (s : Text) : Text.introduced (Text.splitAt '\n' s) = '\n' :: s := by
  rw [Text.introduced_eq_join (Text.splitAt_ne_nil '\n' s), Text.join_splitAt]

theorem replaceBody_text (hfits : ∀ e ∈ xs ++ .block n body :: ys, e.Fits d) (hnot : n ∉ names xs)
    (new : Text) : replaceBody (text d (xs ++ .block n body :: ys)) (d.blockName n) new =
      .ok (text d (xs ++ .block n (Text.splitAt '\n' new) :: ys)) := by
  have hstretch : (blockStretch d n body).withBody new =
      blockStretch d n (Text.splitAt '\n' new) := by
    have hbody : newline ++ new ++ newline = '\n' :: Text.terminated (Text.splitAt '\n' new) := by
      rw [← Text.introduced_append_newline, introduced_splitAt]
      rfl
    simp only [Stretch.withBody, blockStretch, hbody]
  rw [replaceBody, stretch?_text hfits hnot, text_append_block, ← hstretch]
  simp

end Document

end TemplateBlocks
