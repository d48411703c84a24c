import TemplateBlocks.Diagnostic
import TemplateBlocks.Proofs.BlockList
import TemplateBlocks.Proofs.Visibility

/-!
# Readers of a document

The line scan, the search for marked stretches, the search for one body and the list of flows are
independent of each other. On the text of a document all of them find its blocks
(`Document.WellFormed.readers_agree`).
-/

namespace TemplateBlocks

theorem Stretch.any_readsComments (d : Dialect) : (Stretch.any d).ReadsComments := by
  intro s r h
  obtain ⟨t, ht, _⟩ := Option.bind_eq_some_iff.1 h
  exact Marker.anyOpening_readsComments d _ _ ht

/-! ### Matches in lines -/

namespace Matcher

variable {α : Type} {m : Matcher α}

theorem ReadsComments.allMatches_newline (hm : m.ReadsComments) (v : Text) :
    Text.allMatches m ('\n' :: v) = Text.allMatches m v := by
  rw [Text.allMatches, Text.occurrences_of_none (hm.newline_eq_none v),
    Text.occurrences_eq_allMatches]

theorem ReadsComments.allMatches_join (hm : m.ReadsComments) (ls : List Text) :
    Text.allMatches m (Text.join ['\n'] ls) = Text.allMatches m (Text.introduced ls) := by
  cases ls with
  | nil => rfl
  | cons l ls => rw [Text.introduced_eq_join (List.cons_ne_nil l ls), hm.allMatches_newline]

end Matcher

/-! ### Marked stretches of a document -/

/-- The block of an element with all of the text between its markers. -/
def Element.enclosed? (d : Dialect) : Element → Option MarkedBlock
  | gap _ => none
  | block n body => some ⟨d.blockName n, '\n' :: Text.terminated body⟩

theorem marked_blockStretch {d : Dialect} {n : Text} (hn : d.IsName n) (body : List Text) :
    (blockStretch d n body).marked d = ⟨d.blockName n, '\n' :: Text.terminated body⟩ := by
  cases d with
  | directive => rfl
  | banner =>
    have htrim : (blockStretch .banner n body).name.trim = n :=
      Marker.trim_bannerWords hn.words
    rw [Stretch.marked, htrim]
    rfl

namespace Document

variable {d : Dialect} {doc : Document}

def enclosed (d : Dialect) (doc : Document) : List MarkedBlock :=
  doc.filterMap (Element.enclosed? d)

theorem any_block {n : Text} {body : List Text} (hfits : (Element.block n body).Fits d)
    (ms : List Text) : Stretch.any d ((blockStretch d n body).text ++ Text.introduced ms) =
      some (blockStretch d n body, Text.introduced ms) :=
  (any_of_named (Marker.isText_of_isName hfits.1) (named_block hfits ms)).1

theorem allMatches_introduced (hfits : ∀ e ∈ doc, e.Fits d) :
    (Text.allMatches (Stretch.any d) (Text.introduced (lines d doc))).map (Stretch.marked d) =
      enclosed d doc := by
  have hm := Stretch.any_readsComments d
  induction doc with
  | nil =>
    rw [lines_nil, Text.introduced_nil, Text.allMatches, Text.occurrences_nil]
    rfl
  | cons e es ih =>
    have hes := ih fun x hx => hfits x (List.mem_cons_of_mem e hx)
    have he := hfits e (List.mem_cons_self ..)
    cases e with
    | gap l =>
      have hpasses := hm.passes_of_plain he.2
      rw [lines_cons, Element.lines, List.singleton_append, Text.introduced_cons,
        hm.allMatches_newline, Text.allMatches_append_of_forall fun t hne hsuf =>
          hpasses t _ hne hsuf (behindLine_introduced _)]
      exact hes
    | block n body =>
      have htext : Text.introduced (lines d (.block n body :: es)) =
          '\n' :: ((blockStretch d n body).text ++ Text.introduced (lines d es)) := by
        have hbody := Text.introduced_append_newline body
        rw [lines_block]
        simp only [Stretch.text, blockStretch, ← hbody]
        simp
      have hne : (blockStretch d n body).text ≠ [] := by
        simp [Stretch.text, blockStretch]
      rw [htext, hm.allMatches_newline, Text.allMatches_of_read hne (any_block he _), List.map_cons,
        marked_blockStretch he.1, hes]
      rfl

theorem allOf_text (hfits : ∀ e ∈ doc, e.Fits d) :
    MarkedBlock.allOf d (text d doc) = enclosed d doc := by
  have hjoin := (Stretch.any_readsComments d).allMatches_join (lines d doc)
  rw [MarkedBlock.allOf, text, newline, hjoin]
  exact allMatches_introduced hfits

theorem enclosed_ne_nil (hne : names doc ≠ []) : enclosed d doc ≠ [] := by
  obtain ⟨n, hn⟩ := List.exists_mem_of_ne_nil _ hne
  obtain ⟨body, hbody⟩ := mem_names.1 hn
  exact List.ne_nil_of_mem (List.mem_filterMap.2 ⟨_, hbody, rfl⟩)

theorem all_text (hfits : ∀ e ∈ doc, e.Fits d) (hne : names doc ≠ []) :
    MarkedBlock.all (text d doc) = enclosed d doc := by
  obtain ⟨b, hb⟩ := List.exists_mem_of_ne_nil _ (enclosed_ne_nil (d := d) hne)
  have hmem : b ∈ MarkedBlock.allOf (Dialect.ofText (text d doc)) (text d doc) := by
    rw [ofText_text hfits hne, allOf_text hfits]
    exact hb
  rw [all_eq_allOf hmem, ofText_text hfits hne, allOf_text hfits]

theorem notice_text (hfits : ∀ e ∈ doc, e.Fits d) (hne : names doc ≠ []) (fileId : Nat) :
    Notice.ofText fileId (text d doc) = [] := by
  rw [Notice.ofText, lines_text hfits hne, scan_lines hfits]
  rfl

/-- All readers of the text of a document find its blocks, and no marker is left open. -/
theorem WellFormed.readers_agree (h : WellFormed d doc) (hne : names doc ≠ []) :
    (∀ translation, Outline.ofText translation (text d doc) = ⟨true, blocksFrom d 1 doc⟩) ∧
    (∀ fileId, Notice.ofText fileId (text d doc) = []) ∧
    MarkedBlock.all (text d doc) = enclosed d doc ∧
    (∀ n body, Element.block n body ∈ doc →
      body? (text d doc) (d.blockName n) = some (Text.join newline body)) ∧
    (BlockFlow.ofText (text d doc)).map BlockFlow.name = (names doc).map d.blockName := by
  refine ⟨outline_text h.fits hne, notice_text h.fits hne, all_text h.fits hne, ?_, ?_⟩
  · intro n body hblock
    obtain ⟨xs, ys, rfl⟩ := List.append_of_mem hblock
    exact body?_text h.fits h.not_mem_sides.1
  · rw [flows_text h.fits hne, map_name_flows]

theorem WellFormed.readers_agree_shared_prefix :
    let doc : Document := [.block "TOP".toList [], .gap "TOP".toList,
      .block "TOP PART 2".toList ["EO TOP".toList, []], .gap []]
    (doc.WellFormed .banner ∧ doc.names ≠ []) ∧
    (∀ translation, Outline.ofText translation (doc.text .banner) = ⟨true,
      [⟨"TOP".toList, .delimited, 1, 2, true⟩, ⟨"TOP_PART_2".toList, .delimited, 4, 7, true⟩]⟩) ∧
    MarkedBlock.all (doc.text .banner) = [⟨"TOP".toList, "\n".toList⟩,
      ⟨"TOP_PART_2".toList, "\nEO TOP\n\n".toList⟩] := by
  intro doc
  have hwf : doc.WellFormed .banner := by decide +kernel
  have hne : doc.names ≠ [] := by decide
  obtain ⟨houtline, _, hmarked, _, _⟩ := hwf.readers_agree hne
  exact ⟨⟨hwf, hne⟩, houtline, hmarked⟩

end Document

end TemplateBlocks
