import TemplateBlocks.Proofs.DocumentRewrite
import TemplateBlocks.Proofs.Pairing

/-!
# Blocks that are reported and found again

A block is reported with a name that is made from the name on its markers, and rewriting makes the
name on the markers from the reported one. The way back leads to the same markers unless a banner
has an underscore in its name. `reported_blocks_reached` says which of the reported blocks can then
be read and moved: moving looks only for the markers of one dialect.
-/

namespace TemplateBlocks

/-! ### Names and markers -/

/-- The name that a block with these markers is reported with. -/
def MarkerKey.reported (key : MarkerKey) : Text := key.dialect.blockName key.name

/-- The reported name leads back to these markers. An underscore on a banner would be taken for a
space. -/
def MarkerKey.Recoverable (key : MarkerKey) : Prop := key.dialect = .banner → '_' ∉ key.name

theorem MarkerKey.markerName_reported {key : MarkerKey} (h : key.Recoverable) :
    key.dialect.markerName key.reported = key.name := by
  obtain ⟨d, n⟩ := key
  cases d with
  | directive => rfl
  | banner => exact Text.replaceChar_replaceChar (h rfl)

/-- The markers of a stretch. The name on a banner may have blanks behind it. -/
def Stretch.key (d : Dialect) (st : Stretch) : MarkerKey where
  dialect := d
  name := match d with
    | .directive => st.name
    | .banner => st.name.trim

theorem Stretch.reported_key (d : Dialect) (st : Stretch) :
    (st.key d).reported = (st.marked d).name := by
  cases d with
  | directive => rfl
  | banner => rfl

/-- The flows list a block with these markers. -/
def ListedUnder (s : Text) (key : MarkerKey) : Prop :=
  (∃ p ∈ s.markerPairs, p.key = key ∧ p.block ∈ Block.outermost (Scan.ofText s).blocks) ∨
    Block.outermost (Scan.ofText s).blocks = [] ∧ ∃ st ∈ s.allMatches (Stretch.any key.dialect),
      st.key key.dialect = key ∧ st.marked key.dialect ∈ MarkedBlock.all s

variable {s : Text} {key : MarkerKey}

/-! ### Markers of reported blocks -/

theorem mem_outline_iff {translation : Label.Translation}
    (h : (Outline.ofText translation s).delimited = true) {b : Block} :
    b ∈ (Outline.ofText translation s).blocks ↔ ∃ p ∈ s.markerPairs, p.block = b := by
  have hblocks : (Outline.ofText translation s).blocks = (Scan.ofText s).blocks := by
    unfold Outline.ofText Outline.ofLines at h ⊢
    rw [Scan.ofText]
    cases hscan : (Scan.ofLines s.lines).blocks with
    | nil => simp [hscan] at h
    | cons a as => rfl
  rw [hblocks, mem_scan_blocks]

theorem exists_bracketing_of_any {d : Dialect} {u v rest : Text} {st : Stretch}
    (h : Stretch.any d v = some (st, rest)) : Marker.Named d (st.key d).name ∧
      Nonempty (Bracketing d (st.key d).name (u ++ v)) := by
  obtain ⟨⟨n, inner⟩, hopen, h⟩ := Option.bind_eq_some_iff.1 h
  obtain ⟨close, hclose, h⟩ := Option.bind_eq_some_iff.1 h
  simp only [Option.pure_def, Option.some.injEq, Prod.mk.injEq] at h
  obtain ⟨rfl, _⟩ := h
  obtain ⟨hn, m, hm, rfl⟩ := Marker.anyOpening_spelling hopen
  obtain ⟨hm', rfl⟩ := spellsClosing_of_find hn hclose
  cases d with
  | directive => exact ⟨hn, ⟨u, m, close.before, close.matched, close.rest, rfl, hm, hm'⟩⟩
  | banner =>
    exact ⟨hn.trim, ⟨u, m, close.before, close.matched, close.rest, rfl, hm.trim, hm'.trim⟩⟩

theorem exists_bracketing_of_pair {p : MarkerPair} (h : p ∈ s.markerPairs) :
    Marker.Named p.key.dialect p.key.name ∧
      Nonempty (Bracketing p.key.dialect p.key.name s) := by
  obtain ⟨b, _, _⟩ := exists_bracketing_of_mem h
  exact ⟨named_of_event (events_of_mem_markerPairs h).1, ⟨b⟩⟩

theorem ListedUnder.exists_bracketing (h : ListedUnder s key) :
    Marker.Named key.dialect key.name ∧ Nonempty (Bracketing key.dialect key.name s) := by
  rcases h with ⟨p, hp, rfl, _⟩ | ⟨_, st, hst, hkey, _⟩
  · exact exists_bracketing_of_pair hp
  · have hsuffix := Stretch.any_leavesSuffix key.dialect
    obtain ⟨u, v, rest, rfl, hread⟩ := Text.exists_read_of_mem_allMatches hsuffix hst
    have hboth := exists_bracketing_of_any (u := u) hread
    rw [hkey] at hboth
    exact hboth

/-- Every block whose flow is listed has markers of some key. -/
theorem exists_listedUnder {b : BlockFlow} (h : b ∈ BlockFlow.ofText s) :
    ∃ key, ListedUnder s key ∧ key.reported = b.name := by
  simp only [BlockFlow.ofText, ← Scan.ofText.eq_1] at h
  cases houter : Block.outermost (Scan.ofText s).blocks with
  | cons a as =>
    rw [houter] at h
    obtain ⟨c, hc, rfl⟩ := List.mem_map.1 h
    rw [← houter] at hc
    obtain ⟨p, hp, rfl⟩ := mem_scan_blocks.1 ((Block.outermostAfter_sublist none _).subset hc)
    exact ⟨p.key, .inl ⟨p, hp, rfl, hc⟩, rfl⟩
  | nil =>
    rw [houter] at h
    obtain ⟨c, hc, rfl⟩ := List.mem_map.1 h
    have hall : ∃ d, c ∈ MarkedBlock.allOf d s := by
      rw [MarkedBlock.all] at hc
      split at hc
      · exact ⟨.banner, hc⟩
      · exact ⟨.directive, hc⟩
    obtain ⟨d, hmem⟩ := hall
    obtain ⟨st, hst, rfl⟩ := List.mem_map.1 hmem
    exact ⟨st.key d, .inr ⟨houter, st, hst, rfl, hc⟩, st.reported_key d⟩

/-! ### Searches for reported blocks -/

namespace Bracketing

variable {d : Dialect} {n : Text}

theorem exists_find? (b : Bracketing key.dialect key.name s)
    (hn : Marker.Named key.dialect key.name) (hname : key.Recoverable) :
    ∃ f, Stretch.find? key.dialect key.reported s = some f := by
  obtain ⟨f, hf, _⟩ := b.exists_find hn
  rw [Stretch.find?, MarkerKey.markerName_reported hname]
  exact ⟨f, hf⟩

theorem ofText_eq (b : Bracketing .directive n s) (hn : Marker.Named .directive n) :
    Dialect.ofText s = .directive := by
  obtain ⟨r, hr⟩ := Marker.exists_directive_of_named hn (b.read_opening hn)
  have hne := b.closing_append_ne_nil
  obtain ⟨f, hf, _⟩ := Text.exists_find_of_read (u := b.before) (by simp [hne]) hr
  rw [← b.eq_append] at hf
  rw [Dialect.ofText, Text.occurs, hf]
  rfl

end Bracketing

theorem exists_body_of_find? {d : Dialect} {name : Text} {f : Text.Found Stretch}
    (h : Stretch.find? d name s = some f) : ∃ body, body? s name = some body := by
  have hstretch : ∃ g, s.stretch? name = some g := by
    cases hfirst : Stretch.find? .directive name s with
    | some g => exact ⟨g, by rw [Text.stretch?, hfirst]⟩
    | none =>
      cases d with
      | directive =>
        rw [hfirst] at h
        exact absurd h (by simp)
      | banner => exact ⟨f, by rw [Text.stretch?, hfirst]; exact h⟩
  obtain ⟨g, hg⟩ := hstretch
  exact ⟨g.value.content, by rw [body?, hg]; rfl⟩

theorem exists_moved_of_find? {name : Text} {f : Text.Found Stretch}
    (h : Stretch.find? (Dialect.ofText s) name s = some f) :
    ∃ moved, moveBlock s name none = .ok moved := by
  rw [moveBlock]
  simp only [h, Option.filter_none]
  exact ⟨_, rfl⟩

/-! ### Reported blocks are found -/

/-- A delimited block of the outline can be read, and a block whose flow is listed can be moved,
when the reported name leads back to the markers. A banner can be moved only in a text without
opening directives, because these decide which markers the move looks for. -/
theorem reported_blocks_reached (s : Text) :
    (∀ translation, (Outline.ofText translation s).delimited = true →
      ∀ b, b ∈ (Outline.ofText translation s).blocks ↔ ∃ p ∈ s.markerPairs, p.block = b) ∧
    (∀ p ∈ s.markerPairs, p.key.Recoverable → ∃ body, body? s p.block.name = some body) ∧
    (∀ b ∈ BlockFlow.ofText s, ∃ key, ListedUnder s key ∧ key.reported = b.name) ∧
    ∀ key, ListedUnder s key → key.Recoverable →
      (key.dialect = .banner → s.occurs (Marker.directive Marker.openWord) = false) →
        ∃ moved, moveBlock s key.reported none = .ok moved := by
  refine ⟨fun translation h b => mem_outline_iff h, fun p hp hname => ?_,
    fun b hb => exists_listedUnder hb, fun key hlisted hname hbanner => ?_⟩
  · obtain ⟨hn, ⟨b⟩⟩ := exists_bracketing_of_pair hp
    obtain ⟨f, hf⟩ := b.exists_find? hn hname
    exact exists_body_of_find? hf
  · obtain ⟨hn, ⟨b⟩⟩ := hlisted.exists_bracketing
    obtain ⟨f, hf⟩ := b.exists_find? hn hname
    have hdialect : Dialect.ofText s = key.dialect := by
      obtain ⟨d, n⟩ := key
      cases d with
      | directive => exact b.ofText_eq hn
      | banner => rw [Dialect.ofText, hbanner rfl]; rfl
    rw [← hdialect] at hf
    exact exists_moved_of_find? hf

def spacedName : Text := Text.join newline
  ["<!-- TOP PART -->".toList, "x".toList, "<!-- EO TOP PART -->".toList]

theorem reported_blocks_reached_spaced :
    (Outline.ofText Label.noTranslation spacedName).delimited = true ∧
    (∃ b ∈ (Outline.ofText Label.noTranslation spacedName).blocks,
      b.name = "TOP_PART".toList ∧ ∃ body, body? spacedName b.name = some body) ∧
    ListedUnder spacedName ⟨.banner, "TOP PART".toList⟩ ∧
    spacedName.occurs (Marker.directive Marker.openWord) = false ∧
    ∃ moved, moveBlock spacedName "TOP_PART".toList none = .ok moved := by
  let p : MarkerPair := ⟨⟨.banner, "TOP PART".toList⟩, 1, 3⟩
  have hpairs : pairMarkers (MarkerEvent.ofLines spacedName.lines) [] = ([p], []) := by
    decide +kernel
  have hp : p ∈ spacedName.markerPairs := by
    rw [Text.markerPairs, hpairs]
    exact List.mem_cons_self ..
  have hscan : (Scan.ofText spacedName).blocks = [p.block] := by
    rw [scan_blocks_of_pairs hpairs]
    exact List.mergeSort_singleton _
  have hdelimited : (Outline.ofText Label.noTranslation spacedName).delimited = true := by
    simp only [Outline.ofText, Outline.ofLines, ← Scan.ofText.eq_1, hscan]
  have hlisted : ListedUnder spacedName p.key := by
    refine .inl ⟨p, hp, rfl, ?_⟩
    rw [hscan]
    exact List.mem_cons_self ..
  have hname : p.key.Recoverable := fun _ => by decide
  have hnone : spacedName.occurs (Marker.directive Marker.openWord) = false := by decide +kernel
  obtain ⟨hblocks, hread, _, hmoved⟩ := reported_blocks_reached spacedName
  have hblock := (hblocks Label.noTranslation hdelimited p.block).2 ⟨p, hp, rfl⟩
  exact ⟨hdelimited, ⟨p.block, hblock, rfl, hread p hp hname⟩, hlisted, hnone,
    hmoved p.key hlisted hname fun _ => hnone⟩

/-! ### Reported blocks that are not found -/

def underscoredBanner : Text := Text.join newline
  ["<!-- TOP_PART -->".toList, "x".toList, "<!-- EO TOP_PART -->".toList]

def mixedDialects : Text := Text.join newline
  ["<!-- TOP -->".toList, "<!-- EO TOP -->".toList, "<!-- @block:a -->".toList,
    "<!-- @endblock:a -->".toList]

/-- A banner with an underscore in its name is reported and cannot be read, and a banner beside a
directive is listed and cannot be moved. -/
theorem reported_blocks_missed :
    ((Outline.ofText Label.noTranslation underscoredBanner).delimited = true ∧
      ∃ b ∈ (Outline.ofText Label.noTranslation underscoredBanner).blocks,
        body? underscoredBanner b.name = none) ∧
    ∃ b ∈ BlockFlow.ofText mixedDialects,
      moveBlock mixedDialects b.name none = .error (.blockNotFound b.name) := by
  have hunderscored : (Scan.ofText underscoredBanner).blocks =
      [{ name := "TOP_PART".toList, kind := .delimited, start := 1, stop := 3 }] := by
    have hpairs : pairMarkers (MarkerEvent.ofLines underscoredBanner.lines) [] =
        ([⟨⟨.banner, "TOP_PART".toList⟩, 1, 3⟩], []) := by
      decide +kernel
    rw [scan_blocks_of_pairs hpairs]
    exact List.mergeSort_singleton _
  have hmixed : Block.outermost (Scan.ofText mixedDialects).blocks =
      [{ name := "TOP".toList, kind := .delimited, start := 1, stop := 2 },
        { name := "a".toList, kind := .delimited, start := 3, stop := 4 }] := by
    have hpairs : pairMarkers (MarkerEvent.ofLines mixedDialects.lines) [] =
        ([⟨⟨.banner, "TOP".toList⟩, 1, 2⟩, ⟨⟨.directive, "a".toList⟩, 3, 4⟩], []) := by
      decide +kernel
    have hsorted : List.Pairwise (fun a b => decide (Block.start a ≤ b.start) = true)
        [MarkerPair.block ⟨⟨.banner, "TOP".toList⟩, 1, 2⟩,
          MarkerPair.block ⟨⟨.directive, "a".toList⟩, 3, 4⟩] := by
      decide
    rw [scan_blocks_of_pairs hpairs, Block.sort, List.map_cons, List.map_singleton,
      List.mergeSort_of_pairwise hsorted]
    decide
  refine ⟨⟨?_, ?_⟩, ?_⟩
  · simp only [Outline.ofText, Outline.ofLines, ← Scan.ofText.eq_1, hunderscored]
  · simp only [Outline.ofText, Outline.ofLines, ← Scan.ofText.eq_1, hunderscored]
    exact ⟨_, List.mem_cons_self .., rfl⟩
  · simp only [BlockFlow.ofText, ← Scan.ofText.eq_1, hmixed]
    exact ⟨_, List.mem_cons_self .., rfl⟩

end TemplateBlocks
