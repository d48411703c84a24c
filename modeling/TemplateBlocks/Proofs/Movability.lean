import Mathlib.Data.Nat.Find
import TemplateBlocks.Outline
import TemplateBlocks.Proofs.ControlBalance
import TemplateBlocks.Proofs.DetectedBlocks
import TemplateBlocks.Proofs.TagNesting

/-!
# Movable blocks

A detected block of several lines is movable when its lines are self-contained: the control
structures replay and the structural tags are nested (`selfContained_iff`). A block of one line is
not looked at and is always movable (`movable_iff_selfContained`).

In a text with balanced control structures nothing is open before a detected block or behind it
(`Detect.depthBehind_of_mem_blocks`), so its own control structures replay, whether it has one line
or several. Of the tags on a single line nothing is known.
-/

namespace TemplateBlocks

namespace Control

variable {ls : List Text} {s e k m : Nat}

/-! ### Excursions around a line -/

/-- What is open behind a line and not behind a later one is closed on the way. -/
theorem OpenSince.exists_excursion (h : OpenSince ls s k) (hkm : k ≤ m) (hm : m ≤ ls.length)
    (hzero : depthBehind ls m = 0) : ∃ e, k < e ∧ Excursion ls s e := by
  have hexists : ∃ e, k ≤ e ∧ depthBehind ls e = 0 := ⟨m, hkm, hzero⟩
  have hle : Nat.find hexists ≤ m := Nat.find_min' hexists ⟨hkm, hzero⟩
  obtain ⟨hke, hstop⟩ := Nat.find_spec hexists
  have hlt : k < Nat.find hexists := by
    refine Nat.lt_of_le_of_ne hke fun heq => ?_
    have hpos := h.inside k h.le (Nat.le_refl k)
    rw [heq, hstop] at hpos
    exact Nat.lt_irrefl 0 hpos
  refine ⟨Nat.find hexists, hlt, h.pos, Nat.lt_of_le_of_lt h.le hlt, Nat.le_trans hle hm, h.start,
    fun j hs hj => ?_, hstop⟩
  by_cases hjk : j ≤ k
  · exact h.inside j hs hjk
  · exact Nat.pos_of_ne_zero fun hj0 => Nat.find_min hexists hj ⟨by omega, hj0⟩

theorem exists_excursion (hk : k ≤ ls.length) (hopen : depthBehind ls k ≠ 0)
    (hclosed : depthBehind ls ls.length = 0) : ∃ s e, s ≤ k ∧ k < e ∧ Excursion ls s e := by
  have hstack : Detect.stackBehind ls k ≠ [] := fun h => hopen (Detect.stackBehind_eq_nil_iff.1 h)
  obtain ⟨c, hc⟩ := Option.isSome_iff_exists.1 (List.getLast?_isSome.2 hstack)
  have hsince := Detect.opened_of_mem_getLast? hk hc
  obtain ⟨e, hke, he⟩ := hsince.exists_excursion hk (Nat.le_refl _) hclosed
  exact ⟨c.line, e, hsince.le, hke, he⟩

/-- Nothing is open on either side of a line outside every excursion of the depth. -/
theorem depthBehind_of_outside (hk : k < ls.length) (hclosed : depthBehind ls ls.length = 0)
    (hout : ∀ s e, Excursion ls s e → ¬ (s ≤ k + 1 ∧ k + 1 ≤ e)) :
    depthBehind ls k = 0 ∧ depthBehind ls (k + 1) = 0 := by
  constructor
  · by_contra hne
    obtain ⟨s, e, hs, he, hexc⟩ := exists_excursion (Nat.le_of_lt hk) hne hclosed
    exact hout s e hexc ⟨Nat.le_succ_of_le hs, he⟩
  · by_contra hne
    obtain ⟨s, e, hs, he, hexc⟩ := exists_excursion hk hne hclosed
    exact hout s e hexc ⟨hs, Nat.le_of_lt he⟩

/-! ### Balanced lines within balanced lines -/

theorem Replays.of_append {as ms bs : List Text} (h : Replays (as ++ ms ++ bs))
    (has : surplus as = 0) (hms : surplus ms = 0) : Replays ms := by
  refine ⟨fun j => ?_, hms⟩
  by_cases hj : j ≤ ms.length
  · have hnonneg := h.nonneg (as.length + j)
    rwa [List.append_assoc, List.take_length_add_append, List.take_append_of_le_length hj,
      surplus_append, has, Int.zero_add] at hnonneg
  · rw [List.take_of_length_le (Nat.le_of_not_le hj)]
    exact Int.le_of_eq hms.symm

theorem Replays.depthBehind_length (h : Replays ls) : depthBehind ls ls.length = 0 := by
  have hend := depthBehind_eq_surplus h (Nat.le_refl ls.length)
  rw [List.take_length, h.zero] at hend
  exact Int.ofNat_eq_zero.1 hend

/-- Lines of balanced lines are balanced when nothing is open before them or behind them. -/
theorem Replays.slice (h : Replays ls) (hse : s - 1 ≤ e) (he : e ≤ ls.length)
    (hstart : depthBehind ls (s - 1) = 0) (hstop : depthBehind ls e = 0) :
    Replays (Lines.slice ls s e) := by
  have hfront : ls.take e = ls.take (s - 1) ++ Lines.slice ls s e := by
    have hsplit := List.take_append_drop (s - 1) (ls.take e)
    rw [List.take_take, Nat.min_eq_left hse] at hsplit
    exact hsplit.symm
  have has : surplus (ls.take (s - 1)) = 0 := by
    rw [← depthBehind_eq_surplus h (Nat.le_trans hse he), hstart]
    rfl
  have hms : surplus (Lines.slice ls s e) = 0 := by
    have hboth := depthBehind_eq_surplus h he
    rw [hstop, hfront, surplus_append, has, Int.zero_add] at hboth
    exact hboth.symm
  have hwhole : Replays (ls.take (s - 1) ++ Lines.slice ls s e ++ ls.drop e) := by
    rwa [← hfront, List.take_append_drop]
  exact hwhole.of_append has hms

end Control

theorem selfContained_iff {ls : List Text} : selfContained ls = true ↔
    Control.Replays ls ∧ Markup.Nested (Markup.tags (Text.join ['\n'] ls)) := by
  rw [selfContained, Bool.and_eq_true, Control.balanced_iff, Markup.balanced_iff_nested]

namespace Detect

variable {ls : List Text} {b : Block}

/-- Whether a block can move is not decided while it is detected. -/
theorem movable_of_mem_blocks (h : b ∈ blocks ls) : b.movable = true := by
  rcases mem_blocks_iff.1 h with ⟨c, hc, rfl⟩ | ⟨hs, -⟩
  · obtain ⟨name, hname, -⟩ := exists_renamed (standalones ls) c
    obtain ⟨o, n, rfl⟩ := exists_open_of_mem_conditionals hc
    rw [hname]
    rfl
  · obtain ⟨k, hk, hs⟩ := exists_line_of_mem_standalones hs
    rw [standalone?] at hs
    split at hs
    · exact absurd hs (by simp)
    · obtain ⟨p, -, rfl⟩ := Option.map_eq_some_iff.1 hs
      rfl

/-- In a text with balanced control structures nothing is open around a detected block. -/
theorem depthBehind_of_mem_blocks (h : Control.Replays ls) (hb : b ∈ blocks ls) :
    Control.depthBehind ls (b.start - 1) = 0 ∧ Control.depthBehind ls b.stop = 0 := by
  rcases mem_blocks_iff.1 hb with ⟨c, hc, rfl⟩ | ⟨hs, hout⟩
  · have hexc := conditionals_iff_excursion.1 ⟨c, hc, rfl, rfl⟩
    obtain ⟨hstart, hstop, -⟩ := range_renamed (standalones ls) c
    rw [hstart, hstop]
    exact ⟨hexc.start, hexc.stop⟩
  · obtain ⟨hpos, hstop, hle⟩ := range_of_mem_standalones hs
    obtain ⟨k, hk⟩ := Nat.exists_eq_succ_of_ne_zero (Nat.ne_of_gt hpos)
    have hend : b.stop = k + 1 := hstop.trans hk
    rw [hend] at hle ⊢
    rw [hk]
    refine Control.depthBehind_of_outside hle h.depthBehind_length fun s e hexc hin => ?_
    obtain ⟨c, hc, rfl, rfl⟩ := conditionals_iff_excursion.2 hexc
    have houtside := hout c hc
    rw [Block.contains_iff, hk, hend] at houtside
    exact houtside hin

end Detect

/-- The blocks of an outline without markers are the detected ones, settled one by one. -/
theorem Outline.blocks_eq_map {translation : Label.Translation} {s : Text}
    (h : (ofText translation s).delimited = false) :
    (ofText translation s).blocks = (Detect.blocks s.lines).map (settle translation s.lines) := by
  rw [ofText, ofLines] at h ⊢
  split at h
  · rfl
  · exact absurd h.symm Bool.false_ne_true

theorem Outline.exists_detected {translation : Label.Translation} {s : Text} {b : Block}
    (h : (ofText translation s).delimited = false) (hb : b ∈ (ofText translation s).blocks) :
    ∃ d ∈ Detect.blocks s.lines, settle translation s.lines d = b := by
  rw [blocks_eq_map h] at hb
  exact List.mem_map.1 hb

/-- The lines of a block among all lines of its text. -/
def Block.linesIn (ls : List Text) (b : Block) : List Text := Lines.slice ls b.start b.stop

theorem Outline.movable_settle (translation : Label.Translation) {ls : List Text} {b : Block}
    (hb : b ∈ Detect.blocks ls) (hlt : b.start < b.stop) :
    (settle translation ls b).movable = selfContained (b.linesIn ls) := by
  have hmovable := Detect.movable_of_mem_blocks hb
  have hlines : b.isSingleLine = false := beq_eq_false_iff_ne.2 (Nat.ne_of_lt hlt)
  simp [settle, Block.linesIn, hmovable, hlines]

/-- A detected block of several lines is movable exactly when its own lines are self-contained, and
one of a single line is movable whatever is on it. Self-contained lines are those whose control
structures replay and whose structural tags are nested. When the control structures of the whole
text replay, those on the lines of every block do. -/
theorem movable_iff_selfContained {translation : Label.Translation} {s : Text}
    (h : (Outline.ofText translation s).delimited = false) {b : Block}
    (hb : b ∈ (Outline.ofText translation s).blocks) :
    b.start ≤ b.stop ∧
    (b.start < b.stop → (b.movable = true ↔ selfContained (b.linesIn s.lines) = true)) ∧
    (b.start = b.stop → b.movable = true) ∧
    (selfContained (b.linesIn s.lines) = true ↔ Control.Replays (b.linesIn s.lines) ∧
      Markup.Nested (Markup.tags (Text.join ['\n'] (b.linesIn s.lines)))) ∧
    (Control.Replays s.lines → Control.Replays (b.linesIn s.lines)) := by
  obtain ⟨d, hd, rfl⟩ := Outline.exists_detected h hb
  obtain ⟨-, hle, hlen⟩ := Detect.range_of_mem_blocks hd
  have hmovable := Detect.movable_of_mem_blocks hd
  refine ⟨hle, fun hlt => ?_, fun heq => ?_, selfContained_iff, fun hreplays => ?_⟩
  · exact Bool.eq_iff_iff.1 (Outline.movable_settle translation hd hlt)
  · have hline : d.isSingleLine = true := beq_iff_eq.2 heq
    simp [Outline.settle, hmovable, hline]
  · obtain ⟨hstart, hstop⟩ := Detect.depthBehind_of_mem_blocks hreplays hd
    exact hreplays.slice (Nat.le_trans (Nat.sub_le _ 1) hle) hlen hstart hstop

def noticeAndForm : Text := Text.join ['\n']
  ["<?php if ($notice) : ?>".toList, "<div>".toList, "<?php endif; ?>".toList,
    "<?php if ($form) : ?>".toList, "<ul><li></li></ul>".toList, "<?php endif; ?>".toList,
    "</div><?php echo $this->loadTemplate('form'); ?>".toList]

def notice : Block := ⟨"notice".toList, .conditional, 1, 3, false⟩

def form : Block := ⟨"form".toList, .conditional, 4, 6, true⟩

def formLine : Block := ⟨"Template: form".toList, .subTemplate, 7, 7, true⟩

/-- The first conditional opens a tag, and so it stays where it is. The line that closes the tag may
be moved. -/
theorem notice_and_form_movable :
    Outline.ofText Label.noTranslation noticeAndForm = ⟨false, [notice, form, formLine]⟩ ∧
    ¬ selfContained (notice.linesIn noticeAndForm.lines) = true ∧
    selfContained (form.linesIn noticeAndForm.lines) = true ∧
    formLine.movable = true ∧ Control.Replays (formLine.linesIn noticeAndForm.lines) := by
  have hscan : (Scan.ofLines noticeAndForm.lines).blocks = [] := by decide +kernel
  have hmerge : Detect.merge (Detect.conditionals noticeAndForm.lines)
      (Detect.standalones noticeAndForm.lines) =
        [{ notice with movable := true }, form, { formLine with name := "Sub: form".toList }] := by
    decide +kernel
  have hblocks : Detect.blocks noticeAndForm.lines = _ :=
    (congrArg Block.sort hmerge).trans (List.mergeSort_of_pairwise (by decide))
  have houtline : Outline.ofText Label.noTranslation noticeAndForm =
      ⟨false, [notice, form, formLine]⟩ := by
    rw [Outline.ofText, Outline.ofLines, hscan, hblocks]
    decide +kernel
  have hdelimited := congrArg Outline.delimited houtline
  have hmem : ∀ b ∈ [notice, form, formLine],
      b ∈ (Outline.ofText Label.noTranslation noticeAndForm).blocks := by simp [houtline]
  obtain ⟨-, hnotice, -⟩ := movable_iff_selfContained hdelimited (hmem notice (by decide))
  obtain ⟨-, hform, -⟩ := movable_iff_selfContained hdelimited (hmem form (by decide))
  obtain ⟨-, -, hline, -, hreplays⟩ :=
    movable_iff_selfContained hdelimited (hmem formLine (by decide))
  exact ⟨houtline, fun hself => absurd ((hnotice (by decide)).2 hself) (by decide),
    (hform (by decide)).1 rfl, hline rfl,
    hreplays (Control.balanced_iff.1 (by decide +kernel))⟩

def headerBeforeCall : Text := "<?php if ($a) : ?><?php echo $this->loadTemplate('x'); ?>".toList

/-- A line that opens a structure and loads a sub-template is movable, and the structure is not
closed on it. -/
theorem movable_line_not_selfContained :
    (Outline.ofText Label.noTranslation headerBeforeCall).delimited = false ∧
    ∃ b ∈ (Outline.ofText Label.noTranslation headerBeforeCall).blocks,
      b.movable = true ∧ selfContained (b.linesIn headerBeforeCall.lines) = false := by
  have houtline : Outline.ofText Label.noTranslation headerBeforeCall =
      ⟨false, [⟨"Template: x".toList, .subTemplate, 1, 1, true⟩]⟩ := by decide +kernel
  rw [houtline]
  exact ⟨rfl, _, List.mem_singleton_self _, rfl, by decide +kernel⟩

end TemplateBlocks
