import TemplateBlocks.Proofs.Movability

/-!
# Balance of a conditional

While a structure is open no closing word is without effect, so the depth is the surplus of the
lines since the structure began (`Control.OpenSince.depthBehind_eq_surplus`). On the lines of a
conditional the surplus is therefore positive up to the last one, where it may fall below zero, and
the control structures replay exactly when it is zero there (`Control.Excursion.replays_iff`).
So whether a detected conditional can move depends on the last line and on the structural tags
(`conditional_surplus`).
-/

namespace TemplateBlocks

namespace Lines

variable {ls : List Text} {s e k : Nat}

/-! ### Growing ranges of lines -/

theorem slice_pred (ls : List Text) (s : Nat) : slice ls s (s - 1) = [] :=
  List.drop_eq_nil_of_le (List.length_take_le ..)

theorem slice_succ (hs : s - 1 ≤ k) (hk : k < ls.length) :
    slice ls s (k + 1) = slice ls s k ++ [ls[k]] := by
  have hlen : s - 1 ≤ (ls.take k).length := by
    rw [List.length_take]
    omega
  rw [slice, List.take_succ_eq_append_getElem hk, List.drop_append_of_le_length hlen, slice]

theorem take_slice (ls : List Text) (s e k : Nat) :
    (slice ls s e).take k = slice ls s (min (s - 1 + k) e) := by
  rw [slice, List.take_drop, List.take_take, slice]

end Lines

namespace Control

variable {ls : List Text} {s e j k : Nat}

/-! ### The surplus since a structure began -/

/-- While something is open, the depth is the surplus of the lines since the structure began. -/
theorem OpenSince.depthBehind_eq_surplus (h : OpenSince ls s k) (hk : k ≤ ls.length) :
    (depthBehind ls k : Int) = surplus (Lines.slice ls s k) := by
  have hupto : ∀ j, s - 1 ≤ j → j ≤ k →
      (depthBehind ls j : Int) = surplus (Lines.slice ls s j) := by
    intro j hsj
    induction j, hsj using Nat.le_induction with
    | base =>
      intro _
      rw [h.start, Lines.slice_pred]
      rfl
    | succ j hsj ih =>
      intro hjk
      have hlast := ih (Nat.le_of_lt hjk)
      have hlt : j < ls.length := Nat.lt_of_lt_of_le hjk hk
      -- The line leaves something open, so it closes no more than there is.
      have hpos := h.inside (j + 1) (by omega) hjk
      rw [depthBehind_succ hlt, depthAfter] at hpos ⊢
      rw [Lines.slice_succ hsj hlt, surplus_append, surplus_cons, surplus_nil]
      omega
  exact hupto k (Nat.le_trans (Nat.sub_le s 1) h.le) (Nat.le_refl k)

theorem Excursion.openSince (h : Excursion ls s e) (hs : s ≤ j) (hj : j < e) :
    OpenSince ls s j :=
  ⟨h.pos, hs, h.start, fun i hsi hij => h.inside i hsi (Nat.lt_of_le_of_lt hij hj)⟩

theorem Excursion.depthBehind_eq_surplus (h : Excursion ls s e) (hs : s ≤ j) (hj : j < e) :
    (depthBehind ls j : Int) = surplus (Lines.slice ls s j) :=
  (h.openSince hs hj).depthBehind_eq_surplus (Nat.le_of_lt (Nat.lt_of_lt_of_le hj h.le))

theorem Excursion.surplus_pos (h : Excursion ls s e) (hs : s ≤ j) (hj : j < e) :
    0 < surplus (Lines.slice ls s j) := by
  have hdepth := h.depthBehind_eq_surplus hs hj
  have hpos := h.inside j hs hj
  omega

/-- The last line closes all that is open, and it may hold closing words beyond that. -/
theorem Excursion.surplus_nonpos (h : Excursion ls s e) : surplus (Lines.slice ls s e) ≤ 0 := by
  have hpos : e ≠ 0 := Nat.ne_of_gt (Nat.zero_lt_of_lt h.lt)
  obtain ⟨k, rfl⟩ := Nat.exists_eq_succ_of_ne_zero hpos
  have hlt : k < ls.length := h.le
  have hs : s ≤ k := Nat.le_of_lt_succ h.lt
  have hdepth := h.depthBehind_eq_surplus hs (Nat.lt_succ_self k)
  have hstop := h.stop
  rw [depthBehind_succ hlt, depthAfter] at hstop
  rw [Lines.slice_succ (by omega) hlt, surplus_append, surplus_cons, surplus_nil]
  omega

/-- The control structures of a conditional fail to replay only through its last line. -/
theorem Excursion.replays_iff (h : Excursion ls s e) :
    Replays (Lines.slice ls s e) ↔ surplus (Lines.slice ls s e) = 0 := by
  refine ⟨fun hreplays => hreplays.zero, fun hzero => ⟨fun k => ?_, hzero⟩⟩
  rw [Lines.take_slice]
  by_cases hk : s - 1 + k < e
  · rw [Nat.min_eq_left (Nat.le_of_lt hk)]
    by_cases hfront : s ≤ s - 1 + k
    · exact Int.le_of_lt (h.surplus_pos hfront hk)
    · have hnone : s - 1 + k = s - 1 := by omega
      rw [hnone, Lines.slice_pred]
      exact Int.le_refl 0
  · have hall := Nat.min_eq_right (Nat.le_of_not_lt hk)
    exact Int.le_of_eq (by rw [hall, hzero])

end Control

/-! ### Conditionals in an outline -/

/-- An outline without markers lists one block with the range of a conditional. -/
theorem Outline.filter_blocks {translation : Label.Translation} {s : Text} {c : Block}
    (h : (ofText translation s).delimited = false) (hc : c ∈ Detect.conditionals s.lines) :
    (ofText translation s).blocks.filter (fun b => b.start = c.start ∧ b.stop = c.stop) =
      [settle translation s.lines (Detect.renamed (Detect.standalones s.lines) c)] := by
  rw [blocks_eq_map h, List.filter_map]
  exact congrArg (List.map _) (Detect.filter_blocks hc)

/-- A detected conditional fails the check of its control structures only by closing words beyond
those it needs on its last line. More structures are opened than closed on its lines up to any line
but the last, and not so up to the last one; its control structures are balanced exactly when as
many are closed as opened; and the one block that an outline lists with its range is movable exactly
when this is so and its structural tags are balanced. -/
theorem conditional_surplus (translation : Label.Translation) {s : Text} {c : Block}
    (hc : c ∈ Detect.conditionals s.lines) :
    (∀ j, c.start ≤ j → j < c.stop → 0 < Control.surplus (Lines.slice s.lines c.start j)) ∧
    Control.surplus (c.linesIn s.lines) ≤ 0 ∧
    (Control.balanced (c.linesIn s.lines) = true ↔ Control.surplus (c.linesIn s.lines) = 0) ∧
    ((Outline.ofText translation s).delimited = false → ∃ b,
      (Outline.ofText translation s).blocks.filter
        (fun b => b.start = c.start ∧ b.stop = c.stop) = [b] ∧
      (b.movable = true ↔ Control.surplus (c.linesIn s.lines) = 0 ∧
        Markup.balanced (c.linesIn s.lines) = true)) := by
  have hexc := Detect.conditionals_iff_excursion.1 ⟨c, hc, rfl, rfl⟩
  have hbalanced : Control.balanced (c.linesIn s.lines) = true ↔
      Control.surplus (c.linesIn s.lines) = 0 := Control.balanced_iff.trans hexc.replays_iff
  refine ⟨fun j hs hj => hexc.surplus_pos hs hj, hexc.surplus_nonpos, hbalanced, fun h => ?_⟩
  obtain ⟨hstart, hstop, -⟩ := Detect.range_renamed (Detect.standalones s.lines) c
  have hmem : Detect.renamed (Detect.standalones s.lines) c ∈ Detect.blocks s.lines :=
    Detect.mem_blocks_iff.2 (.inl ⟨c, hc, rfl⟩)
  have hlines : (Detect.renamed (Detect.standalones s.lines) c).linesIn s.lines =
      c.linesIn s.lines := by
    rw [Block.linesIn, hstart, hstop, Block.linesIn]
  refine ⟨_, Outline.filter_blocks h hc, ?_⟩
  rw [Outline.movable_settle translation hmem (by rw [hstart, hstop]; exact hexc.lt), hlines,
    selfContained, Bool.and_eq_true, hbalanced]

/-- Two conditionals, the first of which has a closing word too many on its last line. -/
def surplusCloser : Text := Text.join ['\n']
  ["<?php if ($a) : ?><?php foreach ($b as $c) : ?>".toList, "<div></div>".toList,
    "<?php endforeach; endif; endif; ?>".toList, "<?php while ($d) : ?>".toList,
    "<?php endwhile; ?>".toList]

def closedTwice : Block := ⟨"a".toList, .conditional, 1, 3, true⟩

def closedOnce : Block := ⟨"condition_L4".toList, .conditional, 4, 5, true⟩

/-- The closing word too many keeps the first conditional from moving, and the second one moves. -/
theorem conditional_surplus_closed_twice :
    closedTwice ∈ Detect.conditionals surplusCloser.lines ∧
    closedOnce ∈ Detect.conditionals surplusCloser.lines ∧
    Control.surplus (closedTwice.linesIn surplusCloser.lines) = -1 ∧
    Control.balanced (closedTwice.linesIn surplusCloser.lines) = false ∧
    (Outline.ofText Label.noTranslation surplusCloser).delimited = false ∧
    (∃ b ∈ (Outline.ofText Label.noTranslation surplusCloser).blocks,
      b.start = 1 ∧ b.stop = 3 ∧ b.movable = false) ∧
    ∃ b ∈ (Outline.ofText Label.noTranslation surplusCloser).blocks,
      b.start = 4 ∧ b.stop = 5 ∧ b.movable = true := by
  have htwice : closedTwice ∈ Detect.conditionals surplusCloser.lines := by decide +kernel
  have honce : closedOnce ∈ Detect.conditionals surplusCloser.lines := by decide +kernel
  have hsurplus : Control.surplus (closedTwice.linesIn surplusCloser.lines) = -1 := by
    decide +kernel
  have hscan : (Scan.ofLines surplusCloser.lines).blocks = [] := by decide +kernel
  have hdelimited : (Outline.ofText Label.noTranslation surplusCloser).delimited = false := by
    rw [Outline.ofText, Outline.ofLines, hscan]
  obtain ⟨-, -, hbalanced, htwice'⟩ := conditional_surplus Label.noTranslation htwice
  obtain ⟨-, -, -, honce'⟩ := conditional_surplus Label.noTranslation honce
  obtain ⟨b, hb, hmovable⟩ := htwice' hdelimited
  obtain ⟨b', hb', hmovable'⟩ := honce' hdelimited
  have hmem := List.mem_filter.1 (hb ▸ List.mem_singleton_self b)
  have hmem' := List.mem_filter.1 (hb' ▸ List.mem_singleton_self b')
  rw [hsurplus] at hbalanced hmovable
  have hrange := of_decide_eq_true hmem.2
  have hrange' := of_decide_eq_true hmem'.2
  refine ⟨htwice, honce, hsurplus, by simpa using hbalanced, hdelimited,
    ⟨b, hmem.1, hrange.1, hrange.2, by simpa using hmovable⟩,
    ⟨b', hmem'.1, hrange'.1, hrange'.2, hmovable'.2 (by decide +kernel)⟩⟩

end TemplateBlocks
