import TemplateBlocks.Outline
import TemplateBlocks.Proofs.ControlBalance
import TemplateBlocks.Proofs.TagNesting
import TemplateBlocks.Proofs.TagReading

/-!
# Moving self-contained lines

Self-contained lines close what they open, and so they leave the structures and the tags that are
open where they stand as they were. Neither the control structures nor the structural tags of a text
tell whether such lines stand at one border between its lines or at another, or are missing
(`relocation_neutral`). For the tags, no tag may be split at the borders.
-/

namespace TemplateBlocks

namespace Markup

/-- Lines with nested tags make no difference where they stand, unless a tag is split at their
borders. -/
theorem balanced_insert {as ms : List Text} (h : balanced ms = true)
    (has : Closed (Text.join ['\n'] as)) (hms : Closed (Text.join ['\n'] ms)) (bs : List Text) :
    balanced (as ++ ms ++ bs) = balanced (as ++ bs) := by
  rw [List.append_assoc, balanced, balanced, tags_join_append has, tags_join_append has,
    tags_join_append hms]
  exact balancedFrom_congr
    (fun pending => (balanced_iff_nested.1 h).balancedFrom_append pending _) _ []

end Markup

/-- Self-contained lines are neutral where they stand: the verdicts on the control structures and on
the structural tags of a whole text stay as they are when the lines are put in, taken out, or moved
to another border between lines. The text before a border and the moved lines must split no tag for
the verdict on the tags. -/
theorem relocation_neutral {ms : List Text} (h : selfContained ms = true) (as bs : List Text) :
    Control.balanced (as ++ ms ++ bs) = Control.balanced (as ++ bs) ∧
    (Markup.Closed (Text.join ['\n'] as) → Markup.Closed (Text.join ['\n'] ms) →
      Markup.balanced (as ++ ms ++ bs) = Markup.balanced (as ++ bs)) ∧
    ∀ as' bs', as ++ bs = as' ++ bs' →
      Control.balanced (as' ++ ms ++ bs') = Control.balanced (as ++ ms ++ bs) ∧
      (Markup.Closed (Text.join ['\n'] as) → Markup.Closed (Text.join ['\n'] as') →
        Markup.Closed (Text.join ['\n'] ms) →
        Markup.balanced (as' ++ ms ++ bs') = Markup.balanced (as ++ ms ++ bs)) := by
  obtain ⟨hcontrols, htags⟩ := Bool.and_eq_true_iff.1 h
  refine ⟨Control.balanced_insert hcontrols as bs, fun has hms =>
    Markup.balanced_insert htags has hms bs, fun as' bs' hsame => ⟨?_, fun has has' hms => ?_⟩⟩
  · rw [Control.balanced_insert hcontrols, Control.balanced_insert hcontrols, hsame]
  · rw [Markup.balanced_insert htags has' hms, Markup.balanced_insert htags has hms, hsame]

def pageStart : List Text := ["<div class=\"page\">".toList, "<p>a < b, b > c</p>".toList]

def menu : List Text :=
  ["<?php if ($menu) : ?>".toList, "<ul><li>".toList, "</UL >".toList, "<?php endif; ?>".toList]

def pageEnd : List Text := ["</div>".toList]

/-- A menu in a page may as well stand behind it. -/
theorem menu_behind_page : selfContained menu = true ∧
    Control.balanced (pageStart ++ pageEnd ++ menu ++ []) =
      Control.balanced (pageStart ++ menu ++ pageEnd) ∧
    Markup.balanced (pageStart ++ pageEnd ++ menu ++ []) =
      Markup.balanced (pageStart ++ menu ++ pageEnd) := by
  have hmenu : selfContained menu = true := by decide +kernel
  obtain ⟨-, -, hmove⟩ := relocation_neutral hmenu pageStart pageEnd
  obtain ⟨hcontrols, htags⟩ := hmove (pageStart ++ pageEnd) [] (by simp)
  exact ⟨hmenu, hcontrols, htags (by decide +kernel) (by decide +kernel) (by decide +kernel)⟩

-- Within a tag, a list loses its own first tag.
example : selfContained ["<ul>".toList, "</ul>".toList] = true ∧
    Markup.balanced ["<div".toList, " ></div>".toList] = true ∧
    Markup.balanced ["<div".toList, "<ul>".toList, "</ul>".toList, " ></div>".toList] = false := by
  decide +kernel

end TemplateBlocks
