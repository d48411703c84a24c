import TemplateBlocks.Proofs.Occurrences
import TemplateBlocks.Proofs.ScanOrder
import TemplateBlocks.Reorder
import TemplateBlocks.Rewrite

/-!
# Blocks that can be moved and blocks that are checked

Moving looks for the markers of one name anywhere in a text. The hazards come from the blocks
between markers that begin lines, and from stretches between markers anywhere only when there
are no such blocks. `moved_block_listed` says when the two agree on a block that can be moved.
-/

namespace TemplateBlocks

/-! ### Blocks that the hazards know -/

variable {s name : Text}

theorem any_of_named {d : Dialect} {n t rest : Text} {st : Stretch} (hn : Marker.IsText d n)
    (h : Stretch.named d n t = some (st, rest)) : Stretch.any d t = some (st, rest) ∧ st.name = n := by
  obtain ⟨⟨n', inner⟩, hopen, h⟩ := Option.bind_eq_some_iff.1 h
  obtain ⟨⟨u, inner'⟩, hopening, heq⟩ := Option.map_eq_some_iff.1 hopen
  obtain ⟨rfl, rfl⟩ := Prod.mk.inj heq
  obtain ⟨close, hclose, h⟩ := Option.bind_eq_some_iff.1 h
  have hany := Marker.anyOpening_of_opening hn hopening
  simp only [Option.pure_def, Option.some.injEq, Prod.mk.injEq] at h
  obtain ⟨rfl, rfl⟩ := h
  refine ⟨?_, rfl⟩
  simp only [Stretch.any, Stretch.reader, hany, Option.bind_eq_bind, Option.bind_some, hclose]
  rfl

theorem all_eq_allOf {b : MarkedBlock} (hb : b ∈ MarkedBlock.allOf (Dialect.ofText s) s) :
    MarkedBlock.all s = MarkedBlock.allOf (Dialect.ofText s) s := by
  unfold Dialect.ofText at hb ⊢
  split at hb
  · rename_i hoccurs
    rw [if_pos hoccurs, MarkedBlock.all]
    cases hall : MarkedBlock.allOf .directive s with
    | nil =>
      rw [hall] at hb
      exact absurd hb List.not_mem_nil
    | cons a as => rfl
  · rename_i hoccurs
    rw [if_neg hoccurs]
    have hnone : s.find (Marker.directive Marker.openWord) = none := by
      simpa [Text.occurs] using hoccurs
    have hany : s.find (Stretch.any .directive) = none := by
      refine Text.find_eq_none_iff.2 fun t ht hne => ?_
      have hfail := Text.find_eq_none_iff.1 hnone t ht hne
      simp [Stretch.any, Stretch.reader, Marker.anyOpening, hfail]
    have hnil : MarkedBlock.allOf .directive s = [] := by
      rw [MarkedBlock.allOf, Text.allMatches, Text.occurrences_eq_nil hany]
      rfl
    rw [MarkedBlock.all, hnil]

end TemplateBlocks
