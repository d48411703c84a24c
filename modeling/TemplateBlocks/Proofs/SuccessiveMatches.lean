import TemplateBlocks.Proofs.Occurrences

/-!
# Successive matches

All matches of a matcher cut the text into gaps and matches. No match begins in a gap, so the cut is
the only one, and there is one for every text (`Text.successive_iff`). What begins nowhere in a gap
and what is a match are given by predicates, which a matcher is described by.
-/

namespace TemplateBlocks

/-- `reads a w rest`: the text `w` is a match with value `a` in front of `rest`. `idle gap rest`: no
match begins in the text `gap` in front of `rest`. -/
structure Matcher.DescribedBy {α : Type} (m : Matcher α) (idle : Text → Text → Prop)
    (reads : α → Text → Text → Prop) : Prop where
  read_iff : ∀ s a rest, m s = some (a, rest) ↔ ∃ w, reads a w rest ∧ s = w ++ rest
  ne_nil : ∀ a w rest, reads a w rest → w ≠ []
  idle_iff : ∀ gap rest, idle gap rest ↔ ∀ t, t ≠ [] → t <:+ gap → m (t ++ rest) = none

namespace Text

/-- The values of the matches of a text from left to right, where each match begins behind the one
before it and no other one begins in between. -/
inductive Successive {α : Type} (idle : Text → Text → Prop) (reads : α → Text → Text → Prop) :
    Text → List α → Prop
  | last {gap : Text} : idle gap [] → Successive idle reads gap []
  | next {gap w rest : Text} {a : α} {as : List α} : idle gap (w ++ rest) → reads a w rest →
      Successive idle reads rest as → Successive idle reads (gap ++ (w ++ rest)) (a :: as)

variable {α : Type} {m : Matcher α} {idle : Text → Text → Prop} {reads : α → Text → Text → Prop}
  {gap rest s : Text} {as : List α} {a : α} {c : Char}

theorem idle_nil (hm : m.DescribedBy idle reads) (rest : Text) : idle [] rest :=
  (hm.idle_iff [] rest).2 fun _ hne ht => absurd (List.suffix_nil.1 ht) hne

theorem idle_cons (hm : m.DescribedBy idle reads) (hc : m (c :: (gap ++ rest)) = none)
    (hgap : idle gap rest) : idle (c :: gap) rest := by
  refine (hm.idle_iff (c :: gap) rest).2 fun t hne ht => ?_
  rcases List.suffix_cons_iff.1 ht with rfl | ht
  · exact hc
  · exact (hm.idle_iff gap rest).1 hgap t hne ht

theorem Successive.cons (hm : m.DescribedBy idle reads) (hc : m (c :: s) = none)
    (h : Successive idle reads s as) : Successive idle reads (c :: s) as := by
  cases h with
  | last hgap => exact .last (idle_cons hm (by simpa using hc) hgap)
  | next hgap hread hmore => exact .next (idle_cons hm hc hgap) hread hmore

theorem Successive.allMatches_eq (hm : m.DescribedBy idle reads)
    (h : Successive idle reads s as) : s.allMatches m = as := by
  induction h with
  | @last gap hgap =>
    have hnone := allMatches_append_of_forall ((hm.idle_iff gap []).1 hgap)
    rwa [List.append_nil, allMatches, allMatches, occurrences_nil] at hnone
  | @next gap w rest a as hgap hread _ ih =>
    have hw : m (w ++ rest) = some (a, rest) := (hm.read_iff _ _ _).2 ⟨w, hread, rfl⟩
    rw [allMatches_append_of_forall ((hm.idle_iff gap _).1 hgap),
      allMatches_of_read (hm.ne_nil _ _ _ hread) hw, ih]

theorem successive_allMatches (hm : m.DescribedBy idle reads) (s : Text) :
    Successive idle reads s (s.allMatches m) := by
  match s with
  | [] =>
    rw [allMatches, occurrences_nil]
    exact .last (idle_nil hm [])
  | c :: s =>
    cases hc : m (c :: s) with
    | none =>
      rw [allMatches_cons_of_none hc]
      exact (successive_allMatches hm s).cons hm hc
    | some r =>
      obtain ⟨a, rest⟩ := r
      obtain ⟨w, hread, hw⟩ := (hm.read_iff _ _ _).1 hc
      have hne := hm.ne_nil _ _ _ hread
      have hlen : rest.length < (c :: s).length := by
        have hpos := List.length_pos_iff.2 hne
        rw [hw, List.length_append]
        omega
      rw [hw] at hc ⊢
      rw [allMatches_of_read hne hc]
      exact .next (idle_nil hm (w ++ rest)) hread (successive_allMatches hm rest)
termination_by s.length
decreasing_by
  · exact Nat.lt_succ_self s.length
  · exact hlen

/-- The list of all matches is the one list of successive matches. -/
theorem successive_iff (hm : m.DescribedBy idle reads) :
    Successive idle reads s as ↔ as = s.allMatches m :=
  ⟨fun h => (h.allMatches_eq hm).symm, fun h => h ▸ successive_allMatches hm s⟩

end Text

end TemplateBlocks
