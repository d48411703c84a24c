import TemplateBlocks.Text.Match

/-!
# All matches of a matcher

The list of matches takes the leftmost match and goes on behind it. So a match that is listed is
read at some place (`Text.exists_read_of_mem_allMatches`), and a place at which the matcher succeeds
is listed or covered by a match that begins before it and is listed (`Text.mem_occurrences_or`).
-/

namespace TemplateBlocks

namespace Text

theorem read_of_find {α : Type} {m : Matcher α} (hm : m.LeavesSuffix) {s : Text} {f : Found α}
    (h : find m s = some f) : m (f.matched ++ f.rest) = some (f.value, f.rest) ∧
      f.matched ++ f.rest ≠ [] := by
  induction s generalizing f with
  | nil => simp [find] at h
  | cons c s ih =>
    unfold find at h
    cases hc : m (c :: s) with
    | some p =>
      obtain ⟨a, rest⟩ := p
      rw [hc] at h
      obtain ⟨matched, hs⟩ := hm _ _ _ hc
      simp only [Option.some.injEq] at h
      subst h
      rw [← hs, upTo_append]
      rw [← hs] at hc
      exact ⟨hc, by simp [hs]⟩
    | none =>
      rw [hc] at h
      obtain ⟨g, hg, rfl⟩ := Option.map_eq_some_iff.1 h
      exact ih (f := g) hg

/-- The search stops at a place where the matcher succeeds or before it. -/
theorem exists_find_of_read {α : Type} {m : Matcher α} {u v : Text} {r : α × Text} (hv : v ≠ [])
    (h : m v = some r) : ∃ f, find m (u ++ v) = some f ∧ f.before <+: u := by
  induction u with
  | nil =>
    obtain ⟨c, t, rfl⟩ := List.exists_cons_of_ne_nil hv
    rw [List.nil_append, find, h]
    exact ⟨_, rfl, List.nil_prefix⟩
  | cons c u ih =>
    rw [List.cons_append, find]
    cases m (c :: (u ++ v)) with
    | some p => exact ⟨_, rfl, List.nil_prefix⟩
    | none =>
      obtain ⟨f, hf, hbefore⟩ := ih
      rw [hf]
      exact ⟨_, rfl, List.cons_prefix_cons.2 ⟨rfl, hbefore⟩⟩

theorem occurrences_eq_nil {α : Type} {m : Matcher α} {s : Text} (h : find m s = none)
    (before : Option Char) : occurrences (fun _ => m) before s = [] := by
  induction s generalizing before with
  | nil => exact occurrences_nil _ _
  | cons c s ih =>
    have hfail := find_eq_none_iff.1 h
    have hs : find m s = none := find_eq_none_iff.2 fun t ht => hfail t (ht.trans (List.suffix_cons c s))
    rw [occurrences_of_none (hfail _ (List.suffix_refl _) (List.cons_ne_nil c s)), ih hs]

/-! ### Matches one by one -/

theorem occurrences_eq_allMatches {α : Type} (m : Matcher α) (before : Option Char) (s : Text) :
    occurrences (fun _ => m) before s = allMatches m s := by
  cases s with
  | nil => rw [allMatches, occurrences_nil, occurrences_nil]
  | cons c s => rw [allMatches, occurrences, occurrences]

theorem allMatches_cons_of_none {α : Type} {m : Matcher α} {c : Char} {s : Text}
    (h : m (c :: s) = none) : allMatches m (c :: s) = allMatches m s := by
  rw [allMatches, occurrences_of_none h, occurrences_eq_allMatches]

theorem allMatches_cons_of_some {α : Type} {m : Matcher α} {c : Char} {s rest : Text} {a : α}
    (h : m (c :: s) = some (a, rest)) (hlen : rest.length ≤ s.length) :
    allMatches m (c :: s) = a :: allMatches m rest := by
  rw [allMatches, occurrences_of_some h hlen, occurrences_eq_allMatches]

/-- Nothing is listed for a text in front in which the matcher does not succeed. -/
theorem allMatches_append_of_forall {α : Type} {m : Matcher α} {u v : Text}
    (h : ∀ t, t ≠ [] → t <:+ u → m (t ++ v) = none) : allMatches m (u ++ v) = allMatches m v := by
  induction u with
  | nil => rfl
  | cons c u ih =>
    have hc : m (c :: (u ++ v)) = none := h (c :: u) (List.cons_ne_nil c u) (List.suffix_refl _)
    have hu := ih fun t ht hsuf => h t ht (hsuf.trans (List.suffix_cons c u))
    rw [List.cons_append, allMatches_cons_of_none hc, hu]

theorem allMatches_of_read {α : Type} {m : Matcher α} {l v : Text} {a : α} (hl : l ≠ [])
    (h : m (l ++ v) = some (a, v)) : allMatches m (l ++ v) = a :: allMatches m v := by
  obtain ⟨c, t, rfl⟩ := List.exists_cons_of_ne_nil hl
  have hlen : v.length ≤ (t ++ v).length := by simp
  rw [List.cons_append] at h ⊢
  exact allMatches_cons_of_some h hlen

/-! ### Matches and places -/

/-- A match that is found is read at some place of the text. -/
theorem exists_read_of_mem_occurrences {α : Type} {m : Option Char → Matcher α}
    (hm : ∀ b, (m b).LeavesSuffix) {before : Option Char} {s : Text} {a : α}
    (h : a ∈ occurrences m before s) :
    ∃ u v b rest, s = u ++ v ∧ m b v = some (a, rest) := by
  match s with
  | [] =>
    rw [occurrences_nil] at h
    exact absurd h List.not_mem_nil
  | c :: s =>
    have hon : ∀ w t before', w ++ t = c :: s → t.length ≤ s.length →
        a ∈ occurrences m before' t → ∃ u v b rest, c :: s = u ++ v ∧ m b v = some (a, rest) := by
      intro w t before' hw hlen hmem
      obtain ⟨u, v, b, rest, rfl, hread⟩ := exists_read_of_mem_occurrences hm hmem
      exact ⟨w ++ u, v, b, rest, by rw [← hw, List.append_assoc], hread⟩
    rw [occurrences] at h
    cases hread : m before (c :: s) with
    | none =>
      rw [hread] at h
      exact hon [c] s _ rfl (Nat.le_refl _) h
    | some r =>
      obtain ⟨x, rest⟩ := r
      obtain ⟨w, hw⟩ := hm before _ _ _ hread
      simp only [hread] at h
      by_cases hlen : rest.length ≤ s.length
      · rw [if_pos hlen] at h
        rcases List.mem_cons.1 h with rfl | h
        · exact ⟨[], c :: s, before, rest, rfl, hread⟩
        · exact hon w rest _ hw hlen h
      · rw [if_neg hlen] at h
        rcases List.mem_cons.1 h with rfl | h
        · exact ⟨[], c :: s, before, rest, rfl, hread⟩
        · exact hon [c] s _ rfl (Nat.le_refl _) h
termination_by s.length

theorem exists_read_of_mem_allMatches {α : Type} {m : Matcher α} (hm : m.LeavesSuffix) {s : Text}
    {a : α} (h : a ∈ allMatches m s) : ∃ u v rest, s = u ++ v ∧ m v = some (a, rest) := by
  obtain ⟨u, v, _, rest, heq, hread⟩ := exists_read_of_mem_occurrences (fun _ => hm) h
  exact ⟨u, v, rest, heq, hread⟩

def Covered {α : Type} (m : Matcher α) (listed : List α) (u v : Text) : Prop :=
  ∃ pre w post b, u ++ v = pre ++ w ++ post ∧ m (w ++ post) = some (b, post) ∧ b ∈ listed ∧
    pre.length < u.length ∧ u.length < pre.length + w.length

theorem Covered.behind {α : Type} {m : Matcher α} {bs cs : List α} {t u v : Text}
    (h : Covered m bs u v) (hsub : ∀ b ∈ bs, b ∈ cs) : Covered m cs (t ++ u) v := by
  obtain ⟨pre, w, post, b, heq, hb, hmem, hlow, hhigh⟩ := h
  refine ⟨t ++ pre, w, post, b, by simp [heq], hb, hsub b hmem, ?_, ?_⟩
  · simpa using hlow
  · simp only [List.length_append]
    omega

/-- The match that covers a place is read from in front of it and ends behind it. -/
theorem Covered.exists_split {α : Type} {m : Matcher α} {bs : List α} {u v : Text}
    (h : Covered m bs u v) : ∃ x y post b, x ≠ [] ∧ y ≠ [] ∧ v = y ++ post ∧
      m (x ++ (y ++ post)) = some (b, post) := by
  obtain ⟨pre, w, post, b, heq, hread, _, hlow, hhigh⟩ := h
  rw [List.append_assoc] at heq
  obtain ⟨x, rfl⟩ : pre <+: u :=
    List.prefix_of_prefix_length_le ⟨_, heq.symm⟩ (List.prefix_append u v) (Nat.le_of_lt hlow)
  rw [List.append_assoc, List.append_cancel_left_eq] at heq
  simp only [List.length_append] at hlow hhigh
  obtain ⟨y, rfl⟩ : x <+: w :=
    List.prefix_of_prefix_length_le ⟨v, heq⟩ (List.prefix_append w post) (by omega)
  rw [List.append_assoc, List.append_cancel_left_eq] at heq
  rw [List.append_assoc] at hread
  rw [List.length_append] at hhigh
  have hx : x ≠ [] := List.ne_nil_of_length_pos (by omega)
  have hy : y ≠ [] := List.ne_nil_of_length_pos (by omega)
  exact ⟨x, y, post, b, hx, hy, heq, hread⟩

/-- A match somewhere in a text is listed, or it begins within a match that is listed. -/
theorem mem_occurrences_or {α : Type} {m : Matcher α} (hm : m.LeavesSuffix) {u v rest : Text} {a : α}
    (hv : v ≠ []) (h : m v = some (a, rest)) (before : Option Char) :
    a ∈ occurrences (fun _ => m) before (u ++ v) ∨
      Covered m (occurrences (fun _ => m) before (u ++ v)) u v := by
  match u with
  | [] =>
    obtain ⟨c, t, rfl⟩ := List.exists_cons_of_ne_nil hv
    rw [List.nil_append, occurrences, h]
    by_cases hlen : rest.length ≤ t.length
    · exact .inl (by simp [hlen])
    · exact .inl (by simp [hlen])
  | c :: u =>
    -- The search goes on at `t ++ v`, behind the text `p`, with the same or a longer list.
    have hon : ∀ p t before' bs, p ++ t = c :: u → t.length ≤ u.length →
        (∀ b ∈ occurrences (fun _ => m) before' (t ++ v), b ∈ bs) →
        a ∈ bs ∨ Covered m bs (c :: u) v := by
      intro p t before' bs hp hlen hsub
      rcases mem_occurrences_or hm hv h before' (u := t) with hmem | hcover
      · exact .inl (hsub a hmem)
      · exact .inr (hp ▸ hcover.behind hsub)
    cases hread : m (c :: (u ++ v)) with
    | none =>
      rw [List.cons_append, occurrences_of_none hread]
      exact hon [c] u _ _ rfl (Nat.le_refl _) fun b hb => hb
    | some r =>
      obtain ⟨b, post⟩ := r
      obtain ⟨w, hw⟩ := hm _ _ _ hread
      by_cases hlen : post.length ≤ (u ++ v).length
      · rw [List.cons_append, occurrences_of_some hread hlen]
        rw [← List.cons_append] at hw
        rcases List.append_eq_append_iff.1 hw with ⟨t, ht, rfl⟩ | ⟨t, rfl, ht⟩
        · have hshort : t.length ≤ u.length := by
            simp only [List.length_append] at hlen
            omega
          exact hon w t _ _ ht.symm hshort fun x hx => List.mem_cons_of_mem b hx
        · cases t with
          | nil =>
            obtain rfl : v = post := ht
            exact hon (c :: u ++ []) [] _ _ (by simp) (Nat.zero_le _) fun x hx =>
              List.mem_cons_of_mem b hx
          | cons x t =>
            refine .inr ⟨[], c :: u ++ x :: t, post, b, ?_, ?_, List.mem_cons_self .., ?_, ?_⟩
            · simp [ht]
            · rw [hw]
              exact hread
            · simp
            · simp only [List.length_nil, List.length_append, List.length_cons]
              omega
      · rw [List.cons_append, occurrences, hread]
        simp only [hlen, if_false]
        exact hon [c] u _ _ rfl (Nat.le_refl _) fun x hx => List.mem_cons_of_mem b hx
termination_by u.length

end Text

end TemplateBlocks
