import TemplateBlocks.Proofs.LineText
import TemplateBlocks.Marker

/-!
# Searching for comments line by line

Every marker is a comment, so a search for markers passes over a line without a comment, and
over a line that is one comment of another kind. The search of a text made of lines then comes
down to the first line at which the matcher succeeds.
-/

namespace TemplateBlocks

namespace Text

/-! ### Where a search stands still -/

theorem suffix_append_or {t u v : Text} (h : t <:+ u ++ v) :
    t <:+ v ∨ ∃ c t', t = c :: t' ∧ c ∈ u := by
  induction u with
  | nil => exact .inl h
  | cons a u ih =>
    rcases List.suffix_cons_iff.1 h with rfl | h
    · exact .inr ⟨a, u ++ v, rfl, List.mem_cons_self ..⟩
    · rcases ih h with h | ⟨c, t', ht, hc⟩
      · exact .inl h
      · exact .inr ⟨c, t', ht, List.mem_cons_of_mem a hc⟩

def Found.behind {α : Type} (u : Text) (f : Found α) : Found α := { f with before := u ++ f.before }

theorem find_append_of_forall {α : Type} {m : Matcher α} {u v : Text}
    (h : ∀ t, t ≠ [] → t <:+ u → m (t ++ v) = none) :
    find m (u ++ v) = (find m v).map (Found.behind u) := by
  induction u with
  | nil =>
    cases hv : find m v with
    | none => simp [hv]
    | some f => simp [hv, Found.behind]
  | cons c u ih =>
    have hc : m (c :: (u ++ v)) = none := h (c :: u) (List.cons_ne_nil c u) (List.suffix_refl _)
    have hu := ih fun t ht hsuf => h t ht (hsuf.trans (List.suffix_cons c u))
    rw [List.cons_append, find, hc, hu]
    cases find m v with
    | none => rfl
    | some f => rfl

theorem find_of_read {α : Type} {m : Matcher α} {l v : Text} {a : α} (hl : l ≠ [])
    (h : m (l ++ v) = some (a, v)) : find m (l ++ v) = some ⟨[], a, l, v⟩ := by
  obtain ⟨c, t, rfl⟩ := List.exists_cons_of_ne_nil hl
  rw [List.cons_append] at h ⊢
  rw [find, h]
  have hup : upTo (c :: (t ++ v)) v = c :: t := upTo_append (c :: t) v
  simp only [hup]

end Text

/-! ### Lines that a search passes -/

def BehindLine (v : Text) : Prop := v = [] ∨ ∃ w, v = '\n' :: w

theorem behindLine_nil : BehindLine [] := .inl rfl

theorem behindLine_cons (w : Text) : BehindLine ('\n' :: w) := .inr ⟨w, rfl⟩

theorem behindLine_introduced (ls : List Text) : BehindLine (Text.introduced ls) := by
  cases ls with
  | nil => exact behindLine_nil
  | cons l ls =>
    rw [Text.introduced_cons]
    exact behindLine_cons _

namespace Matcher

variable {α : Type} {m : Matcher α}

/-- The matcher reads nothing but texts that begin with a comment. -/
def ReadsComments (m : Matcher α) : Prop := ∀ s r, m s = some r → Marker.commentStart <+: s

/-- The matcher reads nothing that begins within the line. -/
def Passes (m : Matcher α) (l : Text) : Prop :=
  ∀ t v, t ≠ [] → t <:+ l → BehindLine v → m (t ++ v) = none

theorem prefix_of_prefix_append_cons {p t w : Text} {c : Char} (hc : c ∉ p)
    (h : p <+: t ++ c :: w) : p <+: t := by
  induction t generalizing p with
  | nil =>
    cases p with
    | nil => exact List.nil_prefix
    | cons a p =>
      obtain ⟨rfl, _⟩ := List.cons_prefix_cons.1 h
      exact absurd (List.mem_cons_self ..) hc
  | cons b t ih =>
    cases p with
    | nil => exact List.nil_prefix
    | cons a p =>
      obtain ⟨rfl, hp⟩ := List.cons_prefix_cons.1 h
      exact List.cons_prefix_cons.2 ⟨rfl, ih (fun hm => hc (List.mem_cons_of_mem a hm)) hp⟩

theorem prefix_of_behindLine {p t v : Text} (hp : '\n' ∉ p) (hv : BehindLine v)
    (h : p <+: t ++ v) : p <+: t := by
  rcases hv with rfl | ⟨w, rfl⟩
  · simpa using h
  · exact prefix_of_prefix_append_cons hp h

theorem commentStart_prefix_of_behindLine {t v : Text} (hv : BehindLine v)
    (h : Marker.commentStart <+: t ++ v) : Marker.commentStart <+: t :=
  prefix_of_behindLine (by decide) hv h

theorem ReadsComments.passes_of_plain (hm : m.ReadsComments) {l : Text}
    (hl : ¬ Marker.commentStart <:+: l) : m.Passes l := by
  intro t v _ hsuf hv
  refine Option.eq_none_iff_forall_ne_some.2 fun r hr => ?_
  have hpre := commentStart_prefix_of_behindLine hv (hm _ _ hr)
  exact hl (hpre.isInfix.trans hsuf.isInfix)

theorem ReadsComments.passes_of_comment (hm : m.ReadsComments) {tail : Text} (htail : '<' ∉ tail)
    (h : ∀ v, BehindLine v → m ('<' :: tail ++ v) = none) : m.Passes ('<' :: tail) := by
  intro t v hne hsuf hv
  rcases List.suffix_cons_iff.1 hsuf with rfl | hsuf
  · exact h v hv
  · refine Option.eq_none_iff_forall_ne_some.2 fun r hr => ?_
    have hpre := commentStart_prefix_of_behindLine hv (hm _ _ hr)
    have hmem : '<' ∈ t := hpre.subset (by decide)
    exact htail (hsuf.subset hmem)

theorem ReadsComments.newline_eq_none (hm : m.ReadsComments) (v : Text) : m ('\n' :: v) = none := by
  refine Option.eq_none_iff_forall_ne_some.2 fun r hr => ?_
  obtain ⟨w, hw⟩ := hm _ _ hr
  exact absurd (List.cons.inj hw).1 (by decide)

/-! ### Searching lines -/

theorem ReadsComments.find_line (hm : m.ReadsComments) {l v : Text} (hl : m.Passes l) :
    Text.find m (l ++ '\n' :: v) = (Text.find m v).map (Text.Found.behind (l ++ ['\n'])) := by
  have hline : Text.find m (l ++ '\n' :: v) =
      (Text.find m ('\n' :: v)).map (Text.Found.behind l) :=
    Text.find_append_of_forall fun t hne hsuf => hl t _ hne hsuf (behindLine_cons v)
  have hnewline : Text.find m ('\n' :: v) = (Text.find m v).map (Text.Found.behind ['\n']) := by
    rw [Text.find, hm.newline_eq_none]
    rfl
  rw [hline, hnewline, Option.map_map]
  congr 1
  funext f
  simp [Text.Found.behind]

/-- A search passes over lines in which it finds nothing. -/
theorem ReadsComments.find_terminated (hm : m.ReadsComments) {ls : List Text}
    (h : ∀ l ∈ ls, m.Passes l) (v : Text) :
    Text.find m (Text.terminated ls ++ v) =
      (Text.find m v).map (Text.Found.behind (Text.terminated ls)) := by
  induction ls with
  | nil =>
    cases hv : Text.find m v with
    | none => simp [hv]
    | some f => simp [hv, Text.Found.behind]
  | cons l ls ih =>
    have hl := h l (List.mem_cons_self ..)
    have hls := ih fun x hx => h x (List.mem_cons_of_mem l hx)
    rw [Text.terminated_cons, List.append_assoc, List.cons_append, hm.find_line hl, hls,
      Option.map_map]
    congr 1
    funext f
    simp [Text.Found.behind]

theorem ReadsComments.find_join_eq_none (hm : m.ReadsComments) {ls : List Text}
    (h : ∀ l ∈ ls, m.Passes l) : Text.find m (Text.join ['\n'] ls) = none := by
  rcases List.eq_nil_or_concat ls with rfl | ⟨init, last, rfl⟩
  · rfl
  · rw [List.concat_eq_append] at h ⊢
    have hlast : Text.find m (last ++ []) = (Text.find m []).map (Text.Found.behind last) :=
      Text.find_append_of_forall fun t hne hsuf =>
        h last (by simp) t _ hne hsuf behindLine_nil
    rw [Text.join_append_cons, Text.introduced_nil, List.append_assoc,
      hm.find_terminated fun l hl => h l (by simp [hl]), hlast]
    rfl

theorem ReadsComments.find_join (hm : m.ReadsComments) {ls ms : List Text} {l : Text} {a : α}
    (h : ∀ k ∈ ls, m.Passes k) (hl : l ≠ [])
    (hread : ∀ v, BehindLine v → m (l ++ v) = some (a, v)) :
    Text.find m (Text.join ['\n'] (ls ++ l :: ms)) =
      some ⟨Text.terminated ls, a, l, Text.introduced ms⟩ := by
  have hfind := Text.find_of_read hl (hread _ (behindLine_introduced ms))
  rw [Text.join_append_cons, List.append_assoc, hm.find_terminated h, hfind]
  simp [Text.Found.behind]

end Matcher

end TemplateBlocks
