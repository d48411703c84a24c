import TemplateBlocks.Proofs.CommentSearch
import TemplateBlocks.Proofs.MarkerSpelling

/-!
# Matches in a larger text

A search for all matches takes the leftmost one and goes on behind it, so more text in front or
behind can hide a match. It hides none when the matcher is steady (`Steady`) and the piece stands on
lines of its own and begins with a comment: a match that begins in front of the comment ends in
front of it, and a match that the end of the piece cut off gives no fewer names when it is read on.
The names found in the piece are then found in the larger text (`Steady.found_subset`).
-/

namespace TemplateBlocks

/-! ### In front of a comment -/

namespace Text

/-- The text ends in `k` and has a blank in front of it. -/
def Apart (k s : Text) : Prop := ∃ v z, s = v ++ z :: k ∧ isBlank z = true

/-- A reader that has `s` to read has not entered `k`. -/
def Reaches (k s : Text) : Prop := s = k ∨ Apart k s

variable {k s rest : Text}

theorem Apart.reaches (h : Apart k s) : Reaches k s := .inr h

theorem Apart.tail {c : Char} (h : Apart k (c :: s)) : Reaches k s := by
  obtain ⟨v, z, heq, hz⟩ := h
  cases v with
  | nil => exact .inl (List.cons.inj heq).2
  | cons a v => exact .inr ⟨v, z, (List.cons.inj heq).2, hz⟩

theorem Reaches.dropWhile {p : Char → Bool} {c : Char} (hp : p c = false)
    (h : Reaches (c :: k) s) : Reaches (c :: k) (s.dropWhile p) := by
  induction s with
  | nil => exact h
  | cons a s ih =>
    by_cases ha : p a = true
    · rw [List.dropWhile_cons_of_pos ha]
      rcases h with heq | h
      · rw [(List.cons.inj heq).1, hp] at ha
        exact absurd ha Bool.false_ne_true
      · exact ih h.tail
    · rw [List.dropWhile_cons_of_neg ha]
      exact h

theorem Reaches.char? {p : Char → Bool} {a c : Char} (hp : p c = false) (h : Reaches (c :: k) s)
    (hread : Text.char? p s = some (a, rest)) : Reaches (c :: k) rest := by
  cases s with
  | nil => simp [Text.char?] at hread
  | cons b s =>
    by_cases hb : p b = true
    · simp only [Text.char?, hb, if_true, Option.some.injEq, Prod.mk.injEq] at hread
      obtain ⟨_, rfl⟩ := hread
      rcases h with heq | h
      · rw [(List.cons.inj heq).1, hp] at hb
        exact absurd hb Bool.false_ne_true
      · exact h.tail
    · simp [Text.char?, hb] at hread

theorem Apart.char? {p : Char → Bool} {a : Char} (h : Apart k s)
    (hread : Text.char? p s = some (a, rest)) : Reaches k rest := by
  cases s with
  | nil => simp [Text.char?] at hread
  | cons b s =>
    by_cases hb : p b = true
    · simp only [Text.char?, hb, if_true, Option.some.injEq, Prod.mk.injEq] at hread
      obtain ⟨_, rfl⟩ := hread
      exact h.tail
    · simp [Text.char?, hb] at hread

theorem Apart.after? {lit : Text} (hlit : Free isBlank lit) (h : Apart k s)
    (hread : s.after? lit = some rest) : Apart k rest := by
  obtain ⟨v, z, heq, hz⟩ := h
  rw [eq_append_of_after? hread] at heq
  rcases List.append_eq_append_iff.1 heq with ⟨t, _, hrest⟩ | ⟨t, hv, hcut⟩
  · exact ⟨t, z, hrest, hz⟩
  · cases t with
    | nil => exact ⟨[], z, hcut.symm, hz⟩
    | cons a t =>
      obtain ⟨rfl, _⟩ := List.cons.inj hcut
      have hblank := hlit z (by rw [hv]; simp)
      rw [hz] at hblank
      exact absurd hblank Bool.noConfusion

theorem Reaches.after? {lit : Text} (hlit : Free isBlank lit) (hk : ¬ lit <+: k)
    (h : Reaches k s) (hread : s.after? lit = some rest) : Apart k rest := by
  rcases h with rfl | h
  · exact absurd ⟨rest, (eq_append_of_after? hread).symm⟩ hk
  · exact h.after? hlit hread

end Text

/-! ### Steady matchers -/

/-- The names that the matches in a text give. -/
def Text.found {α : Type} (m : Option Char → Matcher α) (names : α → List Text)
    (before : Option Char) (s : Text) : List Text := (s.occurrences m before).flatMap names

/-- The readings of a matcher in a text do not depend on what stands around it, as far as the names
are concerned that they give. -/
structure Steady {α : Type} (m : Option Char → Matcher α) (names : α → List Text) : Prop where
  /-- A match begins neither with a blank nor with a comment. -/
  start : ∀ before c s, isBlank c = true ∨ c = '<' → m before (c :: s) = none
  /-- A match that begins in front of a comment ends in front of it. -/
  front : ∀ before k s a rest, Text.Apart ('<' :: '!' :: k) s → m before s = some (a, rest) →
    Text.Reaches ('<' :: '!' :: k) rest
  /-- A match within a text is read in the same way when a line follows, or all the names of the
  text are found as before. -/
  back : ∀ before s w,
    m before (s ++ '\n' :: w) = (m before s).map (fun r => (r.1, r.2 ++ '\n' :: w)) ∨
      s.found m names before ⊆ Text.found m names before (s ++ '\n' :: w)

namespace Text

variable {α : Type} {m : Option Char → Matcher α} {names : α → List Text} {before : Option Char}
  {c : Char} {s rest : Text} {a : α}

@[simp] theorem found_nil : found m names before [] = [] := by
  simp [found]

theorem found_of_none (h : m before (c :: s) = none) :
    found m names before (c :: s) = found m names (some c) s := by
  rw [found, occurrences_of_none h, found]

theorem occurrences_of_no_advance (h : m before (c :: s) = some (a, rest))
    (hlen : ¬ rest.length ≤ s.length) :
    occurrences m before (c :: s) = a :: occurrences m (some c) s := by
  rw [occurrences, h]
  simp [hlen]

theorem found_of_some (h : m before (c :: s) = some (a, rest)) (hlen : rest.length ≤ s.length) :
    found m names before (c :: s) =
      names a ++ found m names (upTo (c :: s) rest).getLast? rest := by
  rw [found, occurrences_of_some h hlen, List.flatMap_cons, found]

theorem found_of_no_advance (h : m before (c :: s) = some (a, rest))
    (hlen : ¬ rest.length ≤ s.length) :
    found m names before (c :: s) = names a ++ found m names (some c) s := by
  rw [found, occurrences_of_no_advance h hlen, List.flatMap_cons, found]

theorem names_subset_found (h : m before (c :: s) = some (a, rest)) :
    names a ⊆ found m names before (c :: s) := by
  by_cases hlen : rest.length ≤ s.length
  · rw [found_of_some h hlen]
    exact List.subset_append_left _ _
  · rw [found_of_no_advance h hlen]
    exact List.subset_append_left _ _

theorem found_eq_nil_of_forall (h : ∀ t, t ≠ [] → t <:+ s → ∀ b, m b t = none) :
    found m names before s = [] := by
  induction s generalizing before with
  | nil => exact found_nil
  | cons c s ih =>
    rw [found_of_none (h _ (List.cons_ne_nil c s) (List.suffix_refl _) before)]
    exact ih fun t ht hsuf => h t ht (hsuf.trans (List.suffix_cons c s))

theorem found_eq_nil_of_tail (h : m before s = none)
    (ht : ∀ t, t ≠ [] → t <:+ s.tail → ∀ b, m b t = none) : found m names before s = [] := by
  cases s with
  | nil => exact found_nil
  | cons c s =>
    rw [found_of_none h]
    exact found_eq_nil_of_forall ht

end Text

namespace Steady

variable {α : Type} {m : Option Char → Matcher α} {names : α → List Text}

open Text

theorem found_blanks (hm : Steady m names) {v : Text} (hv : Blanks v) (before : Option Char)
    (r : Text) : found m names before (v ++ '<' :: r) = found m names (some '<') r := by
  induction v generalizing before with
  | nil => exact found_of_none (hm.start before '<' r (.inr rfl))
  | cons c v ih =>
    obtain ⟨hc, hv⟩ := List.forall_mem_cons.1 hv
    rw [List.cons_append, found_of_none (hm.start before c _ (.inl hc)), ih hv]

/-- The search comes to the comment whatever stands in front of it. -/
theorem found_front (hm : Steady m names) {k : Text} (before : Option Char) (s : Text)
    (hs : Reaches ('<' :: '!' :: k) s) :
    found m names (some '<') ('!' :: k) ⊆ found m names before s := by
  match s with
  | [] => exact absurd hs (by rintro (h | ⟨v, z, h, _⟩) <;> simp at h)
  | c :: s =>
    rcases hs with heq | hs
    · obtain ⟨rfl, rfl⟩ := List.cons.inj heq
      rw [found_of_none (hm.start before '<' _ (.inr rfl))]
      exact List.Subset.refl _
    cases hread : m before (c :: s) with
    | none =>
      rw [found_of_none hread]
      exact found_front hm _ s hs.tail
    | some r =>
      obtain ⟨a, rest⟩ := r
      by_cases hlen : rest.length ≤ s.length
      · rw [found_of_some hread hlen]
        exact List.subset_append_of_subset_right _
          (found_front hm _ rest (hm.front _ _ _ _ _ hs hread))
      · rw [found_of_no_advance hread hlen]
        exact List.subset_append_of_subset_right _ (found_front hm _ s hs.tail)
termination_by s.length
decreasing_by all_goals simp only [List.length_cons]; omega

theorem upTo_append_append (s rest v : Text) : upTo (s ++ v) (rest ++ v) = upTo s rest := by
  rw [upTo, upTo, List.length_append, List.length_append, Nat.add_sub_add_right,
    List.take_append_of_le_length (Nat.sub_le _ _)]

/-- The search finds on a piece of a text no more than on the text. -/
theorem found_back (hm : Steady m names) (before : Option Char) (s w : Text) :
    found m names before s ⊆ found m names before (s ++ '\n' :: w) := by
  match s with
  | [] => simp
  | c :: s =>
    rcases hm.back before (c :: s) w with hagree | hsub
    swap
    · exact hsub
    cases hread : m before (c :: s) with
    | none =>
      rw [hread, List.cons_append] at hagree
      rw [List.cons_append, found_of_none hread, found_of_none hagree]
      exact found_back hm (some c) s w
    | some r =>
      obtain ⟨a, rest⟩ := r
      rw [hread] at hagree
      by_cases hlen : rest.length ≤ s.length
      · have hlen' : (rest ++ '\n' :: w).length ≤ (s ++ '\n' :: w).length := by
          simpa using hlen
        have hup := upTo_append_append (c :: s) rest ('\n' :: w)
        rw [List.cons_append] at hup hagree ⊢
        rw [found_of_some hread hlen, found_of_some hagree hlen', hup]
        exact List.append_subset.2 ⟨List.subset_append_left _ _,
          List.subset_append_of_subset_right _ (found_back hm _ rest w)⟩
      · have hlen' : ¬ (rest ++ '\n' :: w).length ≤ (s ++ '\n' :: w).length := by
          simpa using hlen
        rw [List.cons_append] at hagree ⊢
        rw [found_of_no_advance hread hlen, found_of_no_advance hagree hlen']
        exact List.append_subset.2 ⟨List.subset_append_left _ _,
          List.subset_append_of_subset_right _ (found_back hm (some c) s w)⟩
termination_by s.length
decreasing_by all_goals simp only [List.length_cons]; omega

theorem reaches_comment (as : List Text) {v : Text} (hv : Blanks v) (k : Text) :
    Reaches k (terminated as ++ (v ++ k)) := by
  rcases List.eq_nil_or_concat v with rfl | ⟨v, z, rfl⟩
  · rcases List.eq_nil_or_concat as with rfl | ⟨as, l, rfl⟩
    · exact .inl rfl
    · exact .inr ⟨terminated as ++ l, '\n', by simp, by decide⟩
  · exact .inr ⟨terminated as ++ v, z, by simp, hv z (by simp)⟩

/-- What is found on lines that begin with a comment is found when other lines stand before them
and behind them. -/
theorem found_subset (hm : Steady m names) (as bs : List Text) {v : Text} (hv : Blanks v)
    (r : Text) : found m names none (v ++ (Marker.commentStart ++ r)) ⊆
      found m names none (terminated as ++ (v ++ (Marker.commentStart ++ r)) ++ introduced bs) := by
  -- The lines behind come first, so that the rest of the search is the same on both sides.
  have hback : found m names none (v ++ (Marker.commentStart ++ r)) ⊆
      found m names none (v ++ (Marker.commentStart ++ (r ++ introduced bs))) := by
    cases bs with
    | nil => simp
    | cons b bs =>
      have hsub := hm.found_back none (v ++ (Marker.commentStart ++ r)) (b ++ introduced bs)
      simpa using hsub
  have hpiece := hm.found_blanks hv none ("!--".toList ++ (r ++ introduced bs))
  have hreach := reaches_comment as hv (Marker.commentStart ++ (r ++ introduced bs))
  have hfront := hm.found_front (k := "--".toList ++ (r ++ introduced bs)) none _ hreach
  refine List.Subset.trans hback ?_
  rw [show Marker.commentStart ++ (r ++ introduced bs) =
    '<' :: ("!--".toList ++ (r ++ introduced bs)) from rfl, hpiece]
  simpa using hfront

end Steady

end TemplateBlocks
