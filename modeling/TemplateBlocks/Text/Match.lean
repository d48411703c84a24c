import TemplateBlocks.Text.Basic

/-!
# Finding patterns in text

A matcher reads a pattern at the start of a text and returns what it found together
with the text that follows. From a matcher this module makes

- `Text.find`: the leftmost place where it succeeds;
- `Text.occurrences`: all places, left to right, none overlapping an earlier one;
- `Text.shortest`, `Text.shortest0`: the shortest run of characters after which
  another reader succeeds.

`find_eq_append` says that a find splits the text, `find_eq_none_iff` when there is none, and
`shortest_eq_append` that a shortest run is the beginning of the text.
-/

namespace TemplateBlocks

/-- Reads a pattern at the start of a text: its value and the text behind it. -/
abbrev Matcher (α : Type) := Text → Option (α × Text)

/-- A matcher leaves an ending of the text it reads. -/
def Matcher.LeavesSuffix {α : Type} (m : Matcher α) : Prop :=
  ∀ s a rest, m s = some (a, rest) → rest <:+ s

namespace Text

/-- None of the characters of the text has the property. -/
def Free (p : Char → Bool) (w : Text) : Prop := ∀ c ∈ w, p c = false

instance (p : Char → Bool) (w : Text) : Decidable (Free p w) :=
  List.decidableBAll (fun c => p c = false) w

/-! ### The leftmost match -/

/-- A match inside a text: its value and the three pieces of the text, which are what comes
before it, the matched part, and what comes after it. -/
structure Found (α : Type) where
  before : Text
  value : α
  matched : Text
  rest : Text

def upTo (s rest : Text) : Text := s.take (s.length - rest.length)

theorem upTo_append (s rest : Text) : upTo (s ++ rest) rest = s := by
  simp [upTo]

def find {α : Type} (m : Matcher α) : Text → Option (Found α)
  | [] => none
  | c :: s =>
    match m (c :: s) with
    | some (a, rest) => some ⟨[], a, upTo (c :: s) rest, rest⟩
    | none => (find m s).map fun f => { f with before := c :: f.before }

def occurs {α : Type} (m : Matcher α) (s : Text) : Bool := (find m s).isSome

theorem find_eq_append {α : Type} {m : Matcher α} (hm : m.LeavesSuffix) {s : Text} {f : Found α}
    (h : find m s = some f) : s = f.before ++ f.matched ++ f.rest := by
  induction s generalizing f with
  | nil => simp [find] at h
  | cons c s ih =>
    unfold find at h
    cases hc : m (c :: s) with
    | some p =>
      obtain ⟨a, rest⟩ := p
      rw [hc] at h
      obtain ⟨matched, hs⟩ := hm _ _ _ hc
      simp only [Option.some.injEq] at h
      subst h
      rw [← hs, upTo_append]
      rfl
    | none =>
      rw [hc] at h
      obtain ⟨g, hg, rfl⟩ := Option.map_eq_some_iff.1 h
      have hs := ih hg
      simpa using hs

theorem find_eq_none_iff {α : Type} {m : Matcher α} {s : Text} :
    find m s = none ↔ ∀ t, t <:+ s → t ≠ [] → m t = none := by
  induction s with
  | nil =>
    refine ⟨fun _ t ht hne => absurd (List.suffix_nil.1 ht) hne, fun _ => rfl⟩
  | cons c s ih =>
    constructor
    · intro h t ht hne
      unfold find at h
      cases hc : m (c :: s) with
      | some p => simp [hc] at h
      | none =>
        rw [hc] at h
        rcases List.suffix_cons_iff.1 ht with rfl | ht
        · exact hc
        · exact ih.1 (Option.map_eq_none_iff.1 h) t ht hne
    · intro h
      have hc : m (c :: s) = none := h _ (List.suffix_refl _) (by simp)
      have hs : find m s = none := ih.2 fun t ht => h t (ht.trans (List.suffix_cons c s))
      simp [find, hc, hs]

/-! ### All matches -/

/-- All matches from left to right, each beginning where the one before it ended or later.

`m` is given the character before the place it reads at, which is absent at the start. -/
def occurrences {α : Type} (m : Option Char → Matcher α) (before : Option Char) : Text → List α
  | [] => []
  | c :: s =>
    match m before (c :: s) with
    | some (a, rest) =>
      if rest.length ≤ s.length then a :: occurrences m (upTo (c :: s) rest).getLast? rest
      else a :: occurrences m (some c) s
    | none => occurrences m (some c) s
termination_by s => s.length

@[simp] theorem occurrences_nil {α : Type} (m : Option Char → Matcher α) (before : Option Char) :
    occurrences m before [] = [] := by
  rw [occurrences]

theorem occurrences_of_none {α : Type} {m : Option Char → Matcher α} {before : Option Char}
    {c : Char} {s : Text} (h : m before (c :: s) = none) :
    occurrences m before (c :: s) = occurrences m (some c) s := by
  rw [occurrences, h]

theorem occurrences_of_some {α : Type} {m : Option Char → Matcher α} {before : Option Char}
    {c : Char} {s rest : Text} {a : α} (h : m before (c :: s) = some (a, rest))
    (hlen : rest.length ≤ s.length) :
    occurrences m before (c :: s) = a :: occurrences m (upTo (c :: s) rest).getLast? rest := by
  rw [occurrences, h]
  simp [hlen]

def allMatches {α : Type} (m : Matcher α) (s : Text) : List α := occurrences (fun _ => m) none s

/-! ### Shortest runs -/

/-- The shortest run of one or more characters of `p` after which `stop` succeeds. -/
def shortest {α : Type} (p : Char → Bool) (stop : Text → Option α) : Text → Option (Text × α)
  | [] => none
  | c :: s =>
    if p c then
      match stop s with
      | some a => some ([c], a)
      | none => (shortest p stop s).map fun r => (c :: r.1, r.2)
    else none

def shortest0 {α : Type} (p : Char → Bool) (stop : Text → Option α) (s : Text) :
    Option (Text × α) :=
  match stop s with
  | some a => some ([], a)
  | none => shortest p stop s

theorem shortest_eq_append {α : Type} {p : Char → Bool} {stop : Text → Option α} {s run : Text}
    {a : α} (h : shortest p stop s = some (run, a)) :
    run ≠ [] ∧ (∀ c ∈ run, p c = true) ∧ ∃ rest, s = run ++ rest ∧ stop rest = some a := by
  induction s generalizing run with
  | nil => simp [shortest] at h
  | cons c s ih =>
    unfold shortest at h
    split at h
    · rename_i hp
      split at h
      · rename_i b hstop
        simp only [Option.some.injEq, Prod.mk.injEq] at h
        obtain ⟨rfl, rfl⟩ := h
        exact ⟨by simp, by simpa using hp, s, rfl, hstop⟩
      · obtain ⟨r, hr, heq⟩ := Option.map_eq_some_iff.1 h
        simp only [Prod.mk.injEq] at heq
        obtain ⟨rfl, rfl⟩ := heq
        obtain ⟨_, hall, rest, hs, hstop⟩ := ih hr
        exact ⟨by simp, by simpa [hp] using hall, rest, by simp [hs], hstop⟩
    · simp at h

theorem shortest_leavesSuffix {p : Char → Bool} {stop : Text → Option Text}
    (hstop : ∀ s rest, stop s = some rest → rest <:+ s) : Matcher.LeavesSuffix (shortest p stop) := by
  intro s run rest h
  obtain ⟨_, _, t, rfl, ht⟩ := shortest_eq_append h
  exact (hstop _ _ ht).trans (List.suffix_append run t)

/-! ### Characters -/

def char? (p : Char → Bool) : Matcher Char
  | [] => none
  | c :: s => if p c then some (c, s) else none

theorem char?_leavesSuffix (p : Char → Bool) : Matcher.LeavesSuffix (char? p) := by
  intro s c rest h
  cases s with
  | nil => simp [char?] at h
  | cons a s =>
    by_cases ha : p a = true
    · simp only [char?, ha, if_true, Option.some.injEq, Prod.mk.injEq] at h
      obtain ⟨_, rfl⟩ := h
      exact List.suffix_cons a s
    · simp [char?, ha] at h

def run1? (p : Char → Bool) (s : Text) : Option (Text × Text) :=
  match s.takeWhile p with
  | [] => none
  | run => some (run, s.dropWhile p)

end Text

end TemplateBlocks
