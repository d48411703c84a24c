import Mathlib.Data.List.Infix
import TemplateBlocks.Lines
import TemplateBlocks.Text.Match

/-!
# Texts made of lines

A text is written as lines with a newline behind each, in front of each, or between
neighbours. `splitAt_join` reads the lines back, and `lineNumber` counts them.
-/

namespace TemplateBlocks.Text

/-! ### Newlines behind, before and between lines -/

def terminated (ls : List Text) : Text := ls.flatMap (· ++ ['\n'])

def introduced (ls : List Text) : Text := ls.flatMap ('\n' :: ·)

@[simp] theorem terminated_nil : terminated [] = [] := rfl

@[simp] theorem terminated_cons (l : Text) (ls : List Text) :
    terminated (l :: ls) = l ++ '\n' :: terminated ls := by
  simp [terminated]

@[simp] theorem terminated_append (ls ms : List Text) :
    terminated (ls ++ ms) = terminated ls ++ terminated ms := by
  simp [terminated]

@[simp] theorem introduced_nil : introduced [] = [] := rfl

@[simp] theorem introduced_cons (l : Text) (ls : List Text) :
    introduced (l :: ls) = '\n' :: (l ++ introduced ls) := by
  simp [introduced]

@[simp] theorem introduced_append (ls ms : List Text) :
    introduced (ls ++ ms) = introduced ls ++ introduced ms := by
  simp [introduced]

theorem join_cons (l : Text) (ls : List Text) : join ['\n'] (l :: ls) = l ++ introduced ls := by
  induction ls generalizing l with
  | nil => simp [join]
  | cons m ls ih =>
    have hjoin := join_cons_of_ne_nil ['\n'] l (List.cons_ne_nil m ls)
    rw [hjoin, ih m]
    simp

theorem introduced_eq_join {ls : List Text} (h : ls ≠ []) :
    introduced ls = '\n' :: join ['\n'] ls := by
  cases ls with
  | nil => exact absurd rfl h
  | cons l ls => rw [introduced_cons, join_cons]

/-- A newline on the other side of each line, and one more at the other end. -/
theorem introduced_append_newline (ls : List Text) :
    introduced ls ++ ['\n'] = '\n' :: terminated ls := by
  induction ls with
  | nil => rfl
  | cons l ls ih => simp [ih]

theorem terminated_eq_join {ls : List Text} (h : ls ≠ []) :
    terminated ls = join ['\n'] ls ++ ['\n'] := by
  have hboth := introduced_append_newline ls
  rw [introduced_eq_join h, List.cons_append] at hboth
  exact (List.cons.inj hboth).2.symm

theorem join_append_cons (ls : List Text) (l : Text) (ms : List Text) :
    join ['\n'] (ls ++ l :: ms) = terminated ls ++ l ++ introduced ms := by
  cases ls with
  | nil => simp [join_cons]
  | cons k ls =>
    rw [List.cons_append, join_cons, introduced_append, introduced_cons,
      terminated_eq_join (List.cons_ne_nil k ls), join_cons]
    simp

/-! ### Reading the lines back -/

theorem splitAt_of_not_mem {d : Char} {l : Text} (h : d ∉ l) : splitAt d l = [l] := by
  induction l with
  | nil => rfl
  | cons c l ih =>
    rw [List.mem_cons, not_or] at h
    have hc : c ≠ d := fun he => h.1 he.symm
    rw [splitAt, if_neg hc, ih h.2]

theorem splitAt_append_separator (d : Char) (s t : Text) :
    splitAt d (s ++ d :: t) = splitAt d s ++ splitAt d t := by
  induction s with
  | nil => simp [splitAt]
  | cons c s ih =>
    obtain ⟨piece, more, hs⟩ := List.exists_cons_of_ne_nil (splitAt_ne_nil d s)
    by_cases hc : c = d
    · simp [splitAt, hc, ih]
    · simp [splitAt, hc, ih, hs]

theorem splitAt_append_cons {d : Char} {l s : Text} (h : d ∉ l) :
    splitAt d (l ++ d :: s) = l :: splitAt d s := by
  rw [splitAt_append_separator, splitAt_of_not_mem h, List.singleton_append]

theorem splitAt_join {d : Char} {ls : List Text} (hne : ls ≠ []) (h : ∀ l ∈ ls, d ∉ l) :
    splitAt d (join [d] ls) = ls := by
  induction ls with
  | nil => exact absurd rfl hne
  | cons l ls ih =>
    have hl : d ∉ l := h l (List.mem_cons_self ..)
    cases ls with
    | nil => exact splitAt_of_not_mem hl
    | cons m ls =>
      have hls : ∀ x ∈ m :: ls, d ∉ x := fun x hx => h x (List.mem_cons_of_mem l hx)
      rw [join_cons_of_ne_nil [d] l (List.cons_ne_nil m ls), List.append_assoc,
        List.singleton_append, splitAt_append_cons hl, ih (List.cons_ne_nil m ls) hls]

theorem lines_join {ls : List Text} (hne : join ['\n'] ls ≠ []) (h : ∀ l ∈ ls, '\n' ∉ l) :
    (join ['\n'] ls).lines = ls := by
  have hls : ls ≠ [] := by
    intro heq
    subst heq
    exact hne rfl
  obtain ⟨c, s, hcs⟩ := List.exists_cons_of_ne_nil hne
  rw [hcs, lines, ← hcs]
  exact splitAt_join hls h

theorem lines_append_introduced {s : Text} (hs : s ≠ []) {ls : List Text}
    (h : ∀ l ∈ ls, '\n' ∉ l) : (s ++ introduced ls).lines = s.lines ++ ls := by
  obtain ⟨c, t, rfl⟩ := List.exists_cons_of_ne_nil hs
  cases ls with
  | nil => simp
  | cons l ls =>
    have hlines := splitAt_join (List.cons_ne_nil l ls) h
    rw [introduced_eq_join (List.cons_ne_nil l ls), List.cons_append, lines, ← List.cons_append,
      splitAt_append_separator, hlines]
    rfl

theorem not_mem_of_mem_splitAt {d : Char} {s l : Text} (h : l ∈ splitAt d s) : d ∉ l := by
  induction s generalizing l with
  | nil =>
    obtain rfl : l = [] := by simpa [splitAt] using h
    exact List.not_mem_nil
  | cons c s ih =>
    by_cases hc : c = d
    · rw [splitAt, if_pos hc, List.mem_cons] at h
      rcases h with rfl | h
      · exact List.not_mem_nil
      · exact ih h
    · obtain ⟨piece, more, hs⟩ := List.exists_cons_of_ne_nil (splitAt_ne_nil d s)
      rw [splitAt, if_neg hc, hs, List.mem_cons] at h
      rw [hs] at ih
      rcases h with rfl | h
      · rw [List.mem_cons, not_or]
        exact ⟨fun he => hc he.symm, ih (List.mem_cons_self ..)⟩
      · exact ih (List.mem_cons_of_mem piece h)

theorem infix_join_of_mem {ls : List Text} {l : Text} (h : l ∈ ls) : l <:+: join ['\n'] ls := by
  obtain ⟨as, bs, rfl⟩ := List.append_of_mem h
  exact ⟨terminated as, introduced bs, (join_append_cons as l bs).symm⟩

/-! ### Numbers of lines -/

/-- The number of the line on which a text goes on behind `before`. -/
def lineNumber (before : Text) : Nat := before.count '\n' + 1

theorem lineNumber_append_of_not_mem {u v : Text} (h : '\n' ∉ v) :
    lineNumber (u ++ v) = lineNumber u := by
  rw [lineNumber, List.count_append, List.count_eq_zero_of_not_mem h]
  rfl

theorem lineNumber_le_of_prefix {u v : Text} (h : u <+: v) : lineNumber u ≤ lineNumber v :=
  Nat.succ_le_succ (h.sublist.count_le '\n')

theorem lineNumber_terminated {ls : List Text} (h : ∀ l ∈ ls, '\n' ∉ l) :
    lineNumber (terminated ls) = ls.length + 1 := by
  induction ls with
  | nil => rfl
  | cons l ls ih =>
    have hl : l.count '\n' = 0 := List.count_eq_zero_of_not_mem (h l (List.mem_cons_self ..))
    have hls := ih fun x hx => h x (List.mem_cons_of_mem l hx)
    rw [lineNumber, Nat.add_right_cancel_iff] at hls ⊢
    rw [terminated_cons, List.count_append, List.count_cons_self, hl, hls, List.length_cons]
    omega

theorem newline_not_mem_of_mem_lines {s l : Text} (h : l ∈ s.lines) : '\n' ∉ l := by
  cases s with
  | nil => exact absurd h List.not_mem_nil
  | cons c s => exact not_mem_of_mem_splitAt h

end TemplateBlocks.Text
