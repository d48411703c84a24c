import TemplateBlocks.Text.Basic

/-!
# Blanks

A blank is a character with the Unicode property White_Space. Trimming removes
blanks at both ends of a text.
-/

namespace TemplateBlocks

/-- The code points of White_Space, as inclusive ranges in increasing order. -/
def blankRanges : List (Nat × Nat) :=
  [(0x09, 0x0D), (0x20, 0x20), (0x85, 0x85), (0xA0, 0xA0), (0x1680, 0x1680), (0x2000, 0x200A),
   (0x2028, 0x2029), (0x202F, 0x202F), (0x205F, 0x205F), (0x3000, 0x3000)]

def isBlank (c : Char) : Bool := blankRanges.any fun r => r.1 ≤ c.toNat && c.toNat ≤ r.2

theorem isBlank_iff (c : Char) :
    isBlank c = true ↔ ∃ r ∈ blankRanges, r.1 ≤ c.toNat ∧ c.toNat ≤ r.2 := by
  simp [isBlank]

namespace Text

def dropBlanks (s : Text) : Text := s.dropWhile isBlank

def dropBlanks1? : Text → Option Text
  | [] => none
  | c :: s => if isBlank c then some (dropBlanks s) else none

def trimEnd (s : Text) : Text := dropEndWhile isBlank s

def trim (s : Text) : Text := trimEnd (dropBlanks s)

theorem dropBlanks_suffix (s : Text) : dropBlanks s <:+ s := List.dropWhile_suffix isBlank

theorem dropBlanks1?_suffix {s rest : Text} (h : dropBlanks1? s = some rest) : rest <:+ s := by
  cases s with
  | nil => simp [dropBlanks1?] at h
  | cons c s =>
    by_cases hc : isBlank c = true
    · simp only [dropBlanks1?, hc, if_true, Option.some.injEq] at h
      subst h
      exact (dropBlanks_suffix s).trans (List.suffix_cons c s)
    · simp [dropBlanks1?, hc] at h

end Text

end TemplateBlocks
