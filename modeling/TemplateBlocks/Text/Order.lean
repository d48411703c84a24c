import TemplateBlocks.Text.Basic

/-!
# Dictionary order

Lists are ordered by their first difference, and a list comes before its extensions. Texts
are ordered in this way by code points, which is also the order of their bytes in UTF-8.

The order is strict and total: `dictionary_irrefl`, `dictionary_trans`, `dictionary_total`.
-/

namespace TemplateBlocks

/-- Whether a list comes before another in the dictionary order that `before` gives for the
elements. -/
def dictionary {α : Type} [DecidableEq α] (before : α → α → Bool) : List α → List α → Bool
  | _, [] => false
  | [], _ :: _ => true
  | a :: as, b :: bs => if a = b then dictionary before as bs else before a b

section Laws

variable {α : Type} [DecidableEq α] {before : α → α → Bool}

theorem dictionary_irrefl (as : List α) : dictionary before as as = false := by
  induction as with
  | nil => rfl
  | cons a as ih => simpa [dictionary] using ih

theorem dictionary_trans (irrefl : ∀ a, before a a = false)
    (trans : ∀ a b c, before a b = true → before b c = true → before a c = true)
    {as bs cs : List α} (hab : dictionary before as bs = true)
    (hbc : dictionary before bs cs = true) : dictionary before as cs = true := by
  induction as generalizing bs cs with
  | nil =>
    cases cs with
    | nil => cases bs <;> simp [dictionary] at hbc
    | cons c cs => rfl
  | cons a as ih =>
    cases bs with
    | nil => simp [dictionary] at hab
    | cons b bs =>
      cases cs with
      | nil => simp [dictionary] at hbc
      | cons c cs =>
        simp only [dictionary] at hab hbc ⊢
        by_cases h1 : a = b
        · subst h1
          by_cases h2 : a = c
          · subst h2
            rw [if_pos rfl] at hab hbc ⊢
            exact ih hab hbc
          · rw [if_neg h2] at hbc ⊢
            exact hbc
        · rw [if_neg h1] at hab
          by_cases h2 : b = c
          · subst h2
            rw [if_neg h1]
            exact hab
          · rw [if_neg h2] at hbc
            have h3 : a ≠ c := by
              intro h
              subst h
              have := trans a b a hab hbc
              rw [irrefl] at this
              exact absurd this (by decide)
            rw [if_neg h3]
            exact trans a b c hab hbc

theorem dictionary_total (total : ∀ a b, a ≠ b → before a b = true ∨ before b a = true)
    {as bs : List α} (h : as ≠ bs) :
    dictionary before as bs = true ∨ dictionary before bs as = true := by
  induction as generalizing bs with
  | nil =>
    cases bs with
    | nil => exact absurd rfl h
    | cons b bs => exact .inl rfl
  | cons a as ih =>
    cases bs with
    | nil => exact .inr rfl
    | cons b bs =>
      simp only [dictionary]
      by_cases hab : a = b
      · subst hab
        simpa using ih (fun hs => h (by rw [hs]))
      · rw [if_neg hab, if_neg (Ne.symm hab)]
        exact total a b hab

end Laws

namespace Text

def charBefore (a b : Char) : Bool := a.toNat < b.toNat

def before (s t : Text) : Bool := dictionary charBefore s t

theorem before_irrefl (s : Text) : before s s = false := dictionary_irrefl s

theorem before_trans {s t u : Text} (hst : before s t = true) (htu : before t u = true) :
    before s u = true := by
  refine dictionary_trans (fun a => by simp [charBefore]) (fun a b c hab hbc => ?_) hst htu
  simp only [charBefore, decide_eq_true_eq] at hab hbc ⊢
  omega

theorem before_total {s t : Text} (h : s ≠ t) : before s t = true ∨ before t s = true := by
  refine dictionary_total (fun a b hab => ?_) h
  have hne : a.toNat ≠ b.toNat := fun he => hab (Char.toNat_inj.1 he)
  simp only [charBefore, decide_eq_true_eq]
  omega

end Text

end TemplateBlocks
