import TemplateBlocks.Proofs.ControlDepth

/-!
# Balanced control structures

Lines are balanced when their surplus of opened structures, added up line by line, never falls below
zero and is zero at the end (`Control.balanced_iff`). Balanced lines leave the number of open
structures as it was, wherever they stand (`Control.balancedFrom_append`), and in balanced lines no
closing word is without effect, so the depth is the surplus (`Control.depthBehind_eq_surplus`).
-/

namespace TemplateBlocks

namespace Control

variable {ls ms : List Text} {l : Text} {d k : Nat}

/-- How many more structures the lines open than they close. -/
def surplus : List Text → Int
  | [] => 0
  | l :: ls => opens l.trim - closes l.trim + surplus ls

@[simp] theorem surplus_nil : surplus [] = 0 := rfl

@[simp] theorem surplus_cons (l : Text) (ls : List Text) :
    surplus (l :: ls) = opens l.trim - closes l.trim + surplus ls := rfl

@[simp] theorem surplus_append (as bs : List Text) :
    surplus (as ++ bs) = surplus as + surplus bs := by
  induction as with
  | nil => simp
  | cons a as ih =>
    rw [List.cons_append, surplus_cons, surplus_cons, ih]
    omega

theorem surplus_take_succ (h : k < ls.length) : surplus (ls.take (k + 1)) =
    surplus (ls.take k) + (opens ls[k].trim - closes ls[k].trim) := by
  rw [List.take_succ_eq_append_getElem h, surplus_append, surplus_cons, surplus_nil, Int.add_zero]

/-- The structures on the lines replay without closing one that is not open, and all are closed. -/
structure Replays (ls : List Text) : Prop where
  nonneg : ∀ k, 0 ≤ surplus (ls.take k)
  zero : surplus ls = 0

theorem balancedFrom_iff : balancedFrom d ls = true ↔
    (∀ k, 0 ≤ d + surplus (ls.take k)) ∧ d + surplus ls = 0 := by
  induction ls generalizing d with
  | nil => simp [balancedFrom]
  | cons l ls ih =>
    rw [balancedFrom]
    by_cases hclosed : d + opens l.trim < closes l.trim
    · rw [if_pos hclosed]
      constructor
      · intro h
        exact absurd h Bool.false_ne_true
      · rintro ⟨hnonneg, -⟩
        have := hnonneg 1
        simp at this
        omega
    · have hdepth : ((d + opens l.trim - closes l.trim : Nat) : Int) =
          d + (opens l.trim - closes l.trim) := by omega
      rw [if_neg hclosed, ih, hdepth, surplus_cons]
      constructor
      · rintro ⟨hnonneg, hzero⟩
        refine ⟨fun k => ?_, by omega⟩
        cases k with
        | zero => simp
        | succ k =>
          have := hnonneg k
          rw [List.take_succ_cons, surplus_cons]
          omega
      · rintro ⟨hnonneg, hzero⟩
        refine ⟨fun k => ?_, by omega⟩
        have := hnonneg (k + 1)
        rw [List.take_succ_cons, surplus_cons] at this
        omega

theorem balanced_iff : balanced ls = true ↔ Replays ls := by
  rw [balanced, balancedFrom_iff]
  simp only [Int.ofNat_zero, Int.zero_add]
  exact ⟨fun h => ⟨h.1, h.2⟩, fun h => ⟨h.nonneg, h.zero⟩⟩

/-! ### Balanced lines among others -/

/-- Lines that close what was opened before them leave the rest to the lines behind them. -/
theorem balancedFrom_append (h : balancedFrom d ms = true) (e : Nat) (ls : List Text) :
    balancedFrom (d + e) (ms ++ ls) = balancedFrom e ls := by
  induction ms generalizing d with
  | nil =>
    obtain rfl : d = 0 := by simpa [balancedFrom] using h
    rw [Nat.zero_add, List.nil_append]
  | cons m ms ih =>
    rw [balancedFrom] at h
    split at h
    · exact absurd h Bool.false_ne_true
    · rename_i hclosed
      have hopen : ¬ d + e + opens m.trim < closes m.trim := by omega
      have hrest : d + e + opens m.trim - closes m.trim = d + opens m.trim - closes m.trim + e := by
        omega
      rw [List.cons_append, balancedFrom, if_neg hopen, hrest, ih h]

theorem balancedFrom_congr (h : ∀ d, balancedFrom d ms = balancedFrom d ls) (as : List Text)
    (d : Nat) : balancedFrom d (as ++ ms) = balancedFrom d (as ++ ls) := by
  induction as generalizing d with
  | nil => exact h d
  | cons a as ih => rw [List.cons_append, List.cons_append, balancedFrom, balancedFrom, ih]

/-- Balanced lines make no difference where they stand. -/
theorem balanced_insert (h : balanced ms = true) (as bs : List Text) :
    balanced (as ++ ms ++ bs) = balanced (as ++ bs) := by
  rw [List.append_assoc]
  refine balancedFrom_congr (fun d => ?_) as 0
  have hskip := balancedFrom_append h d bs
  rwa [Nat.zero_add] at hskip

/-! ### Depths in balanced lines -/

theorem depthBehind_eq_surplus (h : Replays ls) (hk : k ≤ ls.length) :
    (depthBehind ls k : Int) = surplus (ls.take k) := by
  induction k with
  | zero => simp [depthBehind_zero]
  | succ k ih =>
    have hnonneg := h.nonneg (k + 1)
    have hlast := ih (Nat.le_of_lt hk)
    rw [surplus_take_succ hk] at hnonneg ⊢
    rw [depthBehind_succ hk, depthAfter]
    omega

end Control

end TemplateBlocks
