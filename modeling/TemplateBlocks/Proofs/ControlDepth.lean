import Mathlib.Data.List.Basic
import TemplateBlocks.Detect.Conditional
import TemplateBlocks.Detect.Standalone

/-!
# Depths of control structures

The stack of the conditionals and the depth of the standalones count the same structures, line by
line (`Detect.length_stackBehind`). The lowest structure of the stack began where the depth last
left zero (`Detect.opened_of_mem_getLast?`), so a conditional is reported for every run of lines
from there to the line on which the depth is zero again, and for nothing else
(`Detect.conditionals_iff_excursion`).
-/

namespace TemplateBlocks

variable {ls : List Text} {line : Text} {k n s e : Nat}

namespace Control

/-! ### Depths behind lines -/

/-- The number of structures that are open behind the first `k` lines. -/
def depthBehind (ls : List Text) (k : Nat) : Nat := (ls.take k).foldl depthAfter 0

theorem depthBehind_zero (ls : List Text) : depthBehind ls 0 = 0 := by
  simp [depthBehind]

theorem depthBehind_succ (h : k < ls.length) :
    depthBehind ls (k + 1) = depthAfter (depthBehind ls k) ls[k] := by
  rw [depthBehind, List.take_succ_eq_append_getElem h, List.foldl_append, depthBehind]
  rfl

/-- Line `s` opens a structure at the top level, and up to line `k` something is open. -/
structure OpenSince (ls : List Text) (s k : Nat) : Prop where
  pos : 1 ≤ s
  le : s ≤ k
  start : depthBehind ls (s - 1) = 0
  inside : ∀ j, s ≤ j → j ≤ k → 0 < depthBehind ls j

/-- On the lines from `s` to `e` the depth leaves zero and comes back to it, on the last line. -/
structure Excursion (ls : List Text) (s e : Nat) : Prop where
  pos : 1 ≤ s
  lt : s < e
  le : e ≤ ls.length
  start : depthBehind ls (s - 1) = 0
  inside : ∀ j, s ≤ j → j < e → 0 < depthBehind ls j
  stop : depthBehind ls e = 0

theorem OpenSince.unique {s' : Nat} (h : OpenSince ls s k) (h' : OpenSince ls s' k) : s = s' := by
  have hle : ∀ {a b : Nat}, OpenSince ls a k → OpenSince ls b k → a ≤ b := by
    intro a b ha hb
    by_contra hlt
    have hpos := hb.inside (a - 1) (by omega) (by have := ha.le; omega)
    rw [ha.start] at hpos
    exact Nat.lt_irrefl 0 hpos
  exact Nat.le_antisymm (hle h h') (hle h' h)

theorem excursion_iff : Excursion ls s (k + 1) ↔
    k < ls.length ∧ OpenSince ls s k ∧ depthBehind ls (k + 1) = 0 := by
  constructor
  · intro h
    exact ⟨h.le, ⟨h.pos, Nat.le_of_lt_succ h.lt, h.start, fun j hs hk =>
      h.inside j hs (Nat.lt_succ_of_le hk)⟩, h.stop⟩
  · rintro ⟨hlen, h, hstop⟩
    exact ⟨h.pos, Nat.lt_succ_of_le h.le, hlen, h.start, fun j hs hk =>
      h.inside j hs (Nat.le_of_lt_succ hk), hstop⟩

/-- Excursions do not share a line. -/
theorem Excursion.lt_of_lt {s' e' : Nat} (h : Excursion ls s e) (h' : Excursion ls s' e')
    (hlt : e < e') : e < s' := by
  by_contra hge
  have hpos := h'.inside e (by omega) hlt
  rw [h.stop] at hpos
  exact Nat.lt_irrefl 0 hpos

end Control

namespace Lines

/-! ### A pass over numbered lines -/

theorem numbered_take_succ (h : k < ls.length) :
    (numbered ls).take (k + 1) = (numbered ls).take k ++ [(ls[k], k + 1)] := by
  have hlen : k < (numbered ls).length := by simpa [numbered] using h
  rw [List.take_succ_eq_append_getElem hlen]
  simp [numbered, Nat.add_comm]

theorem numbered_drop (h : k < ls.length) :
    (numbered ls).drop k = (ls[k], k + 1) :: (numbered ls).drop (k + 1) := by
  have hlen : k < (numbered ls).length := by simpa [numbered] using h
  rw [List.drop_eq_getElem_cons hlen]
  simp [numbered, Nat.add_comm]

theorem mem_numbered_iff {l : Text × Nat} :
    l ∈ numbered ls ↔ ∃ k, ∃ h : k < ls.length, l = (ls[k], k + 1) := by
  simp only [numbered, List.mem_iff_getElem, List.length_zipIdx, List.getElem_zipIdx]
  constructor
  · rintro ⟨k, h, rfl⟩
    exact ⟨k, h, by rw [Nat.add_comm]⟩
  · rintro ⟨k, h, rfl⟩
    exact ⟨k, h, by rw [Nat.add_comm]⟩

theorem pairwise_numbered (ls : List Text) : (numbered ls).Pairwise fun l l' => l.2 < l'.2 := by
  rw [List.pairwise_iff_getElem]
  intro i j hi hj hlt
  simpa [numbered] using hlt

/-- What a state is behind the first `k` lines. -/
def stateBehind {σ : Type} (step : σ → Text × Nat → σ) (init : σ) (ls : List Text) (k : Nat) : σ :=
  ((numbered ls).take k).foldl step init

theorem stateBehind_succ {σ : Type} {step : σ → Text × Nat → σ} {init : σ} (h : k < ls.length) :
    stateBehind step init ls (k + 1) = step (stateBehind step init ls k) (ls[k], k + 1) := by
  rw [stateBehind, numbered_take_succ h, List.foldl_append]
  rfl

/-- A pass over the lines that carries a state puts out, on each line, what it makes of the line in
the state behind the lines before it. -/
theorem run_numbered {σ β : Type} (run : σ → List (Text × Nat) → List β)
    (step : σ → Text × Nat → σ) (init : σ) (emit : σ → Text × Nat → List β) (ls : List Text)
    (hnil : ∀ st, run st [] = [])
    (hcons : ∀ st l rest, run st (l :: rest) = emit st l ++ run (step st l) rest) :
    run init (numbered ls) =
      (numbered ls).flatMap fun l => emit (stateBehind step init ls (l.2 - 1)) l := by
  have hrun : ∀ m k, ls.length - k = m → run (stateBehind step init ls k) ((numbered ls).drop k) =
      ((numbered ls).drop k).flatMap fun l => emit (stateBehind step init ls (l.2 - 1)) l := by
    -- The induction is on the number of lines that are left.
    intro m
    induction m with
    | zero =>
      intro k hk
      rw [List.drop_eq_nil_of_le (by simp [numbered]; omega)]
      exact hnil _
    | succ m ih =>
      intro k hk
      have hlt : k < ls.length := by omega
      have hnext := ih (k + 1) (by omega)
      rw [stateBehind_succ hlt] at hnext
      rw [numbered_drop hlt, hcons, hnext]
      rfl
  simpa [stateBehind] using hrun ls.length 0 rfl

end Lines

namespace Detect

variable {stack : List OpenControl} {c : OpenControl}

/-! ### The stack on one line -/

theorem pushOpens_eq (stack : List OpenControl) (line : Text) (n : Nat) : ∃ new,
    pushOpens stack line n = new ++ stack ∧ new.length = Control.opens line.trim ∧
      ∀ c ∈ new, c.line = n := by
  rw [pushOpens]
  induction Control.opens line.trim with
  | zero => exact ⟨[], rfl, rfl, by simp⟩
  | succ m ih =>
    obtain ⟨new, hnew, hlength, hline⟩ := ih
    refine ⟨_ :: new, congrArg _ hnew, congrArg Nat.succ hlength, ?_⟩
    exact List.forall_mem_cons.2 ⟨rfl, hline⟩

theorem length_stackAfter (stack : List OpenControl) (line : Text) (n : Nat) :
    (stackAfter stack line n).length = Control.depthAfter stack.length line := by
  obtain ⟨new, hnew, hlength, _⟩ := pushOpens_eq stack line n
  rw [stackAfter, popCloses, List.length_drop, hnew, List.length_append, hlength,
    Control.depthAfter, Nat.add_comm stack.length]

theorem getLast?_pushOpens (h : stack ≠ []) (line : Text) (n : Nat) :
    (pushOpens stack line n).getLast? = stack.getLast? := by
  obtain ⟨new, hnew, _⟩ := pushOpens_eq stack line n
  obtain ⟨c, hc⟩ := Option.isSome_iff_exists.1 (List.getLast?_isSome.2 h)
  rw [hnew, List.getLast?_append, hc, Option.some_or]

theorem line_of_mem_pushOpens (h : c ∈ pushOpens [] line n) : c.line = n := by
  obtain ⟨new, hnew, _, hline⟩ := pushOpens_eq [] line n
  rw [hnew, List.append_nil] at h
  exact hline c h

/-- Each structure of a stack has the number of those below it. -/
def Stacked : List OpenControl → Prop
  | [] => True
  | c :: stack => c.depth = stack.length ∧ Stacked stack

theorem Stacked.drop (h : Stacked stack) (m : Nat) : Stacked (stack.drop m) := by
  induction m generalizing stack with
  | zero => exact h
  | succ m ih =>
    cases stack with
    | nil => exact h
    | cons c stack => exact ih h.2

theorem Stacked.pushOpens (h : Stacked stack) (line : Text) (n : Nat) :
    Stacked (pushOpens stack line n) := by
  rw [Detect.pushOpens]
  induction Control.opens line.trim with
  | zero => exact h
  | succ m ih => exact ⟨rfl, ih⟩

theorem Stacked.depth_getLast? (h : Stacked stack) (hc : c ∈ stack.getLast?) : c.depth = 0 := by
  induction stack with
  | nil => simp at hc
  | cons c' stack ih =>
    cases stack with
    | nil =>
      obtain rfl : c' = c := by simpa using hc
      exact h.1
    | cons c'' stack => exact ih h.2 (by rwa [List.getLast?_cons_cons] at hc)

/-- Only the lowest structure is at the top level, so a line ends a conditional only when it closes
the whole stack. -/
theorem Stacked.endedBy_eq (h : Stacked stack) (line : Text) (n : Nat) : endedBy stack line n =
    if popCloses stack line = [] then (stack.getLast?.bind fun c => c.ended? n).toList else [] := by
  rw [endedBy, popCloses]
  generalize Control.closes line.trim = m
  induction stack generalizing m with
  | nil => simp
  | cons c stack ih =>
    cases m with
    | zero => simp
    | succ m =>
      rw [List.take_succ_cons, List.drop_succ_cons]
      cases stack with
      | nil =>
        cases hc : c.ended? n with
        | none => simp [hc]
        | some b => simp [hc]
      | cons c' stack =>
        have hdepth : c.depth ≠ 0 := by
          rw [h.1]
          exact Nat.succ_ne_zero _
        have hnone : c.ended? n = none := by simp [OpenControl.ended?, hdepth]
        simp only [List.filterMap_cons, hnone, ih h.2 m, List.getLast?_cons_cons]

/-! ### The stack behind lines -/

/-- The structures that are open behind the first `k` lines. -/
def stackBehind (ls : List Text) (k : Nat) : List OpenControl :=
  Lines.stateBehind (fun stack l => stackAfter stack l.1 l.2) [] ls k

theorem stackBehind_succ (h : k < ls.length) :
    stackBehind ls (k + 1) = stackAfter (stackBehind ls k) ls[k] (k + 1) :=
  Lines.stateBehind_succ h

theorem depthBehind_eq (ls : List Text) (k : Nat) : Control.depthBehind ls k =
    Lines.stateBehind (fun depth l => Control.depthAfter depth l.1) 0 ls k := by
  rw [Lines.stateBehind, ← List.foldl_map, List.map_take, Lines.numbered, List.zipIdx_map_fst,
    Control.depthBehind]

theorem length_stackBehind (ls : List Text) (k : Nat) :
    (stackBehind ls k).length = Control.depthBehind ls k := by
  rw [depthBehind_eq, stackBehind, Lines.stateBehind, Lines.stateBehind]
  exact (List.foldl_hom List.length fun stack l => (length_stackAfter stack l.1 l.2).symm).symm

theorem stacked_stackBehind (ls : List Text) (k : Nat) : Stacked (stackBehind ls k) :=
  List.foldlRecOn _ _ trivial fun _ h l _ => (h.pushOpens l.1 l.2).drop _

theorem stackBehind_eq_nil_iff : stackBehind ls k = [] ↔ Control.depthBehind ls k = 0 := by
  rw [← length_stackBehind, List.length_eq_zero_iff]

/-- The lowest structure of the stack began where the depth last left zero. -/
theorem opened_of_mem_getLast? (hk : k ≤ ls.length) (hc : c ∈ (stackBehind ls k).getLast?) :
    Control.OpenSince ls c.line k := by
  induction k with
  | zero => exact absurd hc (by simp [stackBehind, Lines.stateBehind])
  | succ k ih =>
    have hlt : k < ls.length := hk
    have hpos : 0 < Control.depthBehind ls (k + 1) := by
      rw [← length_stackBehind]
      exact List.length_pos_of_mem (List.mem_of_getLast? hc)
    rw [stackBehind_succ hlt, stackAfter, popCloses, List.getLast?_drop] at hc
    have hpush : c ∈ (pushOpens (stackBehind ls k) ls[k] (k + 1)).getLast? := by
      split at hc
      · exact absurd hc (by simp)
      · exact hc
    -- What is lowest was opened on this line, or it was lowest before the line already.
    by_cases hempty : stackBehind ls k = []
    · rw [hempty] at hpush
      have hline : c.line = k + 1 := line_of_mem_pushOpens (List.mem_of_getLast? hpush)
      rw [hline]
      refine ⟨Nat.succ_pos k, Nat.le_refl _, stackBehind_eq_nil_iff.1 hempty, fun j hle hge => ?_⟩
      rwa [Nat.le_antisymm hge hle]
    · rw [getLast?_pushOpens hempty] at hpush
      have hold := ih (Nat.le_of_lt hlt) hpush
      refine ⟨hold.pos, Nat.le_succ_of_le hold.le, hold.start, fun j hle hge => ?_⟩
      rcases Nat.le_or_eq_of_le_succ hge with hj | rfl
      · exact hold.inside j hle hj
      · exact hpos

/-- A line on which the depth comes back to zero ends the conditional of the lowest structure, if
one was open before the line. -/
theorem endedBy_behind (h : k < ls.length) :
    endedBy (pushOpens (stackBehind ls k) ls[k] (k + 1)) ls[k] (k + 1) =
      if Control.depthBehind ls (k + 1) = 0 then
        ((stackBehind ls k).getLast?.map fun c => c.block (k + 1)).toList
      else [] := by
  have hpop : popCloses (pushOpens (stackBehind ls k) ls[k] (k + 1)) ls[k] = [] ↔
      Control.depthBehind ls (k + 1) = 0 := by
    rw [← stackBehind_eq_nil_iff, stackBehind_succ h, stackAfter]
  rw [((stacked_stackBehind ls k).pushOpens ls[k] (k + 1)).endedBy_eq]
  refine if_congr hpop (congrArg Option.toList ?_) rfl
  by_cases hempty : stackBehind ls k = []
  · -- All that the line closes, it opened itself.
    rw [hempty]
    refine Option.bind_eq_none_iff.2 fun c hc => ?_
    have hline : c.line = k + 1 := line_of_mem_pushOpens (List.mem_of_getLast? hc)
    simp [OpenControl.ended?, hline]
  · rw [getLast?_pushOpens hempty]
    cases hlast : (stackBehind ls k).getLast? with
    | none => rfl
    | some c =>
      have hdepth := (stacked_stackBehind ls k).depth_getLast? hlast
      have hline := (opened_of_mem_getLast? (Nat.le_of_lt h) hlast).le
      rw [Option.bind_some, OpenControl.ended?, if_pos ⟨hdepth, Nat.lt_succ_of_le hline⟩]
      rfl

theorem conditionals_eq (ls : List Text) : conditionals ls = (Lines.numbered ls).flatMap fun l =>
    endedBy (pushOpens (stackBehind ls (l.2 - 1)) l.1 l.2) l.1 l.2 :=
  Lines.run_numbered conditionalsFrom (fun stack l => stackAfter stack l.1 l.2) []
    (fun stack l => endedBy (pushOpens stack l.1 l.2) l.1 l.2) ls (fun _ => rfl) fun _ _ _ => rfl

theorem standalones_eq (ls : List Text) : standalones ls = (Lines.numbered ls).flatMap fun l =>
    (standalone? (Control.depthBehind ls l.2) l.1 l.2).toList := by
  refine (Lines.run_numbered standalonesFrom (fun depth l => Control.depthAfter depth l.1) 0
    (fun depth l => (standalone? (Control.depthAfter depth l.1) l.1 l.2).toList) ls
    (fun _ => rfl) fun _ _ _ => rfl).trans (List.flatMap_congr fun l hl => ?_)
  obtain ⟨k, h, rfl⟩ := Lines.mem_numbered_iff.1 hl
  rw [Nat.add_sub_cancel, ← depthBehind_eq, Control.depthBehind_succ h]

/-! ### Conditionals are excursions of the depth -/

theorem excursion_of_mem_endedBy {b : Block} (h : k < ls.length)
    (hb : b ∈ endedBy (pushOpens (stackBehind ls k) ls[k] (k + 1)) ls[k] (k + 1)) :
    b.stop = k + 1 ∧ Control.Excursion ls b.start (k + 1) := by
  rw [endedBy_behind h] at hb
  split at hb
  · rename_i hzero
    obtain ⟨c, hc, rfl⟩ : ∃ c, (stackBehind ls k).getLast? = some c ∧ c.block (k + 1) = b := by
      simpa using hb
    exact ⟨rfl, Control.excursion_iff.2 ⟨h, opened_of_mem_getLast? (Nat.le_of_lt h) hc, hzero⟩⟩
  · exact absurd hb List.not_mem_nil

theorem exists_mem_endedBy (h : k < ls.length) (he : Control.Excursion ls s (k + 1)) :
    ∃ b ∈ endedBy (pushOpens (stackBehind ls k) ls[k] (k + 1)) ls[k] (k + 1),
      b.start = s ∧ b.stop = k + 1 := by
  obtain ⟨_, hsince, hzero⟩ := Control.excursion_iff.1 he
  have hpos := hsince.inside k hsince.le (Nat.le_refl k)
  have hne : stackBehind ls k ≠ [] := fun hempty =>
    absurd (stackBehind_eq_nil_iff.1 hempty) (Nat.ne_of_gt hpos)
  obtain ⟨c, hc⟩ := Option.isSome_iff_exists.1 (List.getLast?_isSome.2 hne)
  have hstart := (opened_of_mem_getLast? (Nat.le_of_lt h) hc).unique hsince
  refine ⟨c.block (k + 1), ?_, hstart, rfl⟩
  simp [endedBy_behind h, hzero, hc]

theorem conditionals_iff_excursion :
    (∃ b ∈ conditionals ls, b.start = s ∧ b.stop = e) ↔ Control.Excursion ls s e := by
  rw [conditionals_eq]
  constructor
  · rintro ⟨b, hb, rfl, rfl⟩
    obtain ⟨l, hl, hb⟩ := List.mem_flatMap.1 hb
    obtain ⟨k, h, rfl⟩ := Lines.mem_numbered_iff.1 hl
    obtain ⟨hstop, he⟩ := excursion_of_mem_endedBy h hb
    rwa [hstop]
  · intro he
    obtain ⟨k, rfl⟩ : ∃ k, e = k + 1 := Nat.exists_eq_succ_of_ne_zero (by have := he.lt; omega)
    have h : k < ls.length := he.le
    obtain ⟨b, hb, hrange⟩ := exists_mem_endedBy h he
    exact ⟨b, List.mem_flatMap.2 ⟨_, Lines.mem_numbered_iff.2 ⟨k, h, rfl⟩, hb⟩, hrange⟩

theorem pairwise_conditionals (ls : List Text) :
    (conditionals ls).Pairwise fun a b => a.stop < b.start := by
  rw [conditionals_eq, List.pairwise_flatMap]
  constructor
  · intro l hl
    obtain ⟨k, h, rfl⟩ := Lines.mem_numbered_iff.1 hl
    rw [Nat.add_sub_cancel, endedBy_behind h]
    split
    · cases (stackBehind ls k).getLast? with
      | none => exact List.Pairwise.nil
      | some c => exact List.pairwise_singleton _ _
    · exact List.Pairwise.nil
  · refine (Lines.pairwise_numbered ls).imp_of_mem fun {l l'} hl hl' hlt => ?_
    obtain ⟨k, h, rfl⟩ := Lines.mem_numbered_iff.1 hl
    obtain ⟨k', h', rfl⟩ := Lines.mem_numbered_iff.1 hl'
    intro a ha b hb
    obtain ⟨hstop, hea⟩ := excursion_of_mem_endedBy h ha
    obtain ⟨_, heb⟩ := excursion_of_mem_endedBy h' hb
    rw [hstop]
    exact hea.lt_of_lt heb hlt

end Detect

/-- The stack of open structures and the depth are one machine: they agree behind every line, the
standalones are judged by that depth, and the conditionals are the runs of lines on which it leaves
zero and comes back to zero on a later line, in their order. -/
theorem stack_refines_depth (ls : List Text) :
    Control.depthBehind ls 0 = 0 ∧
    (∀ k (h : k < ls.length), (Control.depthBehind ls (k + 1) : Int) =
      max 0 (Control.depthBehind ls k + Control.opens ls[k].trim - Control.closes ls[k].trim)) ∧
    (∀ k, (Detect.stackBehind ls k).length = Control.depthBehind ls k) ∧
    (Detect.conditionals ls = (Lines.numbered ls).flatMap fun l =>
      Detect.endedBy (Detect.pushOpens (Detect.stackBehind ls (l.2 - 1)) l.1 l.2) l.1 l.2) ∧
    (Detect.standalones ls = (Lines.numbered ls).flatMap fun l =>
      (Detect.standalone? (Control.depthBehind ls l.2) l.1 l.2).toList) ∧
    (Detect.conditionals ls).Pairwise (fun a b => a.stop < b.start) ∧
    ∀ s e, (∃ b ∈ Detect.conditionals ls, b.start = s ∧ b.stop = e) ↔
      Control.Excursion ls s e := by
  refine ⟨Control.depthBehind_zero ls, fun k h => ?_, Detect.length_stackBehind ls,
    Detect.conditionals_eq ls, Detect.standalones_eq ls, Detect.pairwise_conditionals ls,
    fun s e => Detect.conditionals_iff_excursion⟩
  rw [Control.depthBehind_succ h, Control.depthAfter]
  omega

end TemplateBlocks
