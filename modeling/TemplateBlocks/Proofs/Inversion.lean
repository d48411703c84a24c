import Mathlib.Data.List.Sort
import TemplateBlocks.Reorder

/-!
# Inverted pairs

A new order of blocks is harmful where a block that assigns a variable and a block that
mentions it change places. This module states which elements a list holds first and last
under a condition, when one element stands before another, and which pairs of blocks a move
inverts: only pairs of the moved block with one that it crosses.
-/

namespace TemplateBlocks

/-! ### First and last elements of a kind -/

section Positions

variable {α : Type}

/-- `a` stands at index `i` of the list, and no element before it satisfies `p`. -/
def FirstAt (p : α → Prop) (l : List α) (i : Nat) (a : α) : Prop :=
  l[i]? = some a ∧ p a ∧ ∀ j b, l[j]? = some b → p b → i ≤ j

def LastAt (p : α → Prop) (l : List α) (i : Nat) (a : α) : Prop :=
  l[i]? = some a ∧ p a ∧ ∀ j b, l[j]? = some b → p b → j ≤ i

theorem FirstAt.lt_length {p : α → Prop} {l : List α} {i : Nat} {a : α} (h : FirstAt p l i a) :
    i < l.length := by
  obtain ⟨hi, _⟩ := List.getElem?_eq_some_iff.1 h.1
  exact hi

theorem findIdx?_eq_some_iff_firstAt {q : α → Bool} {l : List α} {i : Nat} :
    l.findIdx? q = some i ↔ ∃ a, FirstAt (q · = true) l i a := by
  rw [List.findIdx?_eq_some_iff_getElem]
  constructor
  · intro h
    obtain ⟨hi, hq, hlt⟩ := h
    refine ⟨l[i], List.getElem?_eq_getElem hi, hq, fun j b hj hb => ?_⟩
    by_contra hlt'
    obtain ⟨hjl, rfl⟩ := List.getElem?_eq_some_iff.1 hj
    exact hlt j (by omega) hb
  · intro h
    obtain ⟨a, hi, hq, hle⟩ := h
    obtain ⟨hil, rfl⟩ := List.getElem?_eq_some_iff.1 hi
    refine ⟨hil, hq, fun j hj hqj => ?_⟩
    have hij := hle j l[j] (List.getElem?_eq_getElem (by omega)) hqj
    omega

theorem find?_reverse_eq_some_iff_lastAt {q : α → Bool} {l : List α} {a : α} :
    l.reverse.find? q = some a ↔ ∃ i, LastAt (q · = true) l i a := by
  rw [List.find?_eq_some_iff_getElem]
  constructor
  · intro h
    obtain ⟨hq, k, hk, hak, hlt⟩ := h
    rw [List.length_reverse] at hk
    have hrev : l[l.length - 1 - k]? = some a := by
      rw [← hak, List.getElem_reverse]
      exact List.getElem?_eq_getElem (by omega)
    refine ⟨l.length - 1 - k, hrev, hq, fun j b hj hb => ?_⟩
    by_contra hle
    obtain ⟨hjl, rfl⟩ := List.getElem?_eq_some_iff.1 hj
    have hnot := hlt (l.length - 1 - j) (by omega)
    rw [List.getElem_reverse] at hnot
    have hidx : l.length - 1 - (l.length - 1 - j) = j := by omega
    simp only [hidx, hb] at hnot
    exact absurd hnot (by decide)
  · intro h
    obtain ⟨i, hi, hq, hle⟩ := h
    obtain ⟨hil, rfl⟩ := List.getElem?_eq_some_iff.1 hi
    refine ⟨hq, l.length - 1 - i, by rw [List.length_reverse]; omega, ?_, fun j hj => ?_⟩
    · rw [List.getElem_reverse]
      congr 1
      omega
    · rw [List.getElem_reverse, Bool.not_eq_true', Bool.eq_false_iff]
      intro hqj
      have hji := hle (l.length - 1 - j) _ (List.getElem?_eq_getElem (by omega)) hqj
      omega

theorem mem_drop_take_iff {l : List α} {a : α} {i t : Nat} :
    a ∈ (l.take t).drop i ↔ ∃ k, l[k]? = some a ∧ i ≤ k ∧ k < t := by
  rw [List.mem_iff_getElem?]
  simp only [List.getElem?_drop, List.getElem?_take]
  constructor
  · intro h
    obtain ⟨j, hj⟩ := h
    split at hj
    · rename_i hlt
      exact ⟨i + j, hj, by omega, hlt⟩
    · simp at hj
  · intro h
    obtain ⟨k, hk, hik, hkt⟩ := h
    have hidx : i + (k - i) = k := by omega
    refine ⟨k - i, ?_⟩
    rw [hidx, if_pos hkt]
    exact hk

theorem mem_take_iff {l : List α} {a : α} {t : Nat} :
    a ∈ l.take t ↔ ∃ k, l[k]? = some a ∧ k < t := by
  have h := mem_drop_take_iff (l := l) (a := a) (i := 0) (t := t)
  simpa only [List.drop_zero, Nat.zero_le, true_and] using h

theorem mem_drop_iff {l : List α} {a : α} {i : Nat} :
    a ∈ l.drop i ↔ ∃ k, l[k]? = some a ∧ i ≤ k := by
  have h := mem_drop_take_iff (l := l) (a := a) (i := i) (t := l.length)
  rw [List.take_length] at h
  rw [h]
  refine exists_congr fun k => ⟨fun hk => ⟨hk.1, hk.2.1⟩, fun hk => ⟨hk.1, hk.2, ?_⟩⟩
  exact (List.getElem?_eq_some_iff.1 hk.1).1

/-! ### One element before another -/

/-- Some occurrence of `a` in the list stands before some occurrence of `b`. -/
def Precedes (l : List α) (a b : α) : Prop := List.Sublist [a, b] l

@[simp] theorem not_precedes_nil {a b : α} : ¬ Precedes [] a b := by
  simp [Precedes]

theorem Precedes.rel {r : α → α → Prop} {l : List α} {a b : α} (hl : l.Pairwise r)
    (h : Precedes l a b) : r a b :=
  List.pairwise_pair.1 (List.Pairwise.sublist h hl)

theorem Precedes.mem {l : List α} {a b : α} (h : Precedes l a b) : a ∈ l ∧ b ∈ l :=
  ⟨h.subset (by simp), h.subset (by simp)⟩

theorem precedes_cons {l : List α} {x a b : α} :
    Precedes (x :: l) a b ↔ (a = x ∧ b ∈ l) ∨ Precedes l a b := by
  simp only [Precedes, List.sublist_cons_iff, List.cons.injEq]
  constructor
  · intro h
    rcases h with h | ⟨r, ⟨rfl, rfl⟩, hr⟩
    · exact .inr h
    · exact .inl ⟨rfl, by simpa using hr⟩
  · intro h
    rcases h with ⟨rfl, hb⟩ | h
    · exact .inr ⟨[b], ⟨rfl, rfl⟩, by simpa using hb⟩
    · exact .inl h

theorem precedes_append {l m : List α} {a b : α} :
    Precedes (l ++ m) a b ↔ Precedes l a b ∨ (a ∈ l ∧ b ∈ m) ∨ Precedes m a b := by
  induction l with
  | nil => simp
  | cons x l ih =>
    rw [List.cons_append, precedes_cons, precedes_cons, ih]
    simp only [List.mem_append, List.mem_cons]
    constructor
    · intro h
      rcases h with ⟨rfl, h | h⟩ | h | ⟨h, hb⟩ | h
      · exact .inl (.inl ⟨rfl, h⟩)
      · exact .inr (.inl ⟨.inl rfl, h⟩)
      · exact .inl (.inr h)
      · exact .inr (.inl ⟨.inr h, hb⟩)
      · exact .inr (.inr h)
    · intro h
      rcases h with (⟨rfl, h⟩ | h) | ⟨rfl | h, hb⟩ | h
      · exact .inl ⟨rfl, .inl h⟩
      · exact .inr (.inl h)
      · exact .inl ⟨rfl, .inr hb⟩
      · exact .inr (.inr (.inl ⟨h, hb⟩))
      · exact .inr (.inr (.inr h))

theorem precedes_iff_getElem? {l : List α} {a b : α} :
    Precedes l a b ↔ ∃ i j : Nat, i < j ∧ l[i]? = some a ∧ l[j]? = some b := by
  induction l with
  | nil => simp
  | cons x l ih =>
    rw [precedes_cons, ih]
    constructor
    · intro h
      rcases h with ⟨rfl, hb⟩ | ⟨i, j, hij, hi, hj⟩
      · obtain ⟨j, hj⟩ := List.mem_iff_getElem?.1 hb
        exact ⟨0, j + 1, by omega, rfl, by simpa using hj⟩
      · exact ⟨i + 1, j + 1, by omega, by simpa using hi, by simpa using hj⟩
    · intro h
      obtain ⟨i, j, hij, hi, hj⟩ := h
      obtain ⟨j, rfl⟩ : ∃ k, j = k + 1 := Nat.exists_eq_succ_of_ne_zero (by omega)
      rw [List.getElem?_cons_succ] at hj
      cases i with
      | zero =>
        obtain rfl : x = a := by simpa using hi
        exact .inl ⟨rfl, List.mem_of_getElem? hj⟩
      | succ i =>
        rw [List.getElem?_cons_succ] at hi
        exact .inr ⟨i, j, by omega, hi, hj⟩

/-- Elements that are left out do not change the order of the others. -/
theorem precedes_filter_iff {p : α → Bool} {l : List α} {a b : α} (ha : p a = true)
    (hb : p b = true) : Precedes (l.filter p) a b ↔ Precedes l a b := by
  constructor
  · intro h
    exact List.Sublist.trans h List.filter_sublist
  · intro h
    have hpair : [a, b].filter p = [a, b] := by simp [ha, hb]
    have hfiltered := List.Sublist.filter p h
    rw [hpair] at hfiltered
    exact hfiltered

/-! ### Lists without repetitions -/

theorem nodup_eraseDups [BEq α] [LawfulBEq α] (l : List α) : l.eraseDups.Nodup := by
  -- the recursion of `eraseDups` is on the filtered tail, so the induction is on the length
  induction hn : l.length using Nat.strong_induction_on generalizing l with
  | _ n ih =>
    cases l with
    | nil => simp
    | cons a l =>
      rw [List.eraseDups_cons]
      have hlen : (l.filter fun b => !b == a).length < n := by
        have hle := List.length_filter_le (fun b => !b == a) l
        simp only [List.length_cons] at hn
        omega
      refine List.nodup_cons.2 ⟨fun ha => ?_, ih _ hlen _ rfl⟩
      rw [List.mem_eraseDups, List.mem_filter] at ha
      simp at ha

end Positions

/-! ### Common names -/

namespace NameSet

theorem eq_of_mem_iff {l m : List Text} (hl : l.Pairwise fun a b => a.before b = true)
    (hm : m.Pairwise fun a b => a.before b = true) (h : ∀ x, x ∈ l ↔ x ∈ m) : l = m := by
  have hirrefl : Std.Irrefl fun a b : Text => a.before b = true :=
    ⟨fun a => by simp [Text.before_irrefl a]⟩
  have hanti : Std.Antisymm fun a b : Text => a.before b = true := by
    refine ⟨fun a b hab hba => ?_⟩
    have haa := Text.before_trans hab hba
    rw [Text.before_irrefl] at haa
    exact absurd haa (by decide)
  exact hl.eq_of_mem_iff hm h

theorem common_comm (a b : NameSet) : a.common b = b.common a := by
  refine eq_of_mem_iff (pairwise_common a b) (pairwise_common b a) fun x => ?_
  rw [mem_common, mem_common]
  exact and_comm

end NameSet

/-! ### Producers and consumers -/

def BlockFlow.supplies (producer consumer : BlockFlow) : List Text :=
  producer.flow.definitions.common consumer.flow.usages

theorem hazard?_eq_some_iff {block : Text} {names : List Text} {d : Direction} {h : Hazard} :
    hazard? block names d = some h ↔ names ≠ [] ∧ h = ⟨block, names, d⟩ := by
  unfold hazard?
  by_cases hn : names = []
  · simp [hn]
  · have hne : names.isEmpty = false := by simpa using hn
    rw [hne]
    simp only [Bool.false_eq_true, if_false, Option.some.injEq, ne_eq, hn, not_false_eq_true,
      true_and]
    exact eq_comm

theorem BlockFlow.missedBy_eq_some_iff {moved other : BlockFlow} {h : Hazard} :
    moved.missedBy other = some h ↔
      moved.supplies other ≠ [] ∧ h = ⟨other.name, moved.supplies other, .losesDefinitions⟩ :=
  hazard?_eq_some_iff

theorem BlockFlow.misses_eq_some_iff {moved other : BlockFlow} {h : Hazard} :
    moved.misses other = some h ↔
      other.supplies moved ≠ [] ∧ h = ⟨moved.name, other.supplies moved, .providesDefinitions⟩ := by
  have hcomm : moved.flow.usages.common other.flow.definitions = other.supplies moved :=
    NameSet.common_comm _ _
  rw [BlockFlow.misses, hcomm]
  exact hazard?_eq_some_iff

/-! ### The order after a move -/

/-- The indices of `n` blocks after a move: the one at `i` is taken out and put back between
those before the gap `t` and those behind it. -/
def movedOrder (n i t : Nat) : List Nat :=
  (List.range t).filter (· ≠ i) ++ i :: (List.range' t (n - t)).filter (· ≠ i)

/-- A move inverts the moved block with the blocks that it crosses, and no other pair. -/
theorem precedes_movedOrder_iff {n i t p c : Nat} (hpc : p < c) (hc : c < n) :
    Precedes (movedOrder n i t) c p ↔ (p = i ∧ c < t) ∨ (c = i ∧ t ≤ p) := by
  have hfront : ¬ Precedes ((List.range t).filter (· ≠ i)) c p := by
    intro h
    have hlt := h.rel (List.Pairwise.filter _ List.pairwise_lt_range)
    omega
  have hback : ¬ Precedes ((List.range' t (n - t)).filter (· ≠ i)) c p := by
    intro h
    have hlt := h.rel (List.Pairwise.filter _ List.pairwise_lt_range')
    omega
  rw [movedOrder, precedes_append, precedes_cons]
  simp only [hfront, hback, false_or, or_false, List.mem_cons, List.mem_filter, List.mem_range,
    List.mem_range'_1, decide_eq_true_eq]
  omega

/-- Some producer that runs before some consumer in the blocks runs behind it in the order. -/
def Inverted (blocks : List BlockFlow) (order : List Nat) (producer consumer : BlockFlow) : Prop :=
  ∃ p c, blocks[p]? = some producer ∧ blocks[c]? = some consumer ∧ p < c ∧ Precedes order c p

end TemplateBlocks
