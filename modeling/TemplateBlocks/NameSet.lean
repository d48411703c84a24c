import TemplateBlocks.Text.Order

/-!
# Sets of names

A set of names is a list of names in strictly increasing order, by code points. So two sets
with the same members are equal, and every listing of a set is sorted.
-/

namespace TemplateBlocks

structure NameSet where
  toList : List Text
  sorted : toList.Pairwise fun m n => m.before n = true

namespace NameSet

/-! ### Inserting a name -/

/-- A sorted list with `n` at its place, unless `n` is there already. -/
def insertSorted (n : Text) : List Text → List Text
  | [] => [n]
  | m :: ms =>
    if n.before m then n :: m :: ms
    else if n = m then m :: ms
    else m :: insertSorted n ms

theorem mem_insertSorted {x n : Text} {ms : List Text} :
    x ∈ insertSorted n ms ↔ x = n ∨ x ∈ ms := by
  induction ms with
  | nil => simp [insertSorted]
  | cons m ms ih =>
    unfold insertSorted
    split
    · simp
    · split
      · rename_i hnm
        subst hnm
        simp
      · simp only [List.mem_cons, ih]
        constructor
        · rintro (h | h | h)
          · exact .inr (.inl h)
          · exact .inl h
          · exact .inr (.inr h)
        · rintro (h | h | h)
          · exact .inr (.inl h)
          · exact .inl h
          · exact .inr (.inr h)

theorem pairwise_insertSorted {n : Text} {ms : List Text}
    (h : ms.Pairwise fun m n => m.before n = true) :
    (insertSorted n ms).Pairwise fun m n => m.before n = true := by
  induction ms with
  | nil => simp [insertSorted]
  | cons m ms ih =>
    obtain ⟨hm, hms⟩ := List.pairwise_cons.1 h
    unfold insertSorted
    split
    · rename_i hnm
      refine List.pairwise_cons.2 ⟨fun x hx => ?_, h⟩
      rcases List.mem_cons.1 hx with rfl | hx
      · exact hnm
      · exact Text.before_trans hnm (hm x hx)
    · split
      · exact h
      · rename_i hnlt hne
        refine List.pairwise_cons.2 ⟨fun x hx => ?_, ih hms⟩
        rcases mem_insertSorted.1 hx with rfl | hx
        · exact (Text.before_total hne).resolve_left hnlt
        · exact hm x hx

/-! ### Operations -/

def empty : NameSet := ⟨[], .nil⟩

def insert (set : NameSet) (n : Text) : NameSet :=
  ⟨insertSorted n set.toList, pairwise_insertSorted set.sorted⟩

def ofList (ns : List Text) : NameSet := ns.foldl insert empty

def contains (set : NameSet) (n : Text) : Bool := set.toList.contains n

def size (set : NameSet) : Nat := set.toList.length

def isEmpty (set : NameSet) : Bool := set.toList.isEmpty

def common (a b : NameSet) : List Text := a.toList.filter b.contains

/-! ### Members -/

@[simp] theorem mem_insert {set : NameSet} {x n : Text} :
    x ∈ (set.insert n).toList ↔ x = n ∨ x ∈ set.toList :=
  mem_insertSorted

theorem mem_foldl_insert {set : NameSet} {x : Text} {ns : List Text} :
    x ∈ (ns.foldl insert set).toList ↔ x ∈ ns ∨ x ∈ set.toList := by
  induction ns generalizing set with
  | nil => simp
  | cons n ns ih =>
    rw [List.foldl_cons, ih, mem_insert, List.mem_cons]
    constructor
    · rintro (h | h | h)
      · exact .inl (.inr h)
      · exact .inl (.inl h)
      · exact .inr h
    · rintro ((h | h) | h)
      · exact .inr (.inl h)
      · exact .inl h
      · exact .inr (.inr h)

@[simp] theorem mem_ofList {x : Text} {ns : List Text} : x ∈ (ofList ns).toList ↔ x ∈ ns := by
  simp [ofList, mem_foldl_insert, empty]

@[simp] theorem contains_iff {set : NameSet} {n : Text} :
    set.contains n = true ↔ n ∈ set.toList := by
  simp [contains]

theorem mem_common {a b : NameSet} {x : Text} :
    x ∈ a.common b ↔ x ∈ a.toList ∧ x ∈ b.toList := by
  simp [common]

theorem pairwise_common (a b : NameSet) :
    (a.common b).Pairwise fun m n => m.before n = true :=
  a.sorted.filter _

end NameSet

end TemplateBlocks
