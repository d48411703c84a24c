import TemplateBlocks.Text.Basic

/-!
# Blocks

A block is a named range of whole lines that is treated as one unit of a layout. Its kind
tells how it was found, and a flag tells whether it may be moved.
-/

namespace TemplateBlocks

inductive Kind
  | delimited
  | conditional
  | subTemplate
  | layout
  | expression
  deriving DecidableEq, Repr

namespace Kind

def word : Kind → Text
  | delimited => "explicit_delimiter".toList
  | conditional => "conditional".toList
  | subTemplate => "sub_template_call".toList
  | layout => "layout_call".toList
  | expression => "expression".toList

def label : Kind → Text
  | delimited => "delimiter".toList
  | conditional => "conditional".toList
  | subTemplate => "sub_template".toList
  | layout => "layout".toList
  | expression => "expression".toList

end Kind

/-- A named range of lines, both ends included. -/
structure Block where
  name : Text
  kind : Kind
  start : Nat
  stop : Nat
  movable : Bool := true
  deriving DecidableEq, Repr

namespace Block

def isSingleLine (b : Block) : Bool := b.start == b.stop

def contains (b other : Block) : Bool := b.start ≤ other.start && other.stop ≤ b.stop

@[simp] theorem contains_iff (b other : Block) :
    b.contains other = true ↔ b.start ≤ other.start ∧ other.stop ≤ b.stop := by
  simp [contains]

/-- Blocks in the order of their first lines; blocks that start together keep their order. -/
def sort (bs : List Block) : List Block := bs.mergeSort fun a b => a.start ≤ b.start

theorem sort_perm (bs : List Block) : (sort bs).Perm bs := List.mergeSort_perm bs _

theorem sort_ordered (bs : List Block) : (sort bs).Pairwise fun a b => a.start ≤ b.start := by
  have hsorted : (sort bs).Pairwise fun a b => decide (a.start ≤ b.start) = true :=
    List.pairwise_mergeSort (fun a b c => by simpa using Nat.le_trans)
      (fun a b => by simpa using Nat.le_total _ _) bs
  exact hsorted.imp of_decide_eq_true

theorem mem_sort {b : Block} {bs : List Block} : b ∈ sort bs ↔ b ∈ bs := List.mem_mergeSort

end Block

structure Group where
  name : Text
  width : Text
  blocks : List Text
  deriving DecidableEq, Repr

/-- All blocks as one group of full width, and no group when there are no blocks. -/
def Group.main (bs : List Block) : List Group :=
  if bs.isEmpty then [] else [⟨"main".toList, "full".toList, bs.map Block.name⟩]

end TemplateBlocks
