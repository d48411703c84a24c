import TemplateBlocks.Detect.Conditional
import TemplateBlocks.Proofs.ControlWords
import TemplateBlocks.Proofs.LineText

/-!
# Nested structures

A template is well nested when it is made of text lines and of structures that hold items in turn,
each header, continuation and closing word on a line of its own. However deep the structures are
nested, they are balanced, and the conditionals are the outermost structures, each from the line of
its header to the line of its closing word (`nested_recognised`).
-/

namespace TemplateBlocks

namespace Control

/-! ### Templates as trees -/

/-- One line in which no word of a control structure stands. -/
structure PlainLine where
  text : Text
  oneLine : '\n' ∉ text
  plain : text.Lacks (openWords ++ closeWords)

/-- What a header holds in parentheses. -/
structure Condition extends PlainLine where
  ne_nil : text ≠ []

inductive Loop
  | foreachLoop
  | forLoop
  | whileLoop
  deriving DecidableEq, Repr

def Loop.word : Loop → Text
  | foreachLoop => "foreach".toList
  | forLoop => "for".toList
  | whileLoop => "while".toList

def Loop.closeWord : Loop → Text
  | foreachLoop => "endforeach".toList
  | forLoop => "endfor".toList
  | whileLoop => "endwhile".toList

mutual

/-- Text lines and structures, one behind the other. -/
inductive Items
  | nil
  | text (line : PlainLine) (rest : Items)
  | choice (condition : Condition) (body : Items) (branches : Branches) (rest : Items)
  | loop (kind : Loop) (condition : Condition) (body rest : Items)

/-- How a structure that begins with `if` goes on behind its first items. -/
inductive Branches
  | close
  | otherwise (body : Items)
  | elseIf (condition : Condition) (body : Items) (more : Branches)

end

mutual

def Items.lines : Items → List Text
  | .nil => []
  | .text line rest => line.text :: rest.lines
  | .choice condition body branches rest =>
    headerLine "if".toList condition.text :: (body.lines ++ (branches.lines ++ rest.lines))
  | .loop kind condition body rest =>
    headerLine kind.word condition.text :: (body.lines ++ closerLine kind.closeWord :: rest.lines)

def Branches.lines : Branches → List Text
  | .close => [closerLine "endif".toList]
  | .otherwise body => elseLine :: (body.lines ++ [closerLine "endif".toList])
  | .elseIf condition body more =>
    headerLine "elseif".toList condition.text :: (body.lines ++ more.lines)

end

def Items.toText (items : Items) : Text := Text.join ['\n'] items.lines

/-- The first and the last line of each outermost structure, when line `n` is the first of all. -/
def Items.structures (n : Nat) : Items → List (Nat × Nat)
  | .nil => []
  | .text _ rest => rest.structures (n + 1)
  | .choice _ body branches rest =>
    let last := n + body.lines.length + branches.lines.length
    (n, last) :: rest.structures (last + 1)
  | .loop _ _ body rest =>
    let last := n + body.lines.length + 1
    (n, last) :: rest.structures (last + 1)

variable {line w : Text} {d n : Nat} {ls : List Text}

/-! ### Counts of the lines -/

theorem PlainLine.counts (l : PlainLine) : Counts l.text 0 0 := counts_of_lacks l.plain

theorem Condition.counts_if (c : Condition) : Counts (headerLine "if".toList c.text) 1 0 :=
  counts_headerLine (by decide) c.oneLine c.plain

theorem Condition.counts_elseIf (c : Condition) : Counts (headerLine "elseif".toList c.text) 0 0 :=
  counts_elseIfLine c.plain

theorem Condition.counts_loop (c : Condition) (kind : Loop) :
    Counts (headerLine kind.word c.text) 1 0 := by
  refine counts_headerLine ?_ c.oneLine c.plain
  cases kind with
  | foreachLoop => decide
  | forLoop => decide
  | whileLoop => decide

theorem Loop.counts_close (kind : Loop) : Counts (closerLine kind.closeWord) 0 1 := by
  refine counts_closerLine ?_
  cases kind with
  | foreachLoop => decide
  | forLoop => decide
  | whileLoop => decide

theorem counts_endif : Counts (closerLine "endif".toList) 0 1 := counts_closerLine (by decide)

/-! ### Balance -/

theorem Counts.balancedFrom_plain (h : Counts line 0 0) (d : Nat) (ls : List Text) :
    balancedFrom d (line :: ls) = balancedFrom d ls := by
  simp [balancedFrom, h.opens, h.closes]

theorem Counts.balancedFrom_open (h : Counts line 1 0) (d : Nat) (ls : List Text) :
    balancedFrom d (line :: ls) = balancedFrom (d + 1) ls := by
  simp [balancedFrom, h.opens, h.closes]

theorem Counts.balancedFrom_close (h : Counts line 0 1) (d : Nat) (ls : List Text) :
    balancedFrom (d + 1) (line :: ls) = balancedFrom d ls := by
  simp [balancedFrom, h.opens, h.closes]

mutual

/-- Items leave the number of open structures as it was. -/
theorem Items.balancedFrom_lines (items : Items) (d : Nat) (ls : List Text) :
    balancedFrom d (items.lines ++ ls) = balancedFrom d ls := by
  cases items with
  | nil => rfl
  | text line rest =>
    rw [Items.lines, List.cons_append, line.counts.balancedFrom_plain, rest.balancedFrom_lines]
  | choice condition body branches rest =>
    rw [Items.lines, List.cons_append, List.append_assoc, List.append_assoc,
      condition.counts_if.balancedFrom_open, body.balancedFrom_lines, branches.balancedFrom_lines,
      rest.balancedFrom_lines]
  | loop kind condition body rest =>
    rw [Items.lines, List.cons_append, List.append_assoc, List.cons_append,
      (condition.counts_loop kind).balancedFrom_open, body.balancedFrom_lines,
      kind.counts_close.balancedFrom_close, rest.balancedFrom_lines]

/-- The branches of a structure end with its closing word. -/
theorem Branches.balancedFrom_lines (branches : Branches) (d : Nat) (ls : List Text) :
    balancedFrom (d + 1) (branches.lines ++ ls) = balancedFrom d ls := by
  cases branches with
  | close =>
    rw [Branches.lines, List.singleton_append, counts_endif.balancedFrom_close]
  | otherwise body =>
    rw [Branches.lines, List.cons_append, List.append_assoc, List.singleton_append,
      counts_elseLine.balancedFrom_plain, body.balancedFrom_lines, counts_endif.balancedFrom_close]
  | elseIf condition body more =>
    rw [Branches.lines, List.cons_append, List.append_assoc,
      condition.counts_elseIf.balancedFrom_plain, body.balancedFrom_lines, more.balancedFrom_lines]

end

theorem Items.balanced_lines (items : Items) : balanced items.lines = true := by
  have h := items.balancedFrom_lines 0 []
  rwa [List.append_nil] at h

/-! ### The text of a tree -/

theorem newline_not_mem_headerLine {condition : Text} (hw : '\n' ∉ w) (hc : '\n' ∉ condition) :
    '\n' ∉ headerLine w condition := by
  have hstart : '\n' ∉ lineStart := by decide
  have hparen : '\n' ∉ " (".toList := by decide
  have hend : '\n' ∉ ") : ?>".toList := by decide
  simp only [headerLine, List.mem_append, not_or]
  exact ⟨hstart, hw, hparen, hc, hend⟩

theorem newline_not_mem_closerLine (hw : '\n' ∉ w) : '\n' ∉ closerLine w := by
  have hstart : '\n' ∉ lineStart := by decide
  have hend : '\n' ∉ "; ?>".toList := by decide
  simp only [closerLine, List.mem_append, not_or]
  exact ⟨hstart, hw, hend⟩

mutual

theorem Items.newline_not_mem (items : Items) : ∀ l ∈ items.lines, '\n' ∉ l := by
  cases items with
  | nil => exact fun _ h => absurd h List.not_mem_nil
  | text line rest =>
    exact List.forall_mem_cons.2 ⟨line.oneLine, rest.newline_not_mem⟩
  | choice condition body branches rest =>
    refine List.forall_mem_cons.2 ⟨newline_not_mem_headerLine (by decide) condition.oneLine, ?_⟩
    exact List.forall_mem_append.2 ⟨body.newline_not_mem,
      List.forall_mem_append.2 ⟨branches.newline_not_mem, rest.newline_not_mem⟩⟩
  | loop kind condition body rest =>
    have hword : '\n' ∉ kind.word ∧ '\n' ∉ kind.closeWord := by
      cases kind with
      | foreachLoop => decide
      | forLoop => decide
      | whileLoop => decide
    refine List.forall_mem_cons.2 ⟨newline_not_mem_headerLine hword.1 condition.oneLine, ?_⟩
    exact List.forall_mem_append.2 ⟨body.newline_not_mem,
      List.forall_mem_cons.2 ⟨newline_not_mem_closerLine hword.2, rest.newline_not_mem⟩⟩

theorem Branches.newline_not_mem (branches : Branches) : ∀ l ∈ branches.lines, '\n' ∉ l := by
  have hclose : ∀ l ∈ [closerLine "endif".toList], '\n' ∉ l := by decide
  cases branches with
  | close => exact hclose
  | otherwise body =>
    refine List.forall_mem_cons.2 ⟨by decide, ?_⟩
    exact List.forall_mem_append.2 ⟨body.newline_not_mem, hclose⟩
  | elseIf condition body more =>
    refine List.forall_mem_cons.2 ⟨newline_not_mem_headerLine (by decide) condition.oneLine, ?_⟩
    exact List.forall_mem_append.2 ⟨body.newline_not_mem, more.newline_not_mem⟩

end

/-- The lines of the text are the lines of the items, but a text of one empty line has no lines. -/
theorem Items.lines_toText (items : Items) :
    items.toText.lines = items.lines ∨ items.toText.lines = [] ∧ items.lines = [[]] := by
  by_cases hempty : items.toText = []
  · have hlines : items.lines = [] ∨ items.lines = [[]] := by
      rw [Items.toText] at hempty
      cases hls : items.lines with
      | nil => exact .inl rfl
      | cons l ls =>
        rw [hls, Text.join_cons, List.append_eq_nil_iff] at hempty
        cases ls with
        | nil => exact .inr (by rw [hempty.1])
        | cons m ls => simp at hempty
    rw [hempty]
    exact hlines.imp (fun h => h.symm) fun h => ⟨rfl, h⟩
  · exact .inl (Text.lines_join hempty items.newline_not_mem)

theorem Branches.length_lines_pos (branches : Branches) : 0 < branches.lines.length := by
  cases branches with
  | close => simp [Branches.lines]
  | otherwise body => simp [Branches.lines]
  | elseIf condition body more => simp [Branches.lines]

end Control

namespace Detect

open Control

variable {line : Text} {n : Nat} {stack : List OpenControl}

/-! ### The stack on the lines of a tree -/

theorem conditionalsFrom_plain (h : Counts line 0 0) (stack : List OpenControl) (n : Nat)
    (ls : List (Text × Nat)) :
    conditionalsFrom stack ((line, n) :: ls) = conditionalsFrom stack ls := by
  simp [conditionalsFrom, endedBy, stackAfter, popCloses, pushOpens, h.opens, h.closes, Nat.repeat]

theorem conditionalsFrom_open (h : Counts line 1 0) (stack : List OpenControl) (n : Nat) :
    ∃ label, ∀ ls, conditionalsFrom stack ((line, n) :: ls) =
      conditionalsFrom (⟨n, label, stack.length⟩ :: stack) ls := by
  have hpush : ∃ label, pushOpen line n stack = ⟨n, label, stack.length⟩ :: stack := ⟨_, rfl⟩
  obtain ⟨label, hlabel⟩ := hpush
  refine ⟨label, fun ls => ?_⟩
  simp [conditionalsFrom, endedBy, stackAfter, popCloses, pushOpens, h.opens, h.closes, Nat.repeat,
    hlabel]

theorem conditionalsFrom_close (h : Counts line 0 1) (c : OpenControl) (stack : List OpenControl)
    (n : Nat) (ls : List (Text × Nat)) : conditionalsFrom (c :: stack) ((line, n) :: ls) =
      (c.ended? n).toList ++ conditionalsFrom stack ls := by
  cases hc : c.ended? n with
  | none =>
    simp [conditionalsFrom, endedBy, stackAfter, popCloses, pushOpens, h.opens, h.closes,
      Nat.repeat, hc]
  | some b =>
    simp [conditionalsFrom, endedBy, stackAfter, popCloses, pushOpens, h.opens, h.closes,
      Nat.repeat, hc]

/-- A structure that is not at the top level makes no conditional. -/
theorem ended?_inside (h : stack ≠ []) (label : Option Text) (k n : Nat) :
    OpenControl.ended? ⟨k, label, stack.length⟩ n = none := by
  have hdepth : stack.length ≠ 0 := fun hzero => h (List.length_eq_zero_iff.1 hzero)
  simp [OpenControl.ended?, hdepth]

mutual

/-- Within an open structure items make no conditionals and leave the stack as it was. -/
theorem conditionalsFrom_inside (items : Items) (stack : List OpenControl) (h : stack ≠ [])
    (n : Nat) (ls : List (Text × Nat)) :
    conditionalsFrom stack (items.lines.zipIdx n ++ ls) = conditionalsFrom stack ls := by
  cases items with
  | nil => rfl
  | text line rest =>
    rw [Items.lines, List.zipIdx_cons, List.cons_append, conditionalsFrom_plain line.counts,
      conditionalsFrom_inside rest stack h]
  | choice condition body branches rest =>
    obtain ⟨label, hopen⟩ := conditionalsFrom_open condition.counts_if stack n
    rw [Items.lines, List.zipIdx_cons, List.zipIdx_append, List.zipIdx_append, List.cons_append,
      List.append_assoc, List.append_assoc, hopen,
      conditionalsFrom_inside body _ (List.cons_ne_nil _ _), Nat.add_right_comm,
      conditionalsFrom_branches branches, ended?_inside h, conditionalsFrom_inside rest stack h]
    rfl
  | loop kind condition body rest =>
    obtain ⟨label, hopen⟩ := conditionalsFrom_open (condition.counts_loop kind) stack n
    rw [Items.lines, List.zipIdx_cons, List.zipIdx_append, List.zipIdx_cons, List.cons_append,
      List.append_assoc, List.cons_append, hopen,
      conditionalsFrom_inside body _ (List.cons_ne_nil _ _),
      conditionalsFrom_close kind.counts_close, ended?_inside h,
      conditionalsFrom_inside rest stack h]
    rfl

/-- The branches of a structure end it on their last line. -/
theorem conditionalsFrom_branches (branches : Branches) (c : OpenControl)
    (stack : List OpenControl) (n : Nat) (ls : List (Text × Nat)) :
    conditionalsFrom (c :: stack) (branches.lines.zipIdx (n + 1) ++ ls) =
      (c.ended? (n + branches.lines.length)).toList ++ conditionalsFrom stack ls := by
  cases branches with
  | close =>
    rw [Branches.lines, List.zipIdx_singleton, List.singleton_append,
      conditionalsFrom_close counts_endif]
    rfl
  | otherwise body =>
    have hlast : n + 1 + 1 + body.lines.length =
        n + (elseLine :: (body.lines ++ [closerLine "endif".toList])).length := by
      simp only [List.length_cons, List.length_append, List.length_nil]
      omega
    rw [Branches.lines, List.zipIdx_cons, List.zipIdx_append, List.zipIdx_singleton,
      List.cons_append, List.append_assoc, List.singleton_append,
      conditionalsFrom_plain counts_elseLine,
      conditionalsFrom_inside body _ (List.cons_ne_nil _ _),
      conditionalsFrom_close counts_endif, hlast]
  | elseIf condition body more =>
    have hlast : n + 1 + body.lines.length + more.lines.length =
        n + (headerLine "elseif".toList condition.text :: (body.lines ++ more.lines)).length := by
      simp only [List.length_cons, List.length_append]
      omega
    rw [Branches.lines, List.zipIdx_cons, List.zipIdx_append, List.cons_append, List.append_assoc,
      conditionalsFrom_plain condition.counts_elseIf,
      conditionalsFrom_inside body _ (List.cons_ne_nil _ _), Nat.add_right_comm,
      conditionalsFrom_branches more, hlast]

end

/-- A structure at the top level makes a conditional when it is closed on a later line. -/
theorem ended?_outermost {m : Nat} (h : n < m) (label : Option Text) :
    (OpenControl.ended? ⟨n, label, ([] : List OpenControl).length⟩ m).toList.map
      (fun b => (b.start, b.stop)) = [(n, m)] := by
  simp [OpenControl.ended?, h, OpenControl.block]

/-- At the top level each structure makes one conditional, from its first line to its last. -/
theorem ranges_conditionalsFrom (items : Items) (n : Nat) (ls : List (Text × Nat)) :
    (conditionalsFrom [] (items.lines.zipIdx n ++ ls)).map (fun b => (b.start, b.stop)) =
      items.structures n ++ (conditionalsFrom [] ls).map fun b => (b.start, b.stop) := by
  match items with
  | .nil => rfl
  | .text line rest =>
    rw [Items.lines, List.zipIdx_cons, List.cons_append, conditionalsFrom_plain line.counts,
      ranges_conditionalsFrom rest, Items.structures]
  | .choice condition body branches rest =>
    obtain ⟨label, hopen⟩ := conditionalsFrom_open condition.counts_if [] n
    have hlt : n < n + body.lines.length + branches.lines.length := by
      have := branches.length_lines_pos
      omega
    have hfirst : n + 1 + body.lines.length = n + body.lines.length + 1 := Nat.add_right_comm ..
    have hnext : n + body.lines.length + 1 + branches.lines.length =
        n + body.lines.length + branches.lines.length + 1 := Nat.add_right_comm ..
    rw [Items.lines, List.zipIdx_cons, List.zipIdx_append, List.zipIdx_append, List.cons_append,
      List.append_assoc, List.append_assoc, hopen,
      conditionalsFrom_inside body _ (List.cons_ne_nil _ _), hfirst,
      conditionalsFrom_branches branches, List.map_append, ended?_outermost hlt, hnext,
      ranges_conditionalsFrom rest, Items.structures]
    rfl
  | .loop kind condition body rest =>
    obtain ⟨label, hopen⟩ := conditionalsFrom_open (condition.counts_loop kind) [] n
    have hlt : n < n + body.lines.length + 1 := by omega
    have hfirst : n + 1 + body.lines.length = n + body.lines.length + 1 := Nat.add_right_comm ..
    rw [Items.lines, List.zipIdx_cons, List.zipIdx_append, List.zipIdx_cons, List.cons_append,
      List.append_assoc, List.cons_append, hopen,
      conditionalsFrom_inside body _ (List.cons_ne_nil _ _),
      conditionalsFrom_close kind.counts_close, List.map_append, hfirst, ended?_outermost hlt,
      ranges_conditionalsFrom rest, Items.structures]
    rfl

end Detect

/-- A well-nested template is balanced, and its conditionals are its outermost structures, in their
order, each from the line of its header to the line of its closing word. -/
theorem nested_recognised (items : Control.Items) :
    Control.balanced items.lines = true ∧ Control.balanced items.toText.lines = true ∧
    (Detect.conditionals items.toText.lines).map (fun b => (b.start, b.stop)) =
      items.structures 1 := by
  have hlines : (Detect.conditionals items.lines).map (fun b => (b.start, b.stop)) =
      items.structures 1 := by
    have hranges := Detect.ranges_conditionalsFrom items 1 []
    rwa [List.append_nil, show Detect.conditionalsFrom [] [] = [] from rfl, List.map_nil,
      List.append_nil] at hranges
  have hbalanced := items.balanced_lines
  rcases items.lines_toText with htext | ⟨htext, hempty⟩
  · rw [htext]
    exact ⟨hbalanced, hbalanced, hlines⟩
  · have hnone : Detect.conditionals [[]] = Detect.conditionals [] := by decide +kernel
    rw [hempty, hnone] at hlines
    rw [htext]
    exact ⟨hbalanced, rfl, hlines⟩

def ternary : Control.Condition := ⟨⟨"$a ? ($b) : $c".toList, by decide, by decide⟩, by decide⟩

def information : Control.PlainLine :=
  ⟨"information (format) : endless".toList, by decide, by decide⟩

-- The header of the loop stands on line 3, within the structure of lines 1 to 7.
example :
    let items : Control.Items := .choice ternary
      (.text information (.loop .forLoop ternary .nil .nil))
      (.elseIf ternary .nil (.otherwise .nil)) (.text information .nil)
    items.structures 1 = [(1, 7)] ∧
      (Detect.conditionals items.toText.lines).map (fun b => (b.start, b.stop)) = [(1, 7)] := by
  decide +kernel

end TemplateBlocks
