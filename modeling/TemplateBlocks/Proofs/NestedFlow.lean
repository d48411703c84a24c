import TemplateBlocks.Proofs.ListReaders
import TemplateBlocks.Proofs.Pairing
import TemplateBlocks.Reorder

/-!
# Flow of nested blocks

The readers of variables are steady, so a block whose lines are among those of another has no
variable that the other misses (`Flow.ofCode_includes`). Every block of the line scan is covered by
an outermost one, and the flows are those of the outermost blocks (`scanned_flow_included`).
-/

namespace TemplateBlocks

/-! ### Flows that include others -/

/-- The variables of the flow `f` are variables of the flow `g`. -/
def Flow.Includes (g f : Flow) : Prop :=
  f.definitions.toList ⊆ g.definitions.toList ∧ f.usages.toList ⊆ g.usages.toList

namespace Flow

theorem mem_definitionsOf {n code : Text} : n ∈ (definitionsOf code).toList ↔
    n ∈ Text.found (fun _ => Code.assignment) (fun n => [n]) none code ∨
      n ∈ Text.found Code.binding id none code ∨
      n ∈ Text.found (fun _ => Code.destructuring) id none code := by
  simp [definitionsOf, Text.allMatches, Text.found]

theorem mem_usagesOf {n code : Text} : n ∈ (usagesOf code).toList ↔
    n ∈ Text.found (fun _ => Code.reference) (fun n => [n]) none code ∧ n ∉ ambientNames := by
  simp [usagesOf, Text.allMatches, Text.found]

/-- The flow of lines that begin with a comment is included in that of the same lines among
others. -/
theorem ofCode_includes (as bs : List Text) {v : Text} (hv : Blanks v) (r : Text) :
    (ofCode (Text.terminated as ++ (v ++ (Marker.commentStart ++ r)) ++
      Text.introduced bs)).Includes (ofCode (v ++ (Marker.commentStart ++ r))) := by
  constructor
  · intro n hn
    exact mem_definitionsOf.2 ((mem_definitionsOf.1 hn).imp
      (Code.steady_assignment.found_subset as bs hv r ·)
      (Or.imp (Code.steady_binding.found_subset as bs hv r ·)
        (Code.steady_destructuring.found_subset as bs hv r ·)))
  · intro n hn
    obtain ⟨hfound, hambient⟩ := mem_usagesOf.1 hn
    exact mem_usagesOf.2 ⟨Code.steady_reference.found_subset as bs hv r hfound, hambient⟩

end Flow

/-! ### Lines within lines -/

namespace Lines

theorem exists_slice_eq (ls : List Text) {i i' j j' : Nat} (hi : i ≤ i') (hj : j' ≤ j) :
    ∃ as bs, slice ls i j = as ++ slice ls i' j' ++ bs := by
  have htake : ls.take j' ++ (ls.take j).drop j' = ls.take j := by
    rw [← Nat.min_eq_left hj, ← List.take_take, Nat.min_eq_left hj, List.take_append_drop]
  have hdrop : ((ls.take j').drop (i - 1)).drop (i' - 1 - (i - 1)) =
      (ls.take j').drop (i' - 1) := by
    rw [List.drop_drop, Nat.add_sub_of_le (Nat.sub_le_sub_right hi 1)]
  refine ⟨((ls.take j').drop (i - 1)).take (i' - 1 - (i - 1)),
    ((ls.take j).drop j').drop (i - 1 - (ls.take j').length), ?_⟩
  rw [slice, slice, ← hdrop, List.take_append_drop, ← List.drop_append, htake]

theorem exists_slice_eq_cons {ls : List Text} {i j : Nat} {l : Text} (hi : 1 ≤ i) (hij : i ≤ j)
    (hl : ls[i - 1]? = some l) : ∃ rest, slice ls i j = l :: rest := by
  obtain ⟨hlt, rfl⟩ := List.getElem?_eq_some_iff.1 hl
  have hlen : i - 1 < (ls.take j).length := by
    rw [List.length_take]
    omega
  refine ⟨(ls.take j).drop (i - 1 + 1), ?_⟩
  rw [slice, List.drop_eq_getElem_cons hlen, List.getElem_take]

end Lines

/-! ### The lines of a block -/

/-- A block of the line scan covers lines, and they begin with a comment. -/
theorem exists_lines_of_scanned {s : Text} {b : Block} (hb : b ∈ (Scan.ofText s).blocks) :
    ∃ l rest v r, Lines.slice s.lines b.start b.stop = l :: rest ∧ Blanks v ∧
      l = v ++ (Marker.commentStart ++ r) := by
  obtain ⟨p, hp, rfl⟩ := mem_scan_blocks.1 hb
  obtain ⟨hopen, _, hle⟩ := events_of_mem_markerPairs hp
  obtain ⟨hone, l, hl, hevent⟩ := mem_eventsFrom_iff.1 hopen
  obtain ⟨rest, hslice⟩ := Lines.exists_slice_eq_cons hone hle hl
  obtain ⟨_, m, t, hm, htrim⟩ := (MarkerEvent.lineSpells_ofLine l.trim).opens hevent
  obtain ⟨u, rfl⟩ := hm.exists_eq_cons
  obtain ⟨v, w, hv, _, hsplit⟩ := l.exists_trim
  exact ⟨l, rest, v, u ++ (t ++ w), hslice, hv, by rw [hsplit, htrim]; simp⟩

/-- The flow of a block of the line scan is included in that of each block whose lines contain its
lines. -/
theorem includes_of_contains {s : Text} {o b : Block} (hb : b ∈ (Scan.ofText s).blocks)
    (hcontains : o.contains b = true) :
    (Flow.ofCode (Lines.text s.lines o.start o.stop)).Includes
      (Flow.ofCode (Lines.text s.lines b.start b.stop)) := by
  obtain ⟨l, rest, v, r, hslice, hv, rfl⟩ := exists_lines_of_scanned hb
  obtain ⟨hstart, hstop⟩ := (Block.contains_iff o b).1 hcontains
  obtain ⟨as, bs, houter⟩ := Lines.exists_slice_eq s.lines hstart hstop
  have hincludes := Flow.ofCode_includes as bs hv (r ++ Text.introduced rest)
  have hb : Lines.text s.lines b.start b.stop =
      v ++ (Marker.commentStart ++ (r ++ Text.introduced rest)) := by
    rw [Lines.text, hslice, Text.join_cons]
    simp
  have ho : Lines.text s.lines o.start o.stop = Text.terminated as ++
      (v ++ (Marker.commentStart ++ (r ++ Text.introduced rest))) ++ Text.introduced bs := by
    rw [Lines.text, houter, hslice, List.append_assoc, List.cons_append, Text.join_append_cons,
      Text.introduced_append]
    simp
  rw [hb, ho]
  exact hincludes

theorem flow_mem_of_outermost {s : Text} {o : Block}
    (ho : o ∈ Block.outermost (Scan.ofText s).blocks) :
    ⟨o.name, .ofCode (Lines.text s.lines o.start o.stop)⟩ ∈ BlockFlow.ofText s := by
  rw [BlockFlow.ofText_of_outermost (List.ne_nil_of_mem ho)]
  exact List.mem_map_of_mem ho

/-- The lines of a block of the line scan are among those of an outermost block, and the flow of
this block, which is one of the flows of the text, has all variables that occur on them. -/
theorem scanned_flow_included {s : Text} {b : Block} (hb : b ∈ (Scan.ofText s).blocks) :
    ∃ o ∈ Block.outermost (Scan.ofText s).blocks, o.contains b = true ∧
      (Flow.ofCode (Lines.text s.lines o.start o.stop)).Includes
        (Flow.ofCode (Lines.text s.lines b.start b.stop)) ∧
      ⟨o.name, .ofCode (Lines.text s.lines o.start o.stop)⟩ ∈ BlockFlow.ofText s := by
  have hcover : ∃ o ∈ Block.outermost (Scan.ofText s).blocks, o.contains b = true := by
    rcases Block.mem_outermost_or hb with hmem | hcover
    · exact ⟨b, hmem, by simp⟩
    · exact hcover
  obtain ⟨o, ho, hcontains⟩ := hcover
  exact ⟨o, ho, hcontains, includes_of_contains hb hcontains, flow_mem_of_outermost ho⟩

/-- A block nested in another, and a third one that crosses it. -/
def crossingBlocks : Text := Text.join ['\n']
  ["<!-- @block:a --> $x".toList, "  <!-- @block:b --> [$y,".toList, "$z] = 1;".toList,
    "  <!-- @endblock:b -->".toList, "<!-- @block:c -->".toList, "<!-- @endblock:a -->".toList,
    "<!-- @endblock:c -->".toList]

theorem nested_flow_included :
    (⟨"b".toList, .delimited, 2, 4, true⟩ : Block) ∈ (Scan.ofText crossingBlocks).blocks ∧
      ∃ o ∈ Block.outermost (Scan.ofText crossingBlocks).blocks,
        o.contains ⟨"b".toList, .delimited, 2, 4, true⟩ = true ∧
        (Flow.ofCode (Lines.text crossingBlocks.lines o.start o.stop)).Includes
          (Flow.ofCode (Lines.text crossingBlocks.lines 2 4)) ∧
        ⟨o.name, .ofCode (Lines.text crossingBlocks.lines o.start o.stop)⟩ ∈
          BlockFlow.ofText crossingBlocks := by
  have hb : (⟨"b".toList, .delimited, 2, 4, true⟩ : Block) ∈
      (Scan.ofText crossingBlocks).blocks := by
    have hpairs : pairMarkers (MarkerEvent.ofLines crossingBlocks.lines) [] =
        ([⟨⟨.directive, "b".toList⟩, 2, 4⟩, ⟨⟨.directive, "a".toList⟩, 1, 6⟩,
          ⟨⟨.directive, "c".toList⟩, 5, 7⟩], []) := by
      decide +kernel
    rw [scan_blocks_of_pairs hpairs, Block.mem_sort]
    decide
  exact ⟨hb, scanned_flow_included hb⟩

end TemplateBlocks
