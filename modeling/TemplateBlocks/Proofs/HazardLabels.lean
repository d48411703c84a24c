import TemplateBlocks.Proofs.HazardNames
import TemplateBlocks.Proofs.LineSpans
import TemplateBlocks.Proofs.ScanOrder

/-!
# Labels of hazards

A hazard names one of the blocks whose order was checked, and when the line scan finds any block
these are the outermost ones. The diagnostic of the hazard points at the first block of that name
among all blocks of the scan. So it always points at one place, which is that of an outermost block
exactly when no nested block of the name comes first (`diagnostic_label`). A nested one can come
first, and then the diagnostic points at lines that were not checked (`diagnostic_label_nested`).
-/

namespace TemplateBlocks

/-! ### Where spans start -/

namespace Lines

variable {ls : List Text} {i j m n : Nat}

theorem start_span (hi : i - 1 < ls.length) : (span ls i j).start = offset ls (i - 1) := by
  have hne : ls.isEmpty = false := List.isEmpty_eq_false_iff.2 (List.ne_nil_of_length_pos (by omega))
  have hmin : min (i - 1) (ls.length - 1) = i - 1 := by omega
  rw [span, hne, if_neg Bool.false_ne_true]
  simp only [hmin]

theorem eq_of_span_eq (hi : 1 ≤ i ∧ i ≤ ls.length) (hm : 1 ≤ m ∧ m ≤ ls.length)
    (h : span ls i j = span ls m n) : i = m := by
  have hstart := congrArg Span.start h
  rw [start_span (by omega), start_span (by omega)] at hstart
  rcases Nat.lt_trichotomy i m with hlt | heq | hlt
  · have hoffset : offset ls (i - 1) < offset ls (m - 1) := offset_lt (by omega) (by omega)
    omega
  · exact heq
  · have hoffset : offset ls (m - 1) < offset ls (i - 1) := offset_lt (by omega) (by omega)
    omega

end Lines

/-! ### Blocks of the scan -/

section Scan

variable {s : Text} {a b : Block}

theorem eq_of_start_eq (ha : a ∈ (Scan.ofText s).blocks) (hb : b ∈ (Scan.ofText s).blocks)
    (h : a.start = b.start) : a = b :=
  List.inj_on_of_nodup_map (List.pairwise_map.2 ((pairwise_scan_starts s).imp Nat.ne_of_lt))
    ha hb h

theorem range_of_mem_scan (hb : b ∈ (Scan.ofText s).blocks) :
    1 ≤ b.start ∧ b.start ≤ s.lines.length := by
  obtain ⟨p, hp, rfl⟩ := mem_scan_blocks.1 hb
  obtain ⟨hpos, hle, hstop⟩ := range_of_mem_markerPairs hp
  exact ⟨hpos, Nat.le_trans hle hstop⟩

theorem mem_scan_of_outermost (hb : b ∈ Block.outermost (Scan.ofText s).blocks) :
    b ∈ (Scan.ofText s).blocks :=
  (Block.outermostAfter_sublist none _).subset hb

theorem outermost_ne_nil (h : (Scan.ofText s).blocks ≠ []) :
    Block.outermost (Scan.ofText s).blocks ≠ [] := by
  obtain ⟨b, hb⟩ := List.exists_mem_of_ne_nil _ h
  rcases Block.mem_outermost_or hb with hmem | ⟨o, ho, _⟩
  · exact List.ne_nil_of_mem hmem
  · exact List.ne_nil_of_mem ho

/-- What is found first in the scan starts before all else that could be found. -/
theorem start_le_of_find? {p : Block → Bool} (hfind : (Scan.ofText s).blocks.find? p = some a)
    (hb : b ∈ (Scan.ofText s).blocks) (hp : p b = true) : a.start ≤ b.start := by
  obtain ⟨_, before, behind, hblocks, hbefore⟩ := List.find?_eq_some_iff_append.1 hfind
  have hstarts := pairwise_scan_starts s
  rw [hblocks] at hb hstarts
  rcases List.mem_append.1 hb with hb | hb
  · exact absurd hp (by simpa using hbefore b hb)
  · rcases List.mem_cons.1 hb with rfl | hb
    · exact Nat.le_refl _
    · exact Nat.le_of_lt ((List.pairwise_cons.1 (List.pairwise_append.1 hstarts).2.1).1 b hb)

end Scan

/-- The bytes of the lines of a block. -/
def Block.span (s : Text) (b : Block) : Span := Lines.span s.lines b.start b.stop

/-! ### Hazards of a text -/

namespace Hazard

variable {s : Text} {h : Hazard}

/-- The hazard is one of a move of a block of the text, or of a new order of its blocks. -/
def ReportedIn (h : Hazard) (s : Text) : Prop :=
  (∃ moved after, h ∈ checkMove s moved after) ∨ ∃ original new, h ∈ checkReorder s original new

theorem ReportedIn.exists_flow (hh : h.ReportedIn s) : ∃ b ∈ BlockFlow.ofText s, b.name = h.block := by
  rcases hh with ⟨moved, after, hmem⟩ | ⟨original, new, hmem⟩
  · obtain ⟨_, b, hb, hname, _⟩ := exists_supplies_of_mem_checkMove hmem
    exact ⟨b, hb, hname.symm⟩
  · obtain ⟨_, b, hb, hname, _⟩ := exists_supplies_of_mem_checkReorder hmem
    exact ⟨b, hb, hname.symm⟩

theorem ReportedIn.exists_outermost (hh : h.ReportedIn s) (hscan : (Scan.ofText s).blocks ≠ []) :
    ∃ b ∈ Block.outermost (Scan.ofText s).blocks, b.name = h.block := by
  obtain ⟨flow, hflow, hname⟩ := hh.exists_flow
  rw [BlockFlow.ofText_of_outermost (outermost_ne_nil hscan)] at hflow
  obtain ⟨b, hb, rfl⟩ := List.mem_map.1 hflow
  exact ⟨b, hb, hname⟩

/-- The label of a diagnostic that points at a block. -/
def labelOn (s : Text) (fileId : Nat) (b : Block) : DiagnosticLabel :=
  { fileId := fileId, span := b.span s, message := "block ".toList ++ quotedName b.name }

theorem labels_diagnostic (s : Text) (fileId : Nat) (h : Hazard) : (h.diagnostic s fileId).labels =
    (((Scan.ofText s).blocks.find? fun b => b.name == h.block).map (labelOn s fileId)).toList :=
  rfl

/-- The diagnostic of a hazard has one label, on the first block of the scan that has the name. -/
theorem ReportedIn.exists_label (hh : h.ReportedIn s) (hscan : (Scan.ofText s).blocks ≠ [])
    (fileId : Nat) : ∃ b ∈ (Scan.ofText s).blocks, b.name = h.block ∧
      (∀ o ∈ (Scan.ofText s).blocks, o.name = h.block → b.start ≤ o.start) ∧
      (h.diagnostic s fileId).labels = [labelOn s fileId b] := by
  obtain ⟨o, ho, hname⟩ := hh.exists_outermost hscan
  have hsome : ((Scan.ofText s).blocks.find? fun b => b.name == h.block).isSome = true :=
    List.find?_isSome.2 ⟨o, mem_scan_of_outermost ho, by simpa using hname⟩
  obtain ⟨b, hfind⟩ := Option.isSome_iff_exists.1 hsome
  have hb : b.name = h.block := by simpa using List.find?_some hfind
  refine ⟨b, List.mem_of_find?_eq_some hfind, hb, fun o ho hname => ?_, ?_⟩
  · exact start_le_of_find? hfind ho (by simpa using hname)
  · rw [labels_diagnostic, hfind, Option.map_some, Option.toList_some]

end Hazard

/-- The diagnostic of a hazard points at the first block of the scan with the name of the hazard. It
points at an outermost block of that name exactly when no nested one starts before all of these. -/
theorem diagnostic_label {s : Text} {h : Hazard} (hscan : (Scan.ofText s).blocks ≠ [])
    (hh : h.ReportedIn s) (fileId : Nat) : ∃ label, (h.diagnostic s fileId).labels = [label] ∧
      (∃ b ∈ (Scan.ofText s).blocks, b.name = h.block ∧ label.span = b.span s ∧
        ∀ o ∈ (Scan.ofText s).blocks, o.name = h.block → b.start ≤ o.start) ∧
      ((∃ o ∈ Block.outermost (Scan.ofText s).blocks, o.name = h.block ∧ label.span = o.span s) ↔
        ∀ b ∈ (Scan.ofText s).blocks, b.name = h.block →
          ∃ o ∈ Block.outermost (Scan.ofText s).blocks, o.name = h.block ∧ o.start ≤ b.start) := by
  obtain ⟨first, hmem, hname, hfirst, hlabel⟩ := hh.exists_label hscan fileId
  refine ⟨_, hlabel, ⟨first, hmem, hname, rfl, hfirst⟩, fun hpoints b hb hbname => ?_,
    fun hbefore => ?_⟩
  · obtain ⟨o, ho, honame, hspan⟩ := hpoints
    have hstart : first.start = o.start := Lines.eq_of_span_eq (range_of_mem_scan hmem)
      (range_of_mem_scan (mem_scan_of_outermost ho)) hspan
    exact ⟨o, ho, honame, hstart ▸ hfirst b hb hbname⟩
  · obtain ⟨o, ho, honame, hle⟩ := hbefore first hmem hname
    have hstart := Nat.le_antisymm (hfirst o (mem_scan_of_outermost ho) honame) hle
    have heq := eq_of_start_eq hmem (mem_scan_of_outermost ho) hstart
    exact ⟨o, ho, honame, congrArg (Block.span s) heq⟩

/-- A block nested in the last one has the name of a block in front of it. -/
def namesakeBehind : Text := Text.join ['\n']
  ["<!-- @block:é -->".toList, "$v = 1;".toList, "<!-- @endblock:é -->".toList,
    "<!-- @block:x -->$v<!-- @endblock:x -->".toList, "<!-- @block:b -->".toList,
    "<!-- @block:x --><!-- @endblock:x -->".toList, "<!-- @endblock:b -->".toList]

theorem scan_namesakeBehind : (Scan.ofText namesakeBehind).blocks =
    [⟨"é".toList, .delimited, 1, 3, true⟩, ⟨"x".toList, .delimited, 4, 4, true⟩,
      ⟨"b".toList, .delimited, 5, 7, true⟩, ⟨"x".toList, .delimited, 6, 6, true⟩] := by
  cbv

set_option maxRecDepth 2000 in
theorem diagnostic_label_namesakeBehind :
    let h : Hazard := ⟨"x".toList, ["v".toList], .losesDefinitions⟩
    (Scan.ofText namesakeBehind).blocks ≠ [] ∧ h.ReportedIn namesakeBehind ∧
    ∃ label, (h.diagnostic namesakeBehind 0).labels = [label] ∧
      ∃ o ∈ Block.outermost (Scan.ofText namesakeBehind).blocks, o.name = "x".toList ∧
        label.span = o.span namesakeBehind := by
  intro h
  have hscan : (Scan.ofText namesakeBehind).blocks ≠ [] := by
    rw [scan_namesakeBehind]
    exact List.cons_ne_nil _ _
  have hloses : checkMove namesakeBehind "é".toList "x".toList = [h] := by
    cbv
  have hh : h.ReportedIn namesakeBehind :=
    .inl ⟨"é".toList, "x".toList, by rw [hloses]; exact List.mem_cons_self⟩
  obtain ⟨label, hlabel, _, hpoints⟩ := diagnostic_label hscan hh 0
  refine ⟨hscan, hh, label, hlabel, hpoints.2 ?_⟩
  rw [scan_namesakeBehind]
  decide

/-- A block nested in the first one has the name of the last block. -/
def namesakeAhead : Text := Text.join ['\n']
  ["<!-- @block:a -->".toList, "$v = 1;".toList, "<!-- @block:x -->".toList,
    "<!-- @endblock:x -->".toList, "<!-- @endblock:a -->".toList, "<!-- @block:x -->".toList,
    "$v".toList, "<!-- @endblock:x -->".toList]

theorem scan_namesakeAhead : (Scan.ofText namesakeAhead).blocks =
    [⟨"a".toList, .delimited, 1, 5, true⟩, ⟨"x".toList, .delimited, 3, 4, true⟩,
      ⟨"x".toList, .delimited, 6, 8, true⟩] := by
  cbv

theorem diagnostic_label_nested :
    let h : Hazard := ⟨"x".toList, ["v".toList], .providesDefinitions⟩
    (Scan.ofText namesakeAhead).blocks ≠ [] ∧ checkMove namesakeAhead "x".toList [] = [h] ∧
    (h.diagnostic namesakeAhead 0).labels.map DiagnosticLabel.span =
      [Lines.span namesakeAhead.lines 3 4] ∧
    ∀ o ∈ Block.outermost (Scan.ofText namesakeAhead).blocks, o.name = "x".toList →
      o.span namesakeAhead = Lines.span namesakeAhead.lines 6 8 ∧
      o.span namesakeAhead ≠ Lines.span namesakeAhead.lines 3 4 := by
  intro h
  refine ⟨?_, by cbv, ?_, ?_⟩
  · rw [scan_namesakeAhead]
    exact List.cons_ne_nil _ _
  · rw [Hazard.labels_diagnostic, scan_namesakeAhead]
    rfl
  · rw [scan_namesakeAhead]
    decide

end TemplateBlocks
