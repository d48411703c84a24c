import TemplateBlocks.Diagnostic
import TemplateBlocks.Proofs.Matching

/-!
# Repairs of a text

A notice about a marker that is never closed quotes the marker that would close it. The quoted
marker is read as closing just that name (`Marker.ofLine_closingText`), so a text with the quoted
markers of all its notices behind it, the last notice first, has no notices, and one more block for
each of them (`repair_closes_each`).
-/

namespace TemplateBlocks

/-! ### What the line scan opens -/

namespace MarkerEvent

variable {key : MarkerKey} {l : Text}

theorem readable_of_opens (h : .opens key ∈ ofLine l) :
    Marker.Readable key.dialect key.name := by
  unfold ofLine at h
  split at h
  · rename_i name rest hopen
    obtain rfl : key = ⟨.directive, name⟩ := by simpa using h
    exact Marker.directiveText_of_directive hopen
  · split at h
    · simp at h
    · split at h
      · rename_i name hbanner
        have hwords := Marker.bannerWords_of_banner hbanner
        rw [List.mem_singleton, ofBanner] at h
        split at h
        · simp at h
        · obtain rfl := opens.inj h
          exact hwords
      · exact absurd h List.not_mem_nil

theorem readable_of_ofLines {ls : List Text} {n : Nat} (h : (.opens key, n) ∈ ofLines ls) :
    Marker.Readable key.dialect key.name := by
  obtain ⟨_, l, _, hl⟩ := mem_eventsFrom_iff.1 h
  exact readable_of_opens hl

end MarkerEvent

/-! ### Closing what is open -/

/-- The events that close the given markers in turn, on lines from `k` on. -/
def closingEvents (k : Nat) (ms : List OpenMarker) : List (MarkerEvent × Nat) :=
  (ms.zipIdx k).map fun m => (.closes m.1.key, m.2)

def OpenMarker.pair (m : OpenMarker) (n : Nat) : MarkerPair := ⟨m.key, m.line, n⟩

def OpenMarker.closing (m : OpenMarker) : Text := Marker.closingText m.key.dialect m.key.name

theorem eventsFrom_closing {ms : List OpenMarker}
    (h : ∀ m ∈ ms, Marker.Readable m.key.dialect m.key.name) (k : Nat) :
    eventsFrom k (ms.map OpenMarker.closing) = closingEvents k ms := by
  induction ms generalizing k with
  | nil => rfl
  | cons m ms ih =>
    have htrim : m.closing.trim = m.closing := by
      rw [OpenMarker.closing, Marker.closingText_eq, Marker.trim_plainComment]
    have hline : MarkerEvent.ofLine m.closing = [.closes m.key] :=
      Marker.ofLine_closingText (h m (List.mem_cons_self ..))
    rw [List.map_cons, eventsFrom_cons, htrim, hline,
      ih (fun x hx => h x (List.mem_cons_of_mem m hx))]
    rfl

/-- Closing the open markers in turn, the latest first, pairs each with its own closing marker. -/
theorem pairMarkers_closingEvents (k : Nat) (ms : List OpenMarker) :
    pairMarkers (closingEvents k ms) ms = ((ms.zipIdx k).map fun m => m.1.pair m.2, []) := by
  induction ms generalizing k with
  | nil => rfl
  | cons m ms ih =>
    have htake : takeOpen m.key (m :: ms) = some (m, ms) := by simp [takeOpen]
    have hevents : closingEvents k (m :: ms) =
        (.closes m.key, k) :: closingEvents (k + 1) ms := rfl
    rw [hevents, pairMarkers, htake]
    simp only [ih (k + 1)]
    rfl

/-! ### The order of blocks -/

/-- Blocks that start on different lines are sorted the same in any order. -/
theorem Block.sort_congr {as bs : List Block} (h : as.Perm bs) (hnodup : (as.map start).Nodup) :
    sort as = sort bs := by
  have hperm : (sort as).Perm (sort bs) := ((sort_perm as).trans h).trans (sort_perm bs).symm
  refine List.Perm.eq_of_pairwise (fun a b ha hb hab hba => ?_) (sort_ordered as) (sort_ordered bs)
    hperm
  exact List.inj_on_of_nodup_map hnodup (mem_sort.1 ha) (h.mem_iff.2 (mem_sort.1 hb))
    (Nat.le_antisymm hab hba)

/-! ### Quoted markers -/

namespace Notice

def quoteStart : Text := "expected a matching ".toList ++ "`".toList

def quoteEnd : Text := "`".toList ++ "; the marker is ignored".toList

/-- The markers that the notes of a notice quote. -/
def quoted (w : Notice) : List Text :=
  w.notes.map fun note => (note.dropStart quoteStart).dropEnd quoteEnd

/-- The text with the markers that the notices quote behind it, those of the last notice first,
each on a new line. -/
def repair (ws : List Notice) (s : Text) : Text :=
  Text.join ['\n'] (s :: ws.reverse.flatMap quoted)

end Notice

theorem append_quotedName (a name b : Text) : a ++ quotedName name ++ b =
    (a ++ "`".toList) ++ (name ++ ("`".toList ++ b)) := by
  simp only [quotedName, List.append_assoc]

theorem OpenMarker.quoted_notice (ls : List Text) (fileId : Nat) (m : OpenMarker) :
    (m.notice ls fileId).quoted = [m.closing] := by
  have hnote : (m.notice ls fileId).notes =
      [Notice.quoteStart ++ (m.closing ++ Notice.quoteEnd)] :=
    congrArg (fun note => [note]) (append_quotedName _ m.closing _)
  rw [Notice.quoted, hnote, List.map_singleton, Text.dropStart_append, Text.dropEnd_append]

theorem OpenMarker.notice_says (ls : List Text) (fileId : Nat) (m : OpenMarker) :
    ((m.notice ls fileId).message, (m.notice ls fileId).line, (m.notice ls fileId).quoted) =
      ("block ".toList ++ quotedName m.key.name ++ " is never closed".toList, m.line,
        [m.closing]) := by
  rw [OpenMarker.quoted_notice]
  rfl

theorem flatMap_quoted (fileId : Nat) (s : Text) :
    (Notice.ofText fileId s).reverse.flatMap Notice.quoted =
      (Scan.ofText s).unclosed.reverse.map OpenMarker.closing := by
  have hquoted := OpenMarker.quoted_notice s.lines fileId
  rw [Notice.ofText, ← List.map_reverse, List.flatMap_map]
  simp only [hquoted]
  exact List.map_eq_flatMap.symm

/-! ### The repaired text -/

/-- The markers that are open behind a text, the latest first. -/
def Text.openMarkers (s : Text) : List OpenMarker :=
  (pairMarkers (MarkerEvent.ofLines s.lines) []).2

theorem Text.readable_of_mem_openMarkers {s : Text} {m : OpenMarker} (h : m ∈ s.openMarkers) :
    Marker.Readable m.key.dialect m.key.name := by
  rcases opens_of_mem_left h with hopens | hmem
  · exact MarkerEvent.readable_of_ofLines hopens
  · exact absurd hmem List.not_mem_nil

theorem lines_repair (fileId : Nat) (s : Text) :
    (Notice.repair (Notice.ofText fileId s) s).lines =
      s.lines ++ s.openMarkers.map OpenMarker.closing := by
  have hopen : (Scan.ofText s).unclosed.reverse = s.openMarkers := List.reverse_reverse _
  rw [Notice.repair, flatMap_quoted, hopen, Text.join_cons]
  by_cases hs : s = []
  · subst hs
    rfl
  · refine Text.lines_append_introduced hs fun l hl => ?_
    obtain ⟨m, hm, rfl⟩ := List.mem_map.1 hl
    exact Marker.newline_not_mem_closingText (Text.readable_of_mem_openMarkers hm)

/-- In the repaired text the old pairs are left, and each marker that was open makes a new one. -/
theorem pairMarkers_repair (fileId : Nat) (s : Text) :
    pairMarkers (MarkerEvent.ofLines (Notice.repair (Notice.ofText fileId s) s).lines) [] =
      (s.markerPairs ++ (s.openMarkers.zipIdx (1 + s.lines.length)).map fun m => m.1.pair m.2,
        []) := by
  have hclosing : eventsFrom (1 + s.lines.length) (s.openMarkers.map OpenMarker.closing) =
      closingEvents (1 + s.lines.length) s.openMarkers :=
    eventsFrom_closing (fun _ hm => Text.readable_of_mem_openMarkers hm) _
  have hevents : MarkerEvent.ofLines (s.lines ++ s.openMarkers.map OpenMarker.closing) =
      MarkerEvent.ofLines s.lines ++ closingEvents (1 + s.lines.length) s.openMarkers :=
    (eventsFrom_append 1 _ _).trans (congrArg (MarkerEvent.ofLines s.lines ++ ·) hclosing)
  have hpairs := pairMarkers_closingEvents (1 + s.lines.length) s.openMarkers
  unfold Text.openMarkers at hpairs ⊢
  rw [lines_repair, hevents, pairMarkers_append, Text.openMarkers, hpairs]
  rfl

/-- The block of the `i`-th of `count` markers that nothing closes, counted from 0, when the
closing markers stand behind a text of the given number of lines. -/
def OpenMarker.repairedBlock (lines count i : Nat) (m : OpenMarker) : Block :=
  { name := m.key.dialect.blockName m.key.name
    kind := .delimited
    start := m.line
    stop := lines + (count - i) }

/-- The last marker opened is closed on the first line behind the text. -/
theorem map_pair_block (lines : Nat) (ms : List OpenMarker) :
    ((ms.zipIdx (1 + lines)).map fun m => m.1.pair m.2).map MarkerPair.block =
      (ms.reverse.mapIdx (OpenMarker.repairedBlock lines ms.length)).reverse := by
  refine List.ext_getElem (by simp) fun i hi _ => ?_
  have hlt : i < ms.length := by simpa using hi
  have hfirst : ms.length - 1 - (ms.length - 1 - i) = i := by omega
  have hstop : lines + (ms.length - (ms.length - 1 - i)) = 1 + lines + i := by omega
  simp only [List.getElem_map, List.getElem_zipIdx, List.getElem_reverse, List.getElem_mapIdx,
    List.length_mapIdx, List.length_reverse, hfirst, OpenMarker.repairedBlock, hstop]
  rfl

/-- Every notice tells how to repair the text: with the quoted markers behind it no marker is left
open, the blocks stay as they were, and each marker that was open begins one more block, which ends
with its own closing marker. -/
theorem repair_closes_each (fileId : Nat) (s : Text) :
    let ws := Notice.ofText fileId s
    let unclosed := (Scan.ofText s).unclosed
    (ws.map fun w => (w.message, w.line, w.quoted)) = unclosed.map (fun m =>
      ("block ".toList ++ quotedName m.key.name ++ " is never closed".toList, m.line,
        [Marker.closingText m.key.dialect m.key.name])) ∧
    (∀ k, Notice.ofText k (Notice.repair ws s) = []) ∧
    (Scan.ofText (Notice.repair ws s)).blocks = Block.sort ((Scan.ofText s).blocks ++
      unclosed.mapIdx (OpenMarker.repairedBlock s.lines.length ws.length)) := by
  intro ws unclosed
  have hpairs := pairMarkers_repair fileId s
  refine ⟨?_, fun k => ?_, ?_⟩
  · have hws : ws = unclosed.map (OpenMarker.notice s.lines fileId) := rfl
    rw [hws, List.map_map]
    exact List.map_congr_left fun m _ => m.notice_says s.lines fileId
  · have hnone : (Scan.ofText (Notice.repair ws s)).unclosed = [] := by
      simp only [Scan.ofText, Scan.ofLines, ws, hpairs, List.reverse_nil]
    exact List.map_eq_nil_iff.2 hnone
  · have hnodup := nodup_starts (Notice.repair ws s)
    have hcount : ws.length = s.openMarkers.length := by
      simp [ws, Notice.ofText, Scan.ofLines, Text.openMarkers]
    have hold : (Scan.ofText s).blocks.Perm (s.markerPairs.map MarkerPair.block) :=
      Block.sort_perm _
    rw [scan_blocks_of_pairs hpairs, hcount]
    refine Block.sort_congr ?_ ?_
    · rw [List.map_append, map_pair_block]
      exact hold.symm.append (List.reverse_perm _)
    · rw [Text.markerPairs, hpairs] at hnodup
      rw [List.map_map]
      exact hnodup

example :
    let s := "<!-- SIDE_NAV -->\n<!-- @block:a -->".toList
    Notice.repair (Notice.ofText 0 s) s =
      s ++ "\n<!-- @endblock:a -->\n<!-- EO SIDE_NAV -->".toList := by
  decide +kernel

end TemplateBlocks
