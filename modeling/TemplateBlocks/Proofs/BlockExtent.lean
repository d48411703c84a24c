import TemplateBlocks.Proofs.Matching
import TemplateBlocks.Proofs.MovedText
import TemplateBlocks.Proofs.ReportedBlocks

/-!
# The lines of a block

The line scan pairs the markers of one name like brackets, and only markers that it reads on lines.
Reading, replacing and moving a block take the first opening marker in the text that a closing one
follows, and the first closing one behind it. So they begin and end no later than the first block of
the name that the line scan finds (`stretch_of_first_pair`). The lines are the same when the line
scan reads both markers and no other opening one of the name up to the closing one.
-/

namespace TemplateBlocks

/-! ### Lines of a match -/

def Text.Found.firstLine {α : Type} (f : Text.Found α) : Nat := f.before.lineNumber

def Text.Found.lastLine {α : Type} (f : Text.Found α) : Nat := (f.before ++ f.matched).lineNumber

theorem Text.Found.firstLine_le_lastLine {α : Type} (f : Text.Found α) :
    f.firstLine ≤ f.lastLine :=
  Text.lineNumber_le_of_prefix (List.prefix_append ..)

/-! ### Markers that the line scan reads alone -/

/-- The line scan reads a marker that opens a key and one that closes it on the given lines, and no
other one that opens the key behind the first line up to the last one. -/
structure Text.ReadsAlone (s : Text) (key : MarkerKey) (first last : Nat) : Prop where
  opens : (.opens key, first) ∈ MarkerEvent.ofLines s.lines
  closes : (.closes key, last) ∈ MarkerEvent.ofLines s.lines
  alone : ∀ i, first < i → i ≤ last → (.opens key, i) ∉ MarkerEvent.ofLines s.lines

variable {s n : Text} {key : MarkerKey} {i j : Nat}

/-- Two markers that are read alone make a pair when no closing marker comes between them. -/
theorem Text.ReadsAlone.mem_markerPairs (h : s.ReadsAlone key i j) (hij : i ≤ j)
    (hclose : ∀ k, (.closes key, k) ∈ MarkerEvent.ofLines s.lines → i ≤ k → j ≤ k) :
    ⟨key, i, j⟩ ∈ s.markerPairs := by
  obtain ⟨as, bs, hopens, hcloses⟩ := exists_append_of_events (k := 1) h.opens h.closes hij
  obtain ⟨cs, ds, rfl⟩ := List.append_of_mem hcloses
  have hevents : MarkerEvent.ofLines s.lines =
      as ++ (.opens key, i) :: (cs ++ (.closes key, j) :: ds) := hopens
  have horder := pairwise_events s
  rw [hevents, List.pairwise_append, List.pairwise_cons, List.pairwise_append] at horder
  obtain ⟨_, ⟨hbehind, _, _, hbefore⟩, _⟩ := horder
  have hbetween : key.brackets cs = [] := by
    refine MarkerKey.brackets_eq_nil fun e he hkey => ?_
    have hmem : e ∈ MarkerEvent.ofLines s.lines := by
      rw [hevents]
      simp [he]
    have hfirst := hbehind e (List.mem_append_left _ he)
    have hlast := hbefore e he _ (List.mem_cons_self ..)
    obtain ⟨event, k⟩ := e
    -- An event on the line of one of the two markers would come before or behind both of them.
    cases event with
    | opens other =>
      obtain rfl : other = key := hkey
      rcases hfirst with hlt | ⟨_, _, _, _, heq⟩
      · exact h.alone k hlt hlast.le hmem
      · exact absurd heq (by simp)
    | closes other =>
      obtain rfl : other = key := hkey
      rcases hlast with hlt | ⟨_, _, _, heq, _⟩
      · exact absurd hlt (Nat.not_lt.2 (hclose k hmem hfirst.le))
      · exact absurd heq (by simp)
  have hbrackets : key.brackets (MarkerEvent.ofLines s.lines) =
      key.brackets as ++ .opening i :: .closing j :: key.brackets ds := by
    rw [hevents]
    simp [hbetween]
  have hpair := Bracket.mem_matching_adjacent i j (key.brackets as) (key.brackets ds) []
  rw [← hbrackets, pairMarkers_matching_nil] at hpair
  exact MarkerKey.mem_pairsIn hpair

/-! ### The stretch of a scanned block -/

/-- Reading the block called `name`, replacing its body and moving it all take this stretch of the
text. A replacement changes its body and nothing else. A move cuts it out and puts it in at a place
of what is left; without a place, the text stays or the block to follow is missing. -/
structure Text.Found.UsedFor (f : Text.Found Stretch) (s name : Text) : Prop where
  split : s = f.before ++ f.matched ++ f.rest
  matched_eq : f.matched = f.value.text
  read : body? s name = some f.value.content
  replaced : ∀ body,
    replaceBody s name body = .ok (f.before ++ (f.value.withBody body).text ++ f.rest)
  moved : ∀ after u v,
    insertPlace? (Dialect.ofText s) name after (joined f.before f.rest) = some (u, v) →
      joined f.before f.rest = u ++ v ∧
        moveBlock s name after = .ok (u ++ (insertedText after f.matched ++ v))
  kept : ∀ after, insertPlace? (Dialect.ofText s) name after (joined f.before f.rest) = none →
    moveBlock s name after = .ok s ∨
      ∃ target, moveBlock s name after = .error (.targetNotFound target)

theorem Text.Found.usedFor_of_find {f : Text.Found Stretch} (hstretch : s.stretch? n = some f)
    (hf : Stretch.find? (Dialect.ofText s) n s = some f) : f.UsedFor s n where
  split := Stretch.find?_eq_append hf
  matched_eq := (find_named_iff.1 hf).matched_eq
  read := by rw [body?, hstretch, Option.map_some]
  replaced body := by simp only [replaceBody, hstretch]
  moved after u v hplace := ⟨eq_append_of_insertPlace? hplace, by rw [moveBlock_eq hf, hplace]⟩
  kept after hplace := by
    rw [moveBlock_eq hf, hplace]
    cases after.filter (!·.isEmpty) with
    | none => exact .inl rfl
    | some target =>
      by_cases htarget : target = n
      · exact .inl (if_pos htarget)
      · exact .inr ⟨target, if_neg htarget⟩

/-- Reading, replacing and moving a block agree on its stretch, which begins and ends no later than
the first block of directives that the line scan finds under the name. When the line scan reads the
markers of the stretch alone, that block has its lines. -/
theorem stretch_of_first_pair {p : MarkerPair} (hp : p ∈ s.markerPairs)
    (hkey : p.key = ⟨.directive, n⟩)
    (hfirst : ∀ q ∈ s.markerPairs, q.key = p.key → p.start ≤ q.start) :
    ∃ f, s.stretch? n = some f ∧ Stretch.find? (Dialect.ofText s) n s = some f ∧
      f.UsedFor s n ∧ f.firstLine ≤ p.start ∧ f.lastLine ≤ p.stop ∧
      (s.ReadsAlone p.key f.firstLine f.lastLine →
        f.firstLine = p.start ∧ f.lastLine = p.stop) := by
  obtain ⟨key, start, stop⟩ := p
  obtain rfl : key = ⟨.directive, n⟩ := hkey
  obtain ⟨hopens, _, _⟩ := events_of_mem_markerPairs hp
  obtain ⟨b, hstart, hstop⟩ := exists_bracketing_of_mem hp
  have hn := named_of_event hopens
  obtain ⟨f, hf, hbefore⟩ := b.exists_find hn
  have hfind : Stretch.find? .directive n s = some f := hf
  have hfirstLine : f.firstLine ≤ start :=
    (Text.lineNumber_le_of_prefix hbefore).trans_eq hstart
  have hlastLine : f.lastLine ≤ stop :=
    (Text.lineNumber_le_of_prefix (b.through_prefix_of_find hn hf)).trans_eq hstop
  have hstretch : s.stretch? n = some f := by rw [Text.stretch?, hfind]
  have hmoves : Stretch.find? (Dialect.ofText s) n s = some f := by rw [b.ofText_eq hn, hfind]
  refine ⟨f, hstretch, hmoves, Text.Found.usedFor_of_find hstretch hmoves, hfirstLine, hlastLine,
    fun halone => ?_⟩
  have hmem := halone.mem_markerPairs f.firstLine_le_lastLine fun k hk hle => by
    obtain ⟨c, _, hc⟩ := exists_bracketing_of_events halone.opens hk hle
    exact (Text.lineNumber_le_of_prefix (c.through_prefix_of_find hn hf)).trans_eq hc
  have hline : start = f.firstLine := Nat.le_antisymm (hfirst _ hmem rfl) hfirstLine
  obtain ⟨_, _, hlast⟩ := MarkerPair.mk.inj (start_inj hp hmem hline)
  exact ⟨hline.symm, hlast.symm⟩

def repeatedBlock : Text := Text.join newline
  ["<!-- @block:y -->".toList, "  <!-- @block:x -->".toList, "first".toList,
    "<!-- @endblock:x -->".toList, "<!-- @endblock:y -->".toList,
    "<!-- @block:x -->second<!-- @endblock:x -->".toList]

theorem stretch_of_repeated_block :
    ∃ p ∈ repeatedBlock.markerPairs, p.key = ⟨.directive, "x".toList⟩ ∧
      (∀ q ∈ repeatedBlock.markerPairs, q.key = p.key → p.start ≤ q.start) ∧
      ∃ f, repeatedBlock.stretch? "x".toList = some f ∧
        Stretch.find? (Dialect.ofText repeatedBlock) "x".toList repeatedBlock = some f ∧
        f.UsedFor repeatedBlock "x".toList ∧
        repeatedBlock.ReadsAlone p.key f.firstLine f.lastLine ∧ f.firstLine = p.start ∧
        f.lastLine = p.stop := by
  let x : MarkerKey := ⟨.directive, "x".toList⟩
  let y : MarkerKey := ⟨.directive, "y".toList⟩
  have hpairs : repeatedBlock.markerPairs = [⟨x, 2, 4⟩, ⟨y, 1, 5⟩, ⟨x, 6, 6⟩] := by decide +kernel
  have hp : ⟨x, 2, 4⟩ ∈ repeatedBlock.markerPairs := by
    rw [hpairs]
    exact List.mem_cons_self ..
  have hfirst : ∀ q ∈ repeatedBlock.markerPairs, q.key = x → 2 ≤ q.start := by
    rw [hpairs]
    decide
  have hlines : (repeatedBlock.stretch? "x".toList).map (fun f => (f.firstLine, f.lastLine)) =
      some (2, 4) := by
    decide +kernel
  obtain ⟨f, hstretch, hfind, hused, _, _, hextent⟩ := stretch_of_first_pair hp rfl hfirst
  rw [hstretch, Option.map_some, Option.some.injEq, Prod.mk.injEq] at hlines
  have hevents : MarkerEvent.ofLines repeatedBlock.lines = [(.opens y, 1), (.opens x, 2),
      (.closes x, 4), (.closes y, 5), (.opens x, 6), (.closes x, 6)] := by
    decide +kernel
  have halone : repeatedBlock.ReadsAlone x f.firstLine f.lastLine := by
    rw [hlines.1, hlines.2]
    refine ⟨by rw [hevents]; decide, by rw [hevents]; decide, fun i hlow hhigh hmem => ?_⟩
    have hi : i = 2 ∨ i = 6 := by simpa [hevents, x, y] using hmem
    omega
  exact ⟨_, hp, rfl, hfirst, f, hstretch, hfind, hused, halone, hextent halone⟩

/-! ### Blocks with other lines -/

def nestedSameName : Text := Text.join newline
  ["<!-- @block:x -->".toList, "<!-- @block:x -->".toList, "<!-- @endblock:x -->".toList,
    "<!-- @endblock:x -->".toList]

def inlineBeforeLines : Text := Text.join newline
  ["<p><!-- @block:x -->inline<!-- @endblock:x --></p>".toList, "<!-- @block:x -->".toList,
    "lines".toList, "<!-- @endblock:x -->".toList]

/-- The line scan finds the outer one of two nested blocks of a name first, and no block within a
line. The stretch of the name ends with the inner block, or is the one within the line. -/
theorem stretch_off_first_pair :
    (⟨⟨.directive, "x".toList⟩, 1, 4⟩ ∈ nestedSameName.markerPairs ∧
      (Scan.ofText nestedSameName).blocks.find? (fun b => b.name == "x".toList) =
        some { name := "x".toList, kind := .delimited, start := 1, stop := 4 } ∧
      ∃ f, nestedSameName.stretch? "x".toList = some f ∧ f.firstLine = 1 ∧ f.lastLine = 3) ∧
    ⟨⟨.directive, "x".toList⟩, 2, 4⟩ ∈ inlineBeforeLines.markerPairs ∧
      (Scan.ofText inlineBeforeLines).blocks.find? (fun b => b.name == "x".toList) =
        some { name := "x".toList, kind := .delimited, start := 2, stop := 4 } ∧
      ∃ f, inlineBeforeLines.stretch? "x".toList = some f ∧ f.firstLine = 1 ∧ f.lastLine = 1 := by
  let x : MarkerKey := ⟨.directive, "x".toList⟩
  have hnested : pairMarkers (MarkerEvent.ofLines nestedSameName.lines) [] =
      ([⟨x, 2, 3⟩, ⟨x, 1, 4⟩], []) := by
    decide +kernel
  have hinline : pairMarkers (MarkerEvent.ofLines inlineBeforeLines.lines) [] =
      ([⟨x, 2, 4⟩], []) := by
    decide +kernel
  refine ⟨⟨?_, ?_, _, rfl, by decide +kernel, by decide +kernel⟩,
    ?_, ?_, _, rfl, by decide +kernel, by decide +kernel⟩
  · rw [Text.markerPairs, hnested]
    exact List.mem_cons_of_mem _ (List.mem_cons_self ..)
  · rw [scan_blocks_of_pairs hnested]
    simp [Block.sort, List.mergeSort, List.MergeSort.Internal.splitInTwo, MarkerPair.block, x,
      Dialect.blockName]
  · rw [Text.markerPairs, hinline]
    exact List.mem_cons_self ..
  · rw [scan_blocks_of_pairs hinline, Block.sort, List.map_singleton, List.mergeSort_singleton]
    rfl

end TemplateBlocks
