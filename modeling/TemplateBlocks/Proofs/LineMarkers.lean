import TemplateBlocks.Marker.Enclosed
import TemplateBlocks.Proofs.LineEvents
import TemplateBlocks.Proofs.MarkerSpelling
import TemplateBlocks.Proofs.Occurrences

/-!
# Markers that the line scan reads

What the line scan reads on a line is a spelling of a marker (`MarkerEvent.lineSpells_ofLine`). So
an opening and a closing marker on lines stand in the text as well, the one in front of the other
(`exists_bracketing_of_events`). The search for the markers of a block finds such a place or one
that begins before it, and does not end behind it (`Bracketing.exists_find`).
-/

namespace TemplateBlocks

/-! ### Markers on a line -/

open Marker in
/-- What a line spells when the line scan reads the given events on it. -/
inductive LineSpells : Text → List MarkerEvent → Prop
  | nothing (l : Text) : LineSpells l []
  | opening (key : MarkerKey) {m : Text} (rest : Text) (hn : Named key.dialect key.name)
      (h : SpellsOpening key.dialect key.name m) : LineSpells (m ++ rest) [.opens key]
  | closing (key : MarkerKey) {m : Text} (rest : Text)
      (h : SpellsClosing key.dialect key.name m) : LineSpells (m ++ rest) [.closes key]
  | both {n k m m' : Text} (u rest : Text) (hn : Named .directive n)
      (h : SpellsOpening .directive n m) (h' : SpellsClosing .directive k m') :
      LineSpells (m ++ (u ++ (m' ++ rest))) [.opens ⟨.directive, n⟩, .closes ⟨.directive, k⟩]

namespace MarkerEvent

theorem lineSpells_banner {l n : Text} (h : Marker.banner l = some (n, [])) :
    LineSpells l [ofBanner n.trim] := by
  obtain ⟨hn, m, hm, rfl⟩ := Marker.banner_spelling h
  have hm := hm.trim
  unfold ofBanner
  split
  · rename_i closed hclosed
    rw [Text.after?_eq_some_iff] at hclosed
    have hname : n.trim = Marker.endOf ++ ' ' :: closed := by simp [hclosed]
    rw [hname] at hm
    exact .closing ⟨.banner, closed⟩ [] hm.closing
  · exact .opening ⟨.banner, n.trim⟩ [] hn.trim hm

/-- The line scan reads on a line what the line spells. -/
theorem lineSpells_ofLine (l : Text) : LineSpells l (ofLine l) := by
  unfold ofLine
  split
  · rename_i n rest hopen
    obtain ⟨hn, m, hm, rfl⟩ := Marker.anyOpening_spelling (d := .directive) hopen
    cases hfind : rest.find (Marker.lastDirective Marker.closeWord) with
    | none => exact .opening ⟨.directive, n⟩ rest hn hm
    | some f =>
      have hlast := Marker.lastDirective_leavesSuffix Marker.closeWord
      have hsplit := Text.find_eq_append hlast hfind
      have hread := Marker.namedDirective_of_lastDirective (Text.read_of_find hlast hfind).1
      obtain ⟨m', hm', heq⟩ := (Marker.namedDirective_iff Marker.isKeyword_closeWord).1 hread
      rw [List.append_assoc, heq] at hsplit
      subst hsplit
      exact .both _ _ hn hm hm'
  · split
    · rename_i n rest hclose
      obtain ⟨m, hm, rfl⟩ := (Marker.namedDirective_iff Marker.isKeyword_closeWord).1
        (Marker.namedDirective_of_directive hclose)
      exact .closing ⟨.directive, n⟩ rest hm
    · split
      · rename_i n hbanner
        exact lineSpells_banner hbanner
      · exact .nothing l

end MarkerEvent

namespace LineSpells

variable {l : Text} {es : List MarkerEvent} {key other : MarkerKey}

theorem opens (h : LineSpells l es) (hopen : .opens key ∈ es) :
    Marker.Named key.dialect key.name ∧
      ∃ m rest, Marker.SpellsOpening key.dialect key.name m ∧ l = m ++ rest := by
  cases h with
  | nothing => exact absurd hopen List.not_mem_nil
  | opening k rest hn hm =>
    obtain rfl := MarkerEvent.opens.inj (List.mem_singleton.1 hopen)
    exact ⟨hn, _, rest, hm, rfl⟩
  | closing k rest hm => exact absurd (List.mem_singleton.1 hopen) (by simp)
  | both u rest hn hm hm' =>
    obtain rfl : key = ⟨.directive, _⟩ := by simpa using hopen
    exact ⟨hn, _, _, hm, rfl⟩

theorem closes (h : LineSpells l es) (hclose : .closes key ∈ es) :
    ∃ u m rest, Marker.SpellsClosing key.dialect key.name m ∧ l = u ++ (m ++ rest) := by
  cases h with
  | nothing => exact absurd hclose List.not_mem_nil
  | opening k rest hn hm => exact absurd (List.mem_singleton.1 hclose) (by simp)
  | closing k rest hm =>
    obtain rfl := MarkerEvent.closes.inj (List.mem_singleton.1 hclose)
    exact ⟨[], _, rest, hm, rfl⟩
  | both u rest hn hm hm' =>
    obtain rfl : key = ⟨.directive, _⟩ := by simpa using hclose
    exact ⟨_, _, rest, hm', (List.append_assoc _ u _).symm⟩

/-- Of two markers on one line the opening one comes first. -/
theorem opens_closes (h : LineSpells l es) (hopen : .opens key ∈ es) (hclose : .closes other ∈ es) :
    ∃ m u m' rest, Marker.SpellsOpening key.dialect key.name m ∧
      Marker.SpellsClosing other.dialect other.name m' ∧ l = m ++ (u ++ (m' ++ rest)) := by
  cases h with
  | nothing => exact absurd hopen List.not_mem_nil
  | opening k rest hn hm => exact absurd (List.mem_singleton.1 hclose) (by simp)
  | closing k rest hm => exact absurd (List.mem_singleton.1 hopen) (by simp)
  | both u rest hn hm hm' =>
    obtain rfl : key = ⟨.directive, _⟩ := by simpa using hopen
    obtain rfl : other = ⟨.directive, _⟩ := by simpa using hclose
    exact ⟨_, u, _, rest, hm, hm', rfl⟩

theorem pairwise (h : LineSpells l es) :
    es.Pairwise fun a b => ∃ k k', a = .opens k ∧ b = .closes k' := by
  cases h with
  | nothing => exact List.Pairwise.nil
  | opening k rest hn hm => exact List.pairwise_singleton ..
  | closing k rest hm => exact List.pairwise_singleton ..
  | both u rest hn hm hm' => simp

end LineSpells

/-! ### Lines in the text -/

theorem mem_eventsFrom_iff {k i : Nat} {e : MarkerEvent} {ls : List Text} :
    (e, i) ∈ eventsFrom k ls ↔
      k ≤ i ∧ ∃ l, ls[i - k]? = some l ∧ e ∈ MarkerEvent.ofLine l.trim := by
  simp only [eventsFrom, List.mem_flatMap, List.mem_map, Prod.mk.injEq]
  constructor
  · rintro ⟨⟨l, j⟩, hl, e', he, rfl, rfl⟩
    obtain ⟨hle, hget⟩ := List.mem_zipIdx_iff_le_and_getElem?_sub.1 hl
    exact ⟨hle, l, hget, he⟩
  · rintro ⟨hle, l, hget, he⟩
    exact ⟨(l, i), List.mem_zipIdx_iff_le_and_getElem?_sub.2 ⟨hle, hget⟩, e, he, rfl, rfl⟩

/-- A line with events stands in the text, and the events are read on it without the blanks at its
ends. -/
theorem exists_line_of_event {s : Text} {e : MarkerEvent} {i : Nat}
    (h : (e, i) ∈ MarkerEvent.ofLines s.lines) :
    ∃ pre l post, s = pre ++ (l ++ post) ∧ '\n' ∉ l ∧ pre.lineNumber = i ∧
      ∀ e', (e', i) ∈ MarkerEvent.ofLines s.lines → e' ∈ MarkerEvent.ofLine l := by
  obtain ⟨hle, l, hget, _⟩ := mem_eventsFrom_iff.1 h
  obtain ⟨hlt, rfl⟩ := List.getElem?_eq_some_iff.1 hget
  have hsplit : s.lines = s.lines.take (i - 1) ++ s.lines[i - 1] :: s.lines.drop (i - 1 + 1) := by
    rw [← List.drop_eq_getElem_cons hlt, List.take_append_drop]
  have hnewline : '\n' ∉ s.lines[i - 1] :=
    Text.newline_not_mem_of_mem_lines (List.getElem_mem hlt)
  obtain ⟨v, w, hv, hw, hline⟩ := (s.lines[i - 1]).exists_trim
  rw [hline, List.mem_append, List.mem_append, not_or, not_or] at hnewline
  obtain ⟨hnv, hnl, _⟩ := hnewline
  have htext := Text.join_lines s
  rw [hsplit, Text.join_append_cons] at htext
  refine ⟨Text.terminated (s.lines.take (i - 1)) ++ v, (s.lines[i - 1]).trim,
    w ++ Text.introduced (s.lines.drop (i - 1 + 1)), ?_, hnl, ?_, fun e' he' => ?_⟩
  · conv_lhs => rw [← htext, hline]
    simp
  · have hlength : (s.lines.take (i - 1)).length = i - 1 := by
      rw [List.length_take]
      omega
    rw [Text.lineNumber_append_of_not_mem hnv, Text.lineNumber_terminated fun l hl =>
      Text.newline_not_mem_of_mem_lines (List.mem_of_mem_take hl), hlength]
    omega
  · obtain ⟨_, l', hget', he'⟩ := mem_eventsFrom_iff.1 he'
    obtain rfl := Option.some.inj (hget.symm.trans hget')
    exact he'

/-! ### Opening and closing markers in the text -/

theorem Stretch.named_eq_some_iff {d : Dialect} {n s rest : Text} {st : Stretch} :
    Stretch.named d n s = some (st, rest) ↔ ∃ inner close,
      Marker.opening d n s = some ((), inner) ∧ inner.find (Marker.closing d n) = some close ∧
      st = ⟨n, s.upTo inner, close.before, close.matched⟩ ∧ rest = close.rest := by
  cases hopen : Marker.opening d n s with
  | none => simp [Stretch.named, Stretch.reader, hopen]
  | some r =>
    obtain ⟨u, inner⟩ := r
    cases hclose : inner.find (Marker.closing d n) with
    | none => simp [Stretch.named, Stretch.reader, hopen, hclose]
    | some close => simp [Stretch.named, Stretch.reader, hopen, hclose, eq_comm]

/-- A closing marker that the search stops at is spelled in the text. -/
theorem spellsClosing_of_find {d : Dialect} {n inner : Text} {close : Text.Found Unit}
    (hn : Marker.Named d n) (h : inner.find (Marker.closing d n) = some close) :
    Marker.SpellsClosing d n close.matched ∧
      inner = close.before ++ (close.matched ++ close.rest) := by
  have hsuffix := Marker.closing_leavesSuffix d n
  have hsplit := Text.find_eq_append hsuffix h
  obtain ⟨m, hm, hend⟩ := (Marker.closing_iff hn).1 (Text.read_of_find hsuffix h).1
  obtain rfl : close.matched = m := List.append_cancel_right hend
  exact ⟨hm, hsplit.trans (List.append_assoc ..)⟩

/-- A place of a text where an opening marker of a block stands in front of a closing one. -/
structure Bracketing (d : Dialect) (n s : Text) where
  before : Text
  opening : Text
  inner : Text
  closing : Text
  rest : Text
  eq_append : s = before ++ (opening ++ (inner ++ (closing ++ rest)))
  opens : Marker.SpellsOpening d n opening
  closes : Marker.SpellsClosing d n closing

namespace Bracketing

variable {d : Dialect} {n s : Text}

/-- The text up to the end of the closing marker. -/
def through (b : Bracketing d n s) : Text := b.before ++ (b.opening ++ (b.inner ++ b.closing))

theorem through_prefix (b : Bracketing d n s) : b.through <+: s :=
  ⟨b.rest, by simpa [through] using b.eq_append.symm⟩

theorem read_opening (b : Bracketing d n s) (hn : Marker.Named d n) :
    Marker.opening d n (b.opening ++ (b.inner ++ (b.closing ++ b.rest))) =
      some ((), b.inner ++ (b.closing ++ b.rest)) :=
  (Marker.opening_iff hn).2 ⟨b.opening, b.opens, rfl⟩

theorem read_closing (b : Bracketing d n s) (hn : Marker.Named d n) :
    Marker.closing d n (b.closing ++ b.rest) = some ((), b.rest) :=
  (Marker.closing_iff hn).2 ⟨b.closing, b.closes, rfl⟩

theorem closing_append_ne_nil (b : Bracketing d n s) : b.closing ++ b.rest ≠ [] := by
  obtain ⟨t, ht⟩ := b.closes.exists_eq_append
  simp [ht, Marker.commentEnd]

/-- The search for a stretch finds it at a place or before that. -/
theorem exists_find (b : Bracketing d n s) (hn : Marker.Named d n) :
    ∃ f, s.find (Stretch.named d n) = some f ∧ f.before <+: b.before := by
  have hne := b.closing_append_ne_nil
  obtain ⟨close, hclose, _⟩ := Text.exists_find_of_read (u := b.inner) hne (b.read_closing hn)
  have hnamed := Stretch.named_eq_some_iff.2 ⟨_, close, b.read_opening hn, hclose, rfl, rfl⟩
  obtain ⟨f, hf, hbefore⟩ := Text.exists_find_of_read (u := b.before) (by simp [hne]) hnamed
  rw [← b.eq_append] at hf
  exact ⟨f, hf, hbefore⟩

/-- The place at which a stretch was found. -/
theorem of_find {f : Text.Found Stretch} (hn : Marker.Named d n)
    (h : s.find (Stretch.named d n) = some f) : ∃ b : Bracketing d n s,
      b.before = f.before ∧ b.through = f.before ++ f.matched ∧
      (b.inner ++ (b.closing ++ b.rest)).find (Marker.closing d n) =
        some ⟨b.inner, (), b.closing, b.rest⟩ := by
  have hsuffix := Stretch.named_leavesSuffix d n
  have hsplit := Text.find_eq_append hsuffix h
  obtain ⟨inner, close, hopening, hclose, _, hrest⟩ :=
    Stretch.named_eq_some_iff.1 (Text.read_of_find hsuffix h).1
  obtain ⟨m, hm, hstart⟩ := (Marker.opening_iff hn).1 hopening
  obtain ⟨hm', hinner⟩ := spellsClosing_of_find hn hclose
  have htext : f.matched ++ f.rest = m ++ (close.before ++ (close.matched ++ close.rest)) := by
    rw [hstart, hinner]
  refine ⟨⟨f.before, m, close.before, close.matched, close.rest, ?_, hm, hm'⟩, rfl, ?_, ?_⟩
  · rw [hsplit, List.append_assoc, htext]
  · have hmatched : f.matched = m ++ (close.before ++ close.matched) := by
      rw [hrest] at htext
      refine List.append_cancel_right (htext.trans ?_)
      simp
    exact congrArg (f.before ++ ·) hmatched.symm
  · show (close.before ++ (close.matched ++ close.rest)).find (Marker.closing d n) = some close
    rw [← hinner, hclose]

/-- The stretch that is found does not end behind any other place. -/
theorem through_prefix_of_find {f : Text.Found Stretch} (b : Bracketing d n s)
    (hn : Marker.Named d n) (h : s.find (Stretch.named d n) = some f) :
    f.before ++ f.matched <+: b.through := by
  obtain ⟨a, hbefore, hthrough, hclose⟩ := of_find hn h
  obtain ⟨f', hf', hfirst⟩ := b.exists_find hn
  obtain rfl := Option.some.inj (h.symm.trans hf')
  rw [← hbefore] at hfirst
  rw [← hthrough]
  obtain ⟨t, ht⟩ := hfirst
  -- The opening marker found ends in front of the closing marker of the other place.
  have hsame := a.eq_append.symm.trans b.eq_append
  rw [← ht, List.append_assoc, List.append_cancel_left_eq] at hsame
  obtain ⟨x, hx⟩ := a.opens.exists_eq_append
  have hopens := Marker.length_le_of_plainCount (a.opens.plainCount_eq b.opens) hx hsame
  have hother : t ++ (b.opening ++ b.inner) <+:
      a.opening ++ (a.inner ++ (a.closing ++ a.rest)) := by
    refine ⟨b.closing ++ b.rest, ?_⟩
    rw [hsame]
    simp
  have hinner : a.opening <+: t ++ (b.opening ++ b.inner) := by
    refine List.prefix_of_prefix_length_le (List.prefix_append ..) hother ?_
    simp only [List.length_append]
    omega
  obtain ⟨w, hw⟩ := hinner
  -- So that closing marker is one behind the opening marker found.
  have hrest : a.inner ++ (a.closing ++ a.rest) = w ++ (b.closing ++ b.rest) := by
    rw [← List.append_cancel_left_eq a.opening, hsame, ← List.append_assoc a.opening, hw]
    simp
  obtain ⟨c, hc, hcw⟩ :=
    Text.exists_find_of_read (u := w) b.closing_append_ne_nil (b.read_closing hn)
  rw [← hrest, hclose] at hc
  obtain rfl := Option.some.inj hc
  obtain ⟨y, rfl⟩ := hcw
  rw [List.append_assoc, List.append_cancel_left_eq] at hrest
  obtain ⟨z, hz⟩ := a.closes.exists_eq_append
  have hcloses := Marker.length_le_of_plainCount (a.closes.plainCount_eq b.closes) hz hrest
  refine List.prefix_of_prefix_length_le a.through_prefix b.through_prefix ?_
  have hlen := congrArg List.length hw
  simp only [through, List.length_append, ← ht] at hlen ⊢
  omega

end Bracketing

/-! ### Opening and closing markers on lines -/

theorem named_of_event {s : Text} {key : MarkerKey} {i : Nat}
    (h : (.opens key, i) ∈ MarkerEvent.ofLines s.lines) : Marker.Named key.dialect key.name := by
  obtain ⟨_, l, _, _, _, _, hread⟩ := exists_line_of_event h
  exact ((MarkerEvent.lineSpells_ofLine l).opens (hread _ h)).1

/-- An opening marker on a line and a closing one on that line or a later one stand in the text,
and they stand there on these lines. -/
theorem exists_bracketing_of_events {s : Text} {key : MarkerKey} {i j : Nat}
    (hopen : (.opens key, i) ∈ MarkerEvent.ofLines s.lines)
    (hclose : (.closes key, j) ∈ MarkerEvent.ofLines s.lines) (hij : i ≤ j) :
    ∃ b : Bracketing key.dialect key.name s,
      b.before.lineNumber = i ∧ b.through.lineNumber = j := by
  obtain ⟨pre, l, post, hs, hl, hi, hread⟩ := exists_line_of_event hopen
  rcases Nat.eq_or_lt_of_le hij with rfl | hlt
  · obtain ⟨m, u, m', rest, hm, hm', rfl⟩ :=
      (MarkerEvent.lineSpells_ofLine l).opens_closes (hread _ hopen) (hread _ hclose)
    refine ⟨⟨pre, m, u, m', rest ++ post, by simpa using hs, hm, hm'⟩, hi, ?_⟩
    have hline : '\n' ∉ m ++ (u ++ m') := by
      intro hmem
      exact hl (List.IsPrefix.subset ⟨rest, by simp⟩ hmem)
    exact (Text.lineNumber_append_of_not_mem hline).trans hi
  · obtain ⟨pre', l', post', hs', hl', hj, hread'⟩ := exists_line_of_event hclose
    obtain ⟨_, m, rest, hm, rfl⟩ := (MarkerEvent.lineSpells_ofLine l).opens (hread _ hopen)
    obtain ⟨u, m', rest', hm', rfl⟩ := (MarkerEvent.lineSpells_ofLine l').closes (hread' _ hclose)
    rw [List.mem_append, not_or] at hl
    rw [List.mem_append, List.mem_append, not_or, not_or] at hl'
    obtain ⟨hlu, hlm', _⟩ := hl'
    -- The opening marker ends on its line, so in front of the line with the closing one.
    have hline : (pre ++ m).lineNumber = i := (Text.lineNumber_append_of_not_mem hl.1).trans hi
    have hsplit : (pre ++ m) ++ (rest ++ post) = pre' ++ (u ++ (m' ++ rest') ++ post') := by
      rw [← hs', hs]
      simp
    obtain ⟨w, rfl⟩ : pre ++ m <+: pre' := by
      rcases List.append_eq_append_iff.1 hsplit with ⟨w, hw, _⟩ | ⟨w, hw, _⟩
      · exact ⟨w, hw.symm⟩
      · have hle := Text.lineNumber_le_of_prefix (u := pre') ⟨w, hw.symm⟩
        omega
    refine ⟨⟨pre, m, w ++ u, m', rest' ++ post', by simpa using hs', hm, hm'⟩, hi, ?_⟩
    have hthrough : pre ++ (m ++ ((w ++ u) ++ m')) = (pre ++ m ++ w) ++ (u ++ m') := by simp
    have hnot : '\n' ∉ u ++ m' := by simp [hlu, hlm']
    exact (congrArg Text.lineNumber hthrough).trans
      ((Text.lineNumber_append_of_not_mem hnot).trans hj)

end TemplateBlocks
