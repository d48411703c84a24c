import Mathlib.Data.List.Forall2
import TemplateBlocks.Diagnostic
import TemplateBlocks.Outline
import TemplateBlocks.Proofs.LineBreaks
import TemplateBlocks.Proofs.LineEvents
import TemplateBlocks.Proofs.LineText
import TemplateBlocks.Proofs.MarkerSpelling
import TemplateBlocks.Proofs.TagReading

/-!
# Outlines and line breaks

An outline does not depend on how the lines of a text end (`outline_crlf`). Most readers see the
lines without the blanks at their ends. The tags and the texts that give names are read on several
lines at once, untrimmed, and there the readers are even.
-/

namespace TemplateBlocks

variable {b : LineBreaks} {s t : Text}

/-! ### Tags -/

namespace Markup

theorem afterName?_cons (c a : Char) (s name : Text) : afterName? (c :: s) (a :: name) =
    if fold c = a then (afterName? s name).map fun p => (c :: p.1, p.2) else none := by
  simp only [afterName?, List.length_cons, List.take_succ_cons, List.map_cons, List.cons.injEq,
    List.drop_succ_cons]
  by_cases hc : fold c = a
  · simp only [hc, true_and, if_true]
    split <;> rfl
  · simp [hc]

theorem even_afterName? {name : Text} (hname : Text.Free isBreak name) :
    Matcher.Even b Eq (afterName? · name) := by
  induction name with
  | nil =>
    intro s t h
    exact .some ⟨rfl, h⟩
  | cons a name ih =>
    obtain ⟨ha, hname⟩ := List.forall_mem_cons.1 hname
    intro s t h
    refine Rebroken.rel_of_break (f := (afterName? · (a :: name))) rfl (fun c u hc => ?_)
      (fun c s t _ h _ => ?_) h
    · have hne : fold c ≠ a := by
        rintro rfl
        rcases isBreak_iff.1 hc with rfl | rfl <;> exact absurd ha (by decide)
      simp only [afterName?_cons, if_neg hne]
    · simp only [afterName?_cons]
      split
      · exact rel_map (ih hname s t h) fun p q hpq => ⟨by rw [hpq.1], hpq.2⟩
      · exact .none

/-- Reads attributes up to the end of a tag, given the character in front. -/
def attributesEnd (last : Char) : Matcher Bool
  | [] => none
  | c :: s => if c = '>' then some (last == '/', s) else attributesEnd c s

theorem attributesEnd_eq (last : Char) (s : Text) : attributesEnd last s =
    match s.dropWhile (· != '>') with
    | [] => none
    | _ :: rest => some ((last :: s.takeWhile (· != '>')).getLast? == some '/', rest) := by
  induction s generalizing last with
  | nil => rfl
  | cons c s ih =>
    by_cases hc : c = '>'
    · subst hc
      simp [attributesEnd]
    · have hne : (c != '>') = true := by simpa using hc
      simp only [attributesEnd, if_neg hc, ih, List.dropWhile_cons, List.takeWhile_cons, hne,
        if_true, List.getLast?_cons_cons]

theorem tagEnd_cons (c : Char) (s : Text) : tagEnd (c :: s) =
    if c = '>' then some (false, s) else if isBlank c then attributesEnd c s else none := by
  by_cases hc : c = '>'
  · subst hc
    rfl
  · rw [if_neg hc, tagEnd.eq_3 _ _ (by simpa using hc)]
    exact congrArg (fun r => if isBlank c then r else none) (attributesEnd_eq c s).symm

theorem plain_of_isBreak {c : Char} (hc : isBreak c = true) : c ≠ '>' ∧ (c == '/') = false := by
  rcases isBreak_iff.1 hc with rfl | rfl <;> decide

theorem attributesEnd_cons_break {c : Char} (hc : isBreak c = true) (last : Char) (s : Text) :
    attributesEnd last (c :: s) = attributesEnd c s := by
  rw [attributesEnd, if_neg (plain_of_isBreak hc).1]

theorem attributesEnd_of_breaks {w : Text} (hw : Breaks w) (last : Char) :
    attributesEnd last w = none := by
  induction w generalizing last with
  | nil => rfl
  | cons c w ih =>
    obtain ⟨hc, hw⟩ := List.forall_mem_cons.1 hw
    rw [attributesEnd_cons_break hc, ih hw]

/-- Behind a line break the attributes go on as behind a newline. -/
theorem attributesEnd_breaks {w : Text} {last : Char} (hlast : isBreak last = true) (hw : Breaks w)
    (t : Text) :
    ∃ last', isBreak last' = true ∧ attributesEnd last (w ++ t) = attributesEnd last' t := by
  induction w generalizing last with
  | nil => exact ⟨last, hlast, rfl⟩
  | cons c w ih =>
    obtain ⟨hc, hw⟩ := List.forall_mem_cons.1 hw
    obtain ⟨last', hlast', hread⟩ := ih hc hw
    exact ⟨last', hlast', by rw [List.cons_append, attributesEnd_cons_break hc, hread]⟩

theorem even_attributesEnd {last last' : Char} (hlast : (last == '/') = (last' == '/'))
    (h : Rebroken b s t) : Option.Rel (fun x y => x.1 = y.1 ∧ Rebroken b x.2 y.2)
      (attributesEnd last s) (attributesEnd last' t) := by
  induction h generalizing last last' with
  | @final w hw =>
    rw [attributesEnd_of_breaks (b.final_breaks w hw)]
    exact .none
  | @char c s t hc h ih =>
    simp only [attributesEnd]
    split
    · exact .some ⟨hlast, h⟩
    · exact ih rfl
  | @newline w s t hw h ih =>
    obtain ⟨c, v, rfl, hc, hv⟩ := Rebroken.head_break hw
    obtain ⟨last'', hbreak, hread⟩ := attributesEnd_breaks hc hv t
    rw [List.cons_append, attributesEnd_cons_break rfl, attributesEnd_cons_break hc, hread]
    exact ih (by rw [(plain_of_isBreak hbreak).2]; rfl)

theorem even_tagEnd : Matcher.Even b Eq tagEnd := by
  intro s t h
  have hbreak : ∀ c u, isBreak c = true → tagEnd (c :: u) = attributesEnd c u := by
    intro c u hc
    rw [tagEnd_cons, if_neg (plain_of_isBreak hc).1, if_pos (isBlank_of_isBreak hc)]
  induction h with
  | @final w hw =>
    cases w with
    | nil => exact .none
    | cons c w =>
      obtain ⟨hc, hw⟩ := List.forall_mem_cons.1 (b.final_breaks _ hw)
      rw [hbreak c w hc, attributesEnd_of_breaks hw]
      exact .none
  | @char c s t hc h =>
    simp only [tagEnd_cons]
    split
    · exact .some ⟨rfl, h⟩
    · split
      · exact even_attributesEnd rfl h
      · exact .none
  | @newline w s t hw h =>
    obtain ⟨c, v, rfl, hc, hv⟩ := Rebroken.head_break hw
    obtain ⟨last, hlast, hread⟩ := attributesEnd_breaks hc hv t
    rw [hbreak '\n' s rfl, List.cons_append, hbreak c _ hc, hread]
    exact even_attributesEnd (by rw [(plain_of_isBreak hlast).2]; rfl) h

theorem even_findSome? {ns : List Text} (hns : ∀ name ∈ ns, Text.Free isBreak name) :
    Matcher.Even b Eq fun s => ns.findSome? (afterName? s) := by
  intro s t h
  induction ns with
  | nil => exact .none
  | cons name ns ih =>
    obtain ⟨hname, hns⟩ := List.forall_mem_cons.1 hns
    have hcons : ∀ s, (name :: ns).findSome? (afterName? s) =
        (afterName? s name <|> ns.findSome? (afterName? s)) := by
      intro s
      rw [List.findSome?_cons]
      cases afterName? s name <;> rfl
    simp only [hcons]
    exact rel_orElse (even_afterName? hname s t h) (ih hns)

theorem even_tag : Matcher.Even b Eq tag := by
  intro s t h
  refine rel_bind (h.after? (by decide)) fun u v huv => ?_
  have hslash : Text.startsWith u "/".toList = Text.startsWith v "/".toList ∧
      Rebroken b (Text.dropStart u "/".toList) (Text.dropStart v "/".toList) := by
    have hread : Option.Rel (Rebroken b) (u.after? "/".toList) (v.after? "/".toList) :=
      huv.after? (by decide)
    unfold Text.startsWith Text.dropStart
    generalize Text.after? u "/".toList = x at hread ⊢
    generalize Text.after? v "/".toList = y at hread ⊢
    cases hread with
    | some hread => exact ⟨rfl, hread⟩
    | none => exact ⟨rfl, huv⟩
  rw [hslash.1]
  refine rel_bind (even_findSome? (by decide) _ _ hslash.2) fun x y hxy => ?_
  refine rel_bind (even_tagEnd _ _ hxy.2) fun ⟨slash, rest⟩ ⟨slash', rest'⟩ ⟨hfirst, hrest⟩ => ?_
  obtain rfl : slash = slash' := hfirst
  rw [hxy.1]
  exact .some ⟨rfl, hrest⟩

theorem length_le_of_attributesEnd {last : Char} {slash : Bool} {rest : Text}
    (h : attributesEnd last s = some (slash, rest)) : rest.length ≤ s.length := by
  induction s generalizing last with
  | nil => simp [attributesEnd] at h
  | cons c s ih =>
    rw [attributesEnd] at h
    split at h
    · obtain ⟨_, rfl⟩ := Prod.mk.inj (Option.some.inj h)
      exact Nat.le_succ _
    · exact (ih h).trans (Nat.le_succ _)

theorem length_le_of_tagEnd {slash : Bool} {rest : Text} (h : tagEnd s = some (slash, rest)) :
    rest.length ≤ s.length := by
  cases s with
  | nil => simp [tagEnd] at h
  | cons c s =>
    rw [tagEnd_cons] at h
    split at h
    · obtain ⟨_, rfl⟩ := Prod.mk.inj (Option.some.inj h)
      exact Nat.le_succ _
    · split at h
      · exact (length_le_of_attributesEnd h).trans (Nat.le_succ _)
      · exact absurd h (Option.some_ne_none _).symm

theorem length_lt_of_tag {rest : Text} {a : Tag} (h : tag s = some (a, rest)) :
    rest.length < s.length := by
  obtain ⟨u, hu, h⟩ := Option.bind_eq_some_iff.1 h
  obtain ⟨⟨written, v⟩, hv, h⟩ := Option.bind_eq_some_iff.1 h
  obtain ⟨⟨slash, rest'⟩, hend, h⟩ := Option.bind_eq_some_iff.1 h
  obtain ⟨_, rfl⟩ := Prod.mk.inj (Option.some.inj h)
  have hrest := length_le_of_tagEnd hend
  have hname := (suffix_of_findSome? hv).length_le
  have hslash := (suffix_of_dropStart u "/".toList).length_le
  have hs : s.length = u.length + 1 := congrArg List.length (Text.eq_append_of_after? hu)
  omega

/-- The tags of a text do not depend on its line breaks. -/
theorem tags_of_rebroken (h : Rebroken b s t) : tags s = tags t := by
  refine Rebroken.allMatches even_tag (fun c u hc => ?_) (fun _ _ _ => length_lt_of_tag) h
  exact tag_eq_none (ne_of_isBreak (by decide) hc) u

end Markup

/-! ### Names -/

namespace Label

variable {p : Char → Bool}

theorem even_quoted (hp : OffBreaks p) :
    Matcher.Even b Eq (Code.quoted p) := by
  have hquote : OffBreaks Code.isQuote := by decide
  intro s t h
  refine rel_bind (Rebroken.char? hquote s t h) fun x y hxy => ?_
  refine rel_bind (Rebroken.run1? hp _ _ hxy.2) fun x y hxy => ?_
  refine rel_bind (Rebroken.char? hquote _ _ hxy.2) fun z w hzw => ?_
  exact .some ⟨hxy.1, hzw.2⟩

theorem even_call (callee : Text) (hcallee : Text.Free isBreak callee)
    (hp : OffBreaks p) : Matcher.Even b Eq (Code.call callee p) := by
  intro s t h
  refine rel_bind (h.after? hcallee) fun u v huv => ?_
  refine rel_bind (huv.dropBlanks.after? (by decide)) fun u v huv => ?_
  exact even_quoted hp _ _ huv.dropBlanks

theorem even_translated : Matcher.Even b Eq translated := by
  have hkey : OffBreaks isTranslationChar := by decide
  intro s t h
  exact rel_orElse (even_call _ (by decide) hkey s t h) (even_call _ (by decide) hkey s t h)

theorem even_subTemplate : Matcher.Even b Eq subTemplate := by
  have hkey : OffBreaks isKeyChar := by decide
  intro s t h
  refine rel_bind (even_call _ (by decide) hkey s t h) fun x y hxy => ?_
  refine rel_bind (hxy.2.dropBlanks.after? (by decide)) fun u v huv => ?_
  exact .some ⟨hxy.1, huv⟩

theorem call_start {a c : Char} (hc : c ≠ a) (callee s : Text) :
    Code.call (a :: callee) p (c :: s) = none := by
  simp [Code.call, Text.after?, hc]

theorem translated_stopsAtBreaks : StopsAtBreaks translated := by
  intro c s hc
  have htext : Code.call "Text::_".toList isTranslationChar (c :: s) = none :=
    call_start (ne_of_isBreak (by decide) hc) "ext::_".toList s
  have hjtext : Code.call "JText::_".toList isTranslationChar (c :: s) = none :=
    call_start (ne_of_isBreak (by decide) hc) "Text::_".toList s
  rw [translated, htext, hjtext]
  rfl

theorem subTemplate_stopsAtBreaks : StopsAtBreaks subTemplate := by
  intro c s hc
  have hcall : Code.call "->loadTemplate".toList isKeyChar (c :: s) = none :=
    call_start (ne_of_isBreak (by decide) hc) ">loadTemplate".toList s
  rw [subTemplate, Code.wholeCall, hcall]
  rfl

/-- The better name of a block does not depend on the line breaks. -/
theorem refine?_of_rebroken (translation : Translation) {ls ls' : List Text}
    (h : Rebroken b (Text.join ['\n'] ls) (Text.join ['\n'] ls')) :
    refine? translation ls = refine? translation ls' := by
  have htranslated := Rebroken.find even_translated translated_stopsAtBreaks h
  have hsub := Rebroken.find even_subTemplate subTemplate_stopsAtBreaks h
  unfold refine?
  dsimp only
  generalize (Text.join ['\n'] ls).find translated = x at htranslated ⊢
  generalize (Text.join ['\n'] ls').find translated = y at htranslated ⊢
  cases htranslated with
  | some hfound => simp only [hfound.value]
  | none =>
    generalize (Text.join ['\n'] ls).find subTemplate = x at hsub ⊢
    generalize (Text.join ['\n'] ls').find subTemplate = y at hsub ⊢
    cases hsub with
    | some hfound => simp only [Option.map_some, hfound.value]
    | none => rfl

end Label

/-! ### Lines with other ends -/

/-- The line `l'` is `l`, perhaps with a carriage return at the end. -/
def SameLine (l l' : Text) : Prop := l' = l ∨ l' = l ++ ['\r']

theorem trim_append_blank {c : Char} (hc : isBlank c = true) (l : Text) :
    Text.trim (l ++ [c]) = l.trim := by
  have hdrop : Text.dropBlanks (l ++ [c]) = l.dropBlanks ++ [c] ∨
      Text.dropBlanks (l ++ [c]) = [] ∧ l.dropBlanks = [] := by
    unfold Text.dropBlanks
    rw [List.dropWhile_append]
    split
    · rename_i h
      exact .inr ⟨by simp [hc], List.isEmpty_iff.1 h⟩
    · exact .inl rfl
  unfold Text.trim
  rcases hdrop with hdrop | ⟨hdrop, hnil⟩
  · rw [hdrop]
    simp [Text.trimEnd, Text.dropEndWhile, hc]
  · rw [hdrop, hnil]

theorem SameLine.trim_eq {l l' : Text} (h : SameLine l l') : l'.trim = l.trim := by
  rcases h with rfl | rfl
  · rfl
  · exact trim_append_blank (by decide) l

theorem SameLine.refl_list (ls : List Text) : List.Forall₂ SameLine ls ls :=
  List.forall₂_same.2 fun _ _ => .inl rfl

/-- The lines of a text with carriage returns in front of its newlines. -/
theorem sameLine_splitAt (s : Text) :
    List.Forall₂ SameLine (Text.splitAt '\n' s) (Text.splitAt '\n' s.crlf) := by
  induction s with
  | nil => exact SameLine.refl_list _
  | cons c s ih =>
    by_cases hc : c = '\n'
    · have hcr : Text.splitAt '\n' ('\r' :: '\n' :: Text.crlf s) =
          ['\r'] :: Text.splitAt '\n' (Text.crlf s) :=
        Text.splitAt_append_cons (l := ['\r']) (by decide)
      rw [hc, Text.crlf_cons_newline, hcr, Text.splitAt, if_pos rfl]
      exact .cons (.inr rfl) ih
    · rw [Text.crlf_cons_of_ne hc]
      simp only [Text.splitAt, if_neg hc]
      generalize Text.splitAt '\n' s = x at ih ⊢
      generalize Text.splitAt '\n' (Text.crlf s) = y at ih ⊢
      cases ih with
      | nil => exact SameLine.refl_list _
      | cons hl hls => exact .cons (hl.imp (congrArg _) (congrArg _)) hls

theorem sameLine_lines (s : Text) : List.Forall₂ SameLine s.lines s.crlf.lines := by
  cases s with
  | nil => exact .nil
  | cons c s =>
    have hlines : (Text.crlf (c :: s)).lines = Text.splitAt '\n' (Text.crlf (c :: s)) := by
      by_cases hc : c = '\n'
      · rw [hc, Text.crlf_cons_newline]
        rfl
      · rw [Text.crlf_cons_of_ne hc]
        rfl
    rw [hlines]
    exact sameLine_splitAt (c :: s)

/-- Lines that are the same up to carriage returns make texts that differ in the line breaks. -/
theorem rebroken_join {ls ls' : List Text} (h : List.Forall₂ SameLine ls ls') :
    Rebroken .any (Text.join ['\n'] ls) (Text.join ['\n'] ls') := by
  induction h with
  | nil => exact Rebroken.nil _
  | @cons l l' ls ls' hl hls ih =>
    obtain ⟨w, hw, rfl⟩ : ∃ w, Breaks w ∧ l' = l ++ w := by
      rcases hl with rfl | rfl
      · exact ⟨[], breaks_nil, (List.append_nil _).symm⟩
      · exact ⟨['\r'], by decide, rfl⟩
    cases hls with
    | nil =>
      have hfinal : Rebroken .any [] w := .final hw
      simpa [Text.join] using (Rebroken.refl l).append hfinal
    | @cons m m' ls ls' hm hls =>
      rw [Text.join_cons_of_ne_nil _ _ (List.cons_ne_nil m ls),
        Text.join_cons_of_ne_nil _ _ (List.cons_ne_nil m' ls')]
      have hbreak : LineBreaks.any.newline (w ++ ['\n']) :=
        ⟨by simp, hw.append (by decide)⟩
      simpa using (Rebroken.refl l).append (.newline hbreak ih)

/-! ### What is read on trimmed lines -/

section Trimmed

variable {ls ls' : List Text}

/-- Lines that are the same without the blanks at their ends. -/
def SameTrim (ls ls' : List Text) : Prop :=
  List.Forall₂ (fun l l' => Text.trim l' = Text.trim l) ls ls'

theorem SameTrim.of_sameLine (h : List.Forall₂ SameLine ls ls') : SameTrim ls ls' :=
  h.imp fun _ _ => SameLine.trim_eq

theorem events_of_sameTrim (h : SameTrim ls ls') :
    MarkerEvent.ofLines ls' = MarkerEvent.ofLines ls := by
  have hfrom : ∀ k, eventsFrom k ls' = eventsFrom k ls := by
    induction h with
    | nil => exact fun _ => rfl
    | cons hl _ ih =>
      intro k
      rw [eventsFrom_cons, eventsFrom_cons, hl, ih]
  exact hfrom 1

theorem scan_of_sameTrim (h : SameTrim ls ls') : Scan.ofLines ls' = Scan.ofLines ls := by
  rw [Scan.ofLines, events_of_sameTrim h, Scan.ofLines]

namespace Detect

variable {l l' : Text}

theorem pushOpens_of_trim (h : l'.trim = l.trim) (stack : List OpenControl) (n : Nat) :
    pushOpens stack l' n = pushOpens stack l n := by
  have hpush : pushOpen l' n = pushOpen l n := by
    funext stack
    rw [pushOpen, h, pushOpen]
  rw [pushOpens, hpush, h, pushOpens]

theorem conditionals_of_sameTrim (h : SameTrim ls ls') : conditionals ls' = conditionals ls := by
  have hfrom : ∀ k stack,
      conditionalsFrom stack (ls'.zipIdx k) = conditionalsFrom stack (ls.zipIdx k) := by
    induction h with
    | nil => exact fun _ _ => rfl
    | cons hl _ ih =>
      intro k stack
      simp only [List.zipIdx_cons, conditionalsFrom, endedBy, stackAfter, popCloses,
        pushOpens_of_trim hl, hl, ih]
  exact hfrom 1 []

theorem standalone?_of_trim (h : l'.trim = l.trim) (depth n : Nat) :
    standalone? depth l' n = standalone? depth l n := by
  rw [standalone?, h, standalone?]

theorem standalones_of_sameTrim (h : SameTrim ls ls') : standalones ls' = standalones ls := by
  have hfrom : ∀ k depth,
      standalonesFrom depth (ls'.zipIdx k) = standalonesFrom depth (ls.zipIdx k) := by
    induction h with
    | nil => exact fun _ _ => rfl
    | cons hl _ ih =>
      intro k depth
      simp only [List.zipIdx_cons, standalonesFrom, Control.depthAfter, standalone?_of_trim hl, hl,
        ih]
  exact hfrom 1 0

theorem blocks_of_sameTrim (h : SameTrim ls ls') : blocks ls' = blocks ls := by
  rw [blocks, conditionals_of_sameTrim h, standalones_of_sameTrim h, blocks]

end Detect

theorem balanced_of_sameTrim (h : SameTrim ls ls') :
    Control.balanced ls' = Control.balanced ls := by
  have hfrom : ∀ depth, Control.balancedFrom depth ls' = Control.balancedFrom depth ls := by
    induction h with
    | nil => exact fun _ => rfl
    | cons hl _ ih =>
      intro depth
      simp only [Control.balancedFrom, hl, ih]
  exact hfrom 0

end Trimmed

/-! ### Outlines -/

theorem forall₂_slice {ls ls' : List Text} (h : List.Forall₂ SameLine ls ls') (start stop : Nat) :
    List.Forall₂ SameLine (Lines.slice ls start stop) (Lines.slice ls' start stop) :=
  List.forall₂_drop _ (List.forall₂_take _ h)

theorem settle_of_sameLine (translation : Label.Translation) {ls ls' : List Text}
    (h : List.Forall₂ SameLine ls ls') (b : Block) :
    Outline.settle translation ls' b = Outline.settle translation ls b := by
  have hown := forall₂_slice h b.start b.stop
  have hjoin := rebroken_join hown
  have hbalanced : Markup.balanced (Lines.slice ls' b.start b.stop) =
      Markup.balanced (Lines.slice ls b.start b.stop) := by
    rw [Markup.balanced, ← Markup.tags_of_rebroken hjoin, Markup.balanced]
  simp only [Outline.settle, selfContained, hbalanced,
    balanced_of_sameTrim (SameTrim.of_sameLine hown), ← Label.refine?_of_rebroken translation hjoin]

theorem outline_of_sameLine (translation : Label.Translation) {ls ls' : List Text}
    (h : List.Forall₂ SameLine ls ls') :
    Outline.ofLines translation ls' = Outline.ofLines translation ls := by
  have htrim := SameTrim.of_sameLine h
  have hsettle : Outline.settle translation ls' = Outline.settle translation ls :=
    funext (settle_of_sameLine translation h)
  rw [Outline.ofLines, scan_of_sameTrim htrim, Detect.blocks_of_sameTrim htrim, hsettle,
    Outline.ofLines]

/-- What a notice says, apart from the bytes it points at. -/
def Notice.content (n : Notice) : Text × Nat × List Text := (n.message, n.line, n.notes)

/-- The outline of a text does not depend on its line ends, and the notices say the same about the
same lines. -/
theorem outline_crlf (translation : Label.Translation) (fileId : Nat) (s : Text) :
    Outline.ofText translation s.crlf = Outline.ofText translation s ∧
      (Outline.ofText translation s.crlf).groups = (Outline.ofText translation s).groups ∧
      (Notice.ofText fileId s.crlf).map Notice.content =
        (Notice.ofText fileId s).map Notice.content := by
  have houtline : Outline.ofText translation s.crlf = Outline.ofText translation s :=
    outline_of_sameLine translation (sameLine_lines s)
  have hscan := scan_of_sameTrim (SameTrim.of_sameLine (sameLine_lines s))
  refine ⟨houtline, by rw [houtline], ?_⟩
  simp only [Notice.ofText, hscan, List.map_map]
  rfl

end TemplateBlocks
