import TemplateBlocks.Proofs.VariableLists

/-!
# Comparisons

Code in which each equals sign belongs to a comparison or an arrow assigns nothing and, without a
binding, should define nothing. Its flow still has the variables of every list that stands directly
in front of such a sign, and no others (`comparisons_define_lists`): the reader of lists takes a
comparison for an assignment (`comparison_defines`).
-/

namespace TemplateBlocks

/-! ### Signs that compare -/

def comparisonSigns : List Text :=
  ["==", "===", "!=", "!==", "<=", ">=", "<=>", "=>"].map String.toList

/-- The equals sign between two texts is a character of a comparison or an arrow. Behind two angle
brackets it would make an assignment of a shift. -/
def ComparesBetween (before behind : Text) : Prop :=
  (∃ sign ∈ comparisonSigns, ∃ i < sign.length, sign[i]? = some '=' ∧
    sign.take i <:+ before ∧ sign.drop (i + 1) <+: behind) ∧
  ¬ "<<".toList <:+ before ∧ ¬ ">>".toList <:+ before

instance (before behind : Text) : Decidable (ComparesBetween before behind) :=
  inferInstanceAs (Decidable (_ ∧ _ ∧ _))

def OnlyCompares (code : Text) : Prop :=
  ∀ before behind, code = before ++ '=' :: behind → ComparesBetween before behind

/-- What holds at each place where a character stands can be checked place by place. -/
theorem forall_split_iff {P : Text → Text → Prop} {c : Char} {s : Text} :
    (∀ u v, s = u ++ c :: v → P u v) ↔
      ∀ i < s.length, s[i]? = some c → P (s.take i) (s.drop (i + 1)) := by
  constructor
  · intro h i hi hc
    obtain ⟨_, hget⟩ := List.getElem?_eq_some_iff.1 hc
    refine h _ _ ?_
    rw [← hget, List.getElem_cons_drop, List.take_append_drop]
  · rintro h u v rfl
    simpa using h u.length (by simp) (by simp)

instance (code : Text) : Decidable (OnlyCompares code) := decidable_of_iff _ forall_split_iff.symm

/-- No variable stands behind the word `as`. -/
def BindsNothing (code : Text) : Prop :=
  ∀ before gap c rest, code = before ++ ("as".toList ++ (gap ++ '$' :: c :: rest)) → Gap gap →
    isNameStart c = true → wordMayStart before.getLast? = false

theorem bindsNothing_of_not_infix {code : Text} (h : ¬ "as".toList <:+: code) :
    BindsNothing code := by
  rintro before gap c rest rfl
  exact absurd ⟨before, gap ++ '$' :: c :: rest, by simp⟩ h

/-- The characters that a comparison can have in front of an equals sign. -/
def compareEnds : Text := ['=', '!', '<', '>']

/-- Where an equals sign compares, it is next to another character of a comparison. -/
theorem ComparesBetween.last {before rest : Text} {c : Char} (h : ComparesBetween before (c :: rest))
    (hc : c ≠ '=' ∧ c ≠ '>') : ∃ d ∈ compareEnds, before.getLast? = some d := by
  have hsigns : ∀ sign ∈ comparisonSigns, ∀ i < sign.length, sign[i]? = some '=' →
      (sign.drop (i + 1)).head? ∈ [some '=', some '>'] ∨
        (sign.take i).getLast? ∈ compareEnds.map some := by
    decide
  obtain ⟨⟨sign, hsign, i, hi, hequals, hbefore, hbehind⟩, _⟩ := h
  rcases hsigns sign hsign i hi hequals with hhead | hlast
  · cases hdrop : sign.drop (i + 1) with
    | nil => simp [hdrop] at hhead
    | cons d t =>
      rw [hdrop] at hhead hbehind
      obtain rfl := (List.cons_prefix_cons.1 hbehind).1
      simp [hc] at hhead
  · obtain ⟨d, hd, hlast⟩ := List.mem_map.1 hlast
    obtain ⟨t, rfl⟩ := hbefore
    exact ⟨d, hd, by rw [List.getLast?_append, ← hlast]; rfl⟩

namespace Assignee

/-- What an assignment has in front of its equals sign is not part of a comparison. -/
theorem not_comparesBetween (a : Assignee) (u rest : Text) {c : Char} (hc : c ≠ '=' ∧ c ≠ '>') :
    ∃ before, a.text = before ++ ['='] ∧ ¬ ComparesBetween (u ++ before) (c :: rest) := by
  obtain ⟨op, hop, hsign⟩ := mem_assignmentSigns.1 a.mem_signs
  refine ⟨'$' :: (a.name ++ (a.gap ++ op)), by simp [text, hsign], fun h => ?_⟩
  obtain ⟨d, hd, hlast⟩ := h.last hc
  have hops : ∀ op ∈ Code.operators, op = [] ∨ op = "<<".toList ∨ op = ">>".toList ∨
      (op.getLast?.isSome = true ∧ op.getLast? ∉ compareEnds.map some) := by
    decide
  have hsuffix : op <:+ u ++ '$' :: (a.name ++ (a.gap ++ op)) :=
    ⟨u ++ '$' :: (a.name ++ a.gap), by simp⟩
  rcases hops op hop with rfl | rfl | rfl | ⟨hsome, hnot⟩
  · -- Without an operator the character is one of the name or a blank.
    have hmem : d ∈ a.name ++ a.gap := by
      obtain ⟨b, t, hname, _⟩ := a.isName.head
      rw [List.append_nil, hname, List.getLast?_append, List.cons_append, List.getLast?_cons_cons]
        at hlast
      rw [hname]
      refine List.mem_of_getLast? ?_
      simpa using hlast
    have hkeys : Text.Free isKeyChar compareEnds := by decide
    have hblanks : Text.Free isBlank compareEnds := by decide
    rcases List.mem_append.1 hmem with hkey | hblank
    · exact absurd (a.isName.chars d hkey) (by simp [hkeys d hd])
    · exact absurd (a.blanks d hblank) (by simp [hblanks d hd])
  · exact h.2.1 hsuffix
  · exact h.2.2 hsuffix
  · obtain ⟨t, ht⟩ := hsuffix
    rw [← ht, List.getLast?_append, Option.or_of_isSome hsome] at hlast
    exact hnot (List.mem_map.2 ⟨d, hd, hlast.symm⟩)

end Assignee

theorem allMatches_assignment_eq_nil {code : Text} (h : OnlyCompares code) :
    code.allMatches Code.assignment = [] := by
  refine List.eq_nil_iff_forall_not_mem.2 fun n hn => ?_
  obtain ⟨u, v, rest, rfl, hread⟩ :=
    Text.exists_read_of_mem_allMatches Code.assignment_leavesSuffix hn
  obtain ⟨a, c, _, hc, rfl⟩ := Code.assignment_iff.1 hread
  obtain ⟨before, htext, hnot⟩ := a.not_comparesBetween u rest hc
  exact hnot (h _ _ (by simp [htext]))

/-! ### Bindings -/

namespace Code

theorem exists_of_binding {before : Option Char} {s : Text} {r : List Text × Text}
    (h : binding before s = some r) : wordMayStart before = true ∧ ∃ gap c rest,
      Gap gap ∧ isNameStart c = true ∧ s = "as".toList ++ (gap ++ '$' :: c :: rest) := by
  have hword : wordMayStart before = true := by
    by_contra hnot
    rw [binding_of_inside (by simpa using hnot)] at h
    exact absurd h (by simp)
  rw [binding_eq hword] at h
  obtain ⟨u, hu, h⟩ := Option.bind_eq_some_iff.1 h
  obtain ⟨⟨key, t⟩, href, _⟩ := Option.map_eq_some_iff.1 h
  obtain ⟨v, hv, hdrop⟩ := Option.bind_eq_some_iff.1 hu
  obtain ⟨gap, hgap, rfl, _⟩ := Text.dropBlanks1?_eq_some_iff.1 hdrop
  obtain ⟨c, n, rfl, hc⟩ := (variableName_of_reference href).head
  refine ⟨hword, gap, c, n ++ t, hgap, hc, ?_⟩
  rw [Text.eq_append_of_after? hv, reference_eq_append href]
  simp

theorem occurrences_binding_eq_nil {u s : Text} (h : BindsNothing (u ++ s)) :
    s.occurrences binding u.getLast? = [] := by
  induction s generalizing u with
  | nil => exact Text.occurrences_nil _ _
  | cons c s ih =>
    have hnone : binding u.getLast? (c :: s) = none := by
      refine Option.eq_none_iff_forall_ne_some.2 fun r hr => ?_
      obtain ⟨hword, gap, d, rest, hgap, hd, hs⟩ := exists_of_binding hr
      rw [hs] at h
      rw [h u gap d rest rfl hgap hd] at hword
      exact absurd hword (by decide)
    have hnext := ih (u := u ++ [c]) (by simpa using h)
    rw [List.getLast?_concat] at hnext
    rw [Text.occurrences_of_none hnone, hnext]

end Code

/-! ### What comparisons define -/

/-- Where every equals sign compares and nothing is bound, exactly the variables of the lists in
front of an equals sign are defined. So nothing is defined where there is no such list. -/
theorem comparisons_define_lists {code : Text} (hcompares : OnlyCompares code)
    (hbinds : BindsNothing code) :
    (∀ x, x ∈ (Flow.ofCode code).definitions.toList ↔
      ∃ l : VariableList, l.FacesEquals code ∧ x ∈ l.names) ∧
    ((∀ l : VariableList, ¬ l.FacesEquals code) → (Flow.ofCode code).definitions.toList = []) := by
  have hassign := allMatches_assignment_eq_nil hcompares
  have hbinding : code.occurrences Code.binding none = [] :=
    Code.occurrences_binding_eq_nil (u := []) hbinds
  have hdefined : ∀ x, x ∈ (Flow.ofCode code).definitions.toList ↔
      ∃ l : VariableList, l.FacesEquals code ∧ x ∈ l.names := by
    intro x
    rw [Flow.mem_definitions, hassign, hbinding, Code.mem_destructuring_iff]
    simp
  refine ⟨hdefined, fun hnone => List.eq_nil_iff_forall_not_mem.2 fun x hx => ?_⟩
  obtain ⟨l, hl, _⟩ := (hdefined x).1 hx
  exact hnone l hl

def comparedCode : Text := "if (f($a[$i]) >= [$b][0] && $c !== list($d) <=> 1) ['k' => $v]".toList

theorem comparisons_define_nothing :
    OnlyCompares comparedCode ∧ BindsNothing comparedCode ∧
      (∀ l : VariableList, ¬ l.FacesEquals comparedCode) ∧
      (Flow.ofCode comparedCode).definitions.toList = [] := by
  have hcompares : OnlyCompares comparedCode := by decide +kernel
  have hbinds : BindsNothing comparedCode := bindsNothing_of_not_infix (by decide +kernel)
  have hlists : ∀ l : VariableList, ¬ l.FacesEquals comparedCode :=
    VariableList.not_facesEquals (forall_split_iff.2 (by decide +kernel))
  exact ⟨hcompares, hbinds, hlists, (comparisons_define_lists hcompares hbinds).2 hlists⟩

/-- A variable in brackets in front of a comparison is taken for one that is assigned. -/
theorem comparison_defines :
    OnlyCompares "$row[$i] == 1".toList ∧ BindsNothing "$row[$i] == 1".toList ∧
      (Flow.ofCode "$row[$i] == 1".toList).definitions.toList = ["i".toList] :=
  ⟨by decide +kernel, bindsNothing_of_not_infix (by decide +kernel), by cbv⟩

end TemplateBlocks
