import TemplateBlocks.Markup
import TemplateBlocks.Proofs.LineText
import TemplateBlocks.Proofs.Occurrences

/-!
# Tags and seams

A tag is read up to the first `>` and no further, so what stands behind that character does not
matter (`Markup.tag_append`). When no `<` of a text is left without a `>`, its tags are read alike
with any text behind it (`Markup.tags_append`), and so are those of its lines with other lines
behind them (`Markup.tags_join_append`).
-/

namespace TemplateBlocks

namespace Markup

variable {a name s : Text}

/-! ### Readers and what stands behind `>` -/

theorem afterName?_append (hname : '>' ∉ name) (a r : Text) :
    afterName? (a ++ '>' :: r) name = (afterName? a name).map fun p => (p.1, p.2 ++ '>' :: r) := by
  by_cases hlen : name.length ≤ a.length
  · simp only [afterName?, List.take_append_of_le_length hlen, List.drop_append_of_le_length hlen]
    split
    · rfl
    · rfl
  · have hshort : (a.take name.length).map fold ≠ name := by
      intro heq
      have hlength := congrArg List.length heq
      simp only [List.length_map, List.length_take] at hlength
      omega
    have hlong : ((a ++ '>' :: r).take name.length).map fold ≠ name := by
      -- The name would hold the character behind `a`.
      intro heq
      refine hname (heq ▸ List.mem_map.2 ⟨'>', ?_, by decide⟩)
      obtain ⟨k, hk⟩ : ∃ k, name.length - a.length = k + 1 :=
        Nat.exists_eq_succ_of_ne_zero (by omega)
      rw [List.take_append, hk]
      simp
    rw [afterName?, afterName?, if_neg hshort, if_neg hlong]
    rfl

/-- Behind a name, a tag ends at once or with a blank and the first `>` behind it. -/
theorem tagEnd_eq (h : '>' ∉ a) (r : Text) : tagEnd (a ++ '>' :: r) =
    if a.head?.all isBlank then some (a.getLast? == some '/', r) else none := by
  cases a with
  | nil => rfl
  | cons c a =>
    rw [List.mem_cons, not_or] at h
    have hc : c ≠ '>' := fun heq => h.1 heq.symm
    have hplain : ∀ b ∈ a, (b != '>') = true := fun b hb => by
      simpa using fun heq : b = '>' => h.2 (heq ▸ hb)
    rw [List.cons_append, tagEnd]
    · rw [List.takeWhile_append_of_pos hplain, List.dropWhile_append_of_pos hplain,
        List.takeWhile_cons_of_neg (by decide), List.dropWhile_cons_of_neg (by decide),
        List.append_nil]
      rfl
    · exact hc

theorem tagEnd_eq_none (h : '>' ∉ s) : tagEnd s = none := by
  cases s with
  | nil => rfl
  | cons c s =>
    rw [List.mem_cons, not_or] at h
    have hplain : s.dropWhile (· != '>') = [] := by
      rw [← List.append_nil s, List.dropWhile_append_of_pos]
      · rfl
      · intro b hb
        simpa using fun heq : b = '>' => h.2 (heq ▸ hb)
    rw [tagEnd]
    · rw [hplain, ite_self]
    · exact fun heq => h.1 heq.symm

theorem tagEnd_iff {rest : Text} {slash : Bool} : tagEnd s = some (slash, rest) ↔ ∃ a, '>' ∉ a ∧
    a.head?.all isBlank = true ∧ s = a ++ '>' :: rest ∧ slash = (a.getLast? == some '/') := by
  constructor
  · intro h
    have hmem : '>' ∈ s := by
      by_contra hnot
      rw [tagEnd_eq_none hnot] at h
      exact absurd h (by simp)
    obtain ⟨a, r, rfl, ha⟩ := List.eq_append_cons_of_mem hmem
    rw [tagEnd_eq ha, Option.ite_none_right_eq_some] at h
    obtain ⟨hblank, hread⟩ := h
    obtain ⟨rfl, rfl⟩ := Prod.mk.inj (Option.some.inj hread)
    exact ⟨a, ha, hblank, rfl, rfl⟩
  · rintro ⟨a, ha, hblank, rfl, rfl⟩
    rw [tagEnd_eq ha, if_pos hblank]

theorem tagEnd_append (h : '>' ∉ a) (r : Text) :
    tagEnd (a ++ '>' :: r) = (tagEnd (a ++ ['>'])).map fun p => (p.1, r) := by
  rw [tagEnd_eq h, tagEnd_eq h]
  split
  · rfl
  · rfl

theorem slash_append (a r : Text) :
    Text.startsWith (a ++ '>' :: r) "/".toList = Text.startsWith a "/".toList ∧
      Text.dropStart (a ++ '>' :: r) "/".toList = Text.dropStart a "/".toList ++ '>' :: r := by
  cases a with
  | nil => exact ⟨rfl, rfl⟩
  | cons c a =>
    by_cases hc : c = '/'
    · simp [Text.startsWith, Text.dropStart, Text.after?, hc]
    · simp [Text.startsWith, Text.dropStart, Text.after?, hc]

theorem findSome?_afterName?_append {ns : List Text} (hns : ∀ name ∈ ns, '>' ∉ name)
    (a r : Text) : ns.findSome? (afterName? (a ++ '>' :: r)) =
      (ns.findSome? (afterName? a)).map fun p => (p.1, p.2 ++ '>' :: r) := by
  induction ns with
  | nil => rfl
  | cons name ns ih =>
    obtain ⟨hname, hns⟩ := List.forall_mem_cons.1 hns
    rw [List.findSome?_cons, List.findSome?_cons, afterName?_append hname, ih hns]
    cases afterName? a name with
    | none => rfl
    | some p => rfl

theorem suffix_of_findSome? {ns : List Text} {written rest : Text}
    (h : ns.findSome? (afterName? s) = some (written, rest)) : rest <:+ s := by
  obtain ⟨name, -, hname⟩ := List.exists_of_findSome?_eq_some h
  rw [afterName?, Option.ite_none_right_eq_some] at hname
  obtain ⟨-, rfl⟩ := Prod.mk.inj (Option.some.inj hname.2)
  exact List.drop_suffix _ s

theorem suffix_of_dropStart (s lit : Text) : Text.dropStart s lit <:+ s := by
  rw [Text.dropStart]
  cases h : Text.after? s lit with
  | none => exact List.suffix_refl s
  | some rest => exact Text.suffix_of_after? h

/-- A tag ends with the first `>`, and what stands behind it does not matter. -/
theorem tag_append (h : '>' ∉ a) (r : Text) :
    tag ('<' :: (a ++ '>' :: r)) = (tag ('<' :: (a ++ ['>']))).map fun p => (p.1, r) := by
  have hnames : ∀ name ∈ names, '>' ∉ name := by decide
  have hstart : ∀ r, Text.after? ('<' :: (a ++ '>' :: r)) "<".toList = some (a ++ '>' :: r) :=
    fun r => Text.after?_append ['<'] (a ++ '>' :: r)
  simp only [tag, hstart, Option.bind_eq_bind, Option.bind_some, (slash_append a _).1,
    (slash_append a _).2, findSome?_afterName?_append hnames]
  cases hname : names.findSome? (afterName? (Text.dropStart a "/".toList)) with
  | none => rfl
  | some p =>
    obtain ⟨written, rest⟩ := p
    have hrest : '>' ∉ rest := by
      intro hmem
      have hbehind := (suffix_of_findSome? hname).subset hmem
      exact h ((suffix_of_dropStart a _).subset hbehind)
    simp only [Option.map_some, Option.bind_some]
    rw [tagEnd_append hrest r]
    cases tagEnd (rest ++ ['>']) with
    | none => rfl
    | some q => rfl

/-! ### Texts that split no tag -/

/-- Every `<` of the text has a `>` somewhere behind it. -/
def Closed (s : Text) : Prop := ∀ t, '<' :: t <:+ s → '>' ∈ t

theorem closed_nil : Closed [] := fun _ h => absurd (List.suffix_nil.1 h) (List.cons_ne_nil _ _)

theorem closed_cons {c : Char} : Closed (c :: s) ↔ (c = '<' → '>' ∈ s) ∧ Closed s := by
  constructor
  · intro h
    refine ⟨fun hc => h s ?_, fun t ht => h t (ht.trans (List.suffix_cons c s))⟩
    rw [hc]
  · rintro ⟨hc, hs⟩ t ht
    rcases List.suffix_cons_iff.1 ht with heq | ht
    · obtain ⟨rfl, rfl⟩ := List.cons.inj heq
      exact hc rfl
    · exact hs t ht

instance : ∀ s, Decidable (Closed s)
  | [] => isTrue closed_nil
  | _ :: s =>
    have := instDecidableClosed s
    decidable_of_iff _ closed_cons.symm

@[simp] theorem tags_nil : tags [] = [] := Text.occurrences_nil _ _

theorem tags_cons_of_none {c : Char} (h : tag (c :: s) = none) : tags (c :: s) = tags s :=
  Text.allMatches_cons_of_none h

theorem tag_eq_none {c : Char} (h : c ≠ '<') (s : Text) : tag (c :: s) = none := by
  have hstart : Text.after? (c :: s) "<".toList = none := by simp [Text.after?, h]
  rw [tag, hstart]
  rfl

/-- Behind `<`, the text up to the first `>` is read as one tag, or its `<` is passed over. -/
theorem tags_lt_append (h : '>' ∉ a) :
    (∃ t, ∀ r, tags ('<' :: (a ++ '>' :: r)) = t :: tags r) ∨
      ∀ r, tags ('<' :: (a ++ '>' :: r)) = tags (a ++ '>' :: r) := by
  have hread := tag_append h
  cases hshort : tag ('<' :: (a ++ ['>'])) with
  | none =>
    simp only [hshort, Option.map_none] at hread
    exact .inr fun r => tags_cons_of_none (hread r)
  | some p =>
    simp only [hshort, Option.map_some] at hread
    refine .inl ⟨p.1, fun r => ?_⟩
    have hsplit : '<' :: (a ++ '>' :: r) = '<' :: (a ++ ['>']) ++ r := by simp
    have hr := hread r
    rw [hsplit] at hr ⊢
    exact Text.allMatches_of_read (List.cons_ne_nil _ _) hr

/-- The tags of a text that splits no tag are read alike with any text behind it. -/
theorem tags_append {s : Text} (h : Closed s) (t : Text) : tags (s ++ t) = tags s ++ tags t := by
  match s with
  | [] => simp
  | c :: a =>
    obtain ⟨hclosed, ha⟩ := closed_cons.1 h
    have hrest := tags_append ha t
    by_cases hc : c = '<'
    · subst hc
      obtain ⟨u, v, rfl, hu⟩ := List.eq_append_cons_of_mem (hclosed rfl)
      rw [List.append_assoc, List.cons_append] at hrest
      rw [List.cons_append, List.append_assoc, List.cons_append]
      rcases tags_lt_append hu with ⟨tag, htag⟩ | hskip
      · have hv : Closed v := fun w hw => ha w (hw.trans ⟨u ++ ['>'], by simp⟩)
        rw [htag, htag, tags_append hv t, List.cons_append]
      · rw [hskip, hskip, hrest]
    · rw [List.cons_append, tags_cons_of_none (tag_eq_none hc _),
        tags_cons_of_none (tag_eq_none hc _), hrest]
termination_by s.length

theorem tags_newline (s : Text) : tags ('\n' :: s) = tags s :=
  tags_cons_of_none (tag_eq_none (by decide) s)

/-- Lines that split no tag have the same tags with other lines behind them. -/
theorem tags_join_append {as : List Text} (h : Closed (Text.join ['\n'] as)) (bs : List Text) :
    tags (Text.join ['\n'] (as ++ bs)) =
      tags (Text.join ['\n'] as) ++ tags (Text.join ['\n'] bs) := by
  have hjoin : Text.join ['\n'] [] = [] := rfl
  cases bs with
  | nil => rw [hjoin, tags_nil, List.append_nil, List.append_nil]
  | cons b bs =>
    cases as with
    | nil => rw [hjoin, tags_nil, List.nil_append, List.nil_append]
    | cons a as =>
      rw [Text.join_append_cons, Text.terminated_eq_join (List.cons_ne_nil a as), List.append_assoc,
        List.append_assoc, tags_append h, List.singleton_append, tags_newline, ← Text.join_cons]

end Markup

end TemplateBlocks
