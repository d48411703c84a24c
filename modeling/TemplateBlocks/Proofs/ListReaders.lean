import TemplateBlocks.Proofs.VariableReaders

/-!
# Readers of lists of variables

The list of variables in front of an equals sign is steady (`steady_destructuring`). When the end of
a text cuts it off, what was read of it has neither a parenthesis nor a bracket behind the one that
begins it, so no other list begins there (`listStart?_inside`).
-/

namespace TemplateBlocks.Code

variable {s rest n : Text}

/-! ### References in a row -/

/-- The characters that a list of variables may have behind the character that begins it. -/
def isListChar (c : Char) : Bool :=
  isBlank c || isKeyChar c || c == '$' || c == ',' || c == ')' || c == ']'

def isSeparator (c : Char) : Bool := isBlank c || c == ','

theorem references_of_none (h : reference s = none) : references s = ([], s) := by
  rw [references, h]

theorem references_of_some (h : reference s = some (n, rest)) :
    references s = (n :: (references (rest.dropWhile isSeparator)).1,
      (references (rest.dropWhile isSeparator)).2) := by
  have hlen : (rest.dropWhile isSeparator).length < s.length := by
    have hle := (List.dropWhile_suffix isSeparator (l := rest)).length_le
    rw [reference_eq_append h]
    simp only [List.length_append, List.length_cons]
    omega
  rw [references, h]
  simp only [show (fun c => isBlank c || c == ',') = isSeparator from rfl, hlen, if_true]

/-- Induction on the references that are read. -/
theorem references_induction {P : Text → Prop} (stop : ∀ s, reference s = none → P s)
    (step : ∀ s n rest, reference s = some (n, rest) → P (rest.dropWhile isSeparator) → P s)
    (s : Text) : P s := by
  cases href : reference s with
  | none => exact stop s href
  | some r => exact step s _ _ href (references_induction stop step (r.2.dropWhile isSeparator))
termination_by s.length
decreasing_by
  have hle := (List.dropWhile_suffix isSeparator (l := r.2)).length_le
  rw [reference_eq_append href]
  simp only [List.length_append, List.length_cons]
  omega

theorem isListChar_of_isBlank {c : Char} (h : isBlank c = true) : isListChar c = true := by
  simp [isListChar, h]

theorem isListChar_of_isSeparator {c : Char} (h : isSeparator c = true) : isListChar c = true := by
  simp only [isSeparator, Bool.or_eq_true] at h
  rcases h with h | h <;> simp [isListChar, h]

theorem references_eq_append (s : Text) :
    ∃ u, s = u ++ (references s).2 ∧ ∀ c ∈ u, isListChar c = true := by
  induction s using references_induction with
  | stop s href => exact ⟨[], by rw [references_of_none href]; rfl, by simp⟩
  | step s n rest href ih =>
    obtain ⟨u, hu, hlist⟩ := ih
    refine ⟨'$' :: n ++ (rest.takeWhile isSeparator ++ u), ?_, ?_⟩
    · rw [references_of_some href, List.append_assoc, List.append_assoc, ← hu,
        List.takeWhile_append_dropWhile, reference_eq_append href]
    · intro c hc
      simp only [List.cons_append, List.mem_cons, List.mem_append] at hc
      rcases hc with rfl | hc | hc | hc
      · decide
      · simp [isListChar, isKeyChar_of_mem_reference href c hc]
      · exact isListChar_of_isSeparator (List.mem_takeWhile_imp hc)
      · exact hlist c hc

theorem references_append_newline (s w : Text) :
    references (s ++ '\n' :: w) = withLine w (references s) ∨ (references s).2 = [] := by
  induction s using references_induction with
  | stop s href =>
    have href' : reference (s ++ '\n' :: w) = none := by rw [reference_append_newline, href]; rfl
    exact .inl (by rw [references_of_none href, references_of_none href']; rfl)
  | step s n rest href ih =>
    have href' : reference (s ++ '\n' :: w) = some (n, rest ++ '\n' :: w) := by
      rw [reference_append_newline, href]
      rfl
    rw [references_of_some href, references_of_some href']
    rcases Text.dropWhile_append_or isSeparator rest ('\n' :: w) with hall | hdrop
    · right
      rw [List.dropWhile_eq_nil_iff.2 hall, references_of_none rfl]
    · rw [hdrop]
      refine ih.imp (fun h => ?_) id
      rw [h]
      rfl

theorem references_reaches {k : Text} (s : Text) (h : Text.Reaches ('<' :: k) s) :
    Text.Reaches ('<' :: k) (references s).2 := by
  induction s using references_induction with
  | stop s href =>
    rw [references_of_none href]
    exact h
  | step s n rest href ih =>
    rw [references_of_some href]
    exact ih ((reference_reaches h href).dropWhile (by decide))

/-! ### The end of a list -/

def afterList? (s : Text) : Option Text := do
  let (_, s) ← (Text.dropBlanks s).char? fun c => c == ')' || c == ']'
  (Text.dropBlanks s).after? "=".toList

theorem afterList?_append_newline (s w : Text) :
    afterList? (s ++ '\n' :: w) = (afterList? s).map (· ++ '\n' :: w) ∨
      afterList? s = none ∧ ∀ c ∈ s, isListChar c = true := by
  rcases dropBlanks_append_newline_or s w with hblank | hdrop
  · refine .inr ⟨?_, fun c hc => isListChar_of_isBlank (hblank c hc)⟩
    rw [afterList?, dropBlanks_eq_nil hblank]
    rfl
  unfold afterList?
  rw [hdrop, Text.char?_append_newline (by decide)]
  cases hend : Text.char? (fun c => c == ')' || c == ']') s.dropBlanks with
  | none => exact .inl rfl
  | some r =>
    obtain ⟨c, t⟩ := r
    simp only [Option.map_some, withLine, Option.bind_eq_bind, Option.bind_some]
    rcases dropBlanks_append_newline_or t w with hblank | hdrop
    · refine .inr ⟨by rw [dropBlanks_eq_nil hblank]; rfl, ?_⟩
      obtain ⟨v, hv, hsplit⟩ := Text.exists_blanks_append s
      obtain ⟨hc, hs⟩ := Text.char?_eq_some_iff.1 hend
      rw [hsplit, hs]
      intro a ha
      rcases List.mem_append.1 ha with ha | ha
      · exact isListChar_of_isBlank (hv a ha)
      rcases List.mem_cons.1 ha with rfl | ha
      · rw [Bool.or_eq_true] at hc
        rcases hc with hc | hc <;> simp [isListChar, hc]
      · exact isListChar_of_isBlank (hblank a ha)
    · rw [hdrop, Text.after?_append_newline (by decide)]
      exact .inl rfl

def listed? (r : List Text × Text) : Option (List Text × Text) :=
  if r.1.isEmpty then none else (afterList? r.2).map (r.1, ·)

/-- What a list gives behind the character that begins it. -/
def listItems? (s : Text) : Option (List Text × Text) := listed? (references s.dropBlanks)

theorem destructuring_eq (s : Text) : destructuring s = listStart? s >>= listItems? := by
  unfold destructuring
  congr 1
  funext t
  unfold listItems? listed? afterList?
  obtain ⟨ns, rest⟩ := references t.dropBlanks
  cases ns with
  | nil => rfl
  | cons n ns =>
    rw [if_neg (by simp)]
    change ((Text.char? _ rest.dropBlanks).bind fun r => _) = _
    cases Text.char? (fun c => c == ')' || c == ']') rest.dropBlanks with
    | none => rfl
    | some r =>
      obtain ⟨c, u⟩ := r
      simp only [Option.bind_eq_bind, Option.bind_some]
      cases Text.after? u.dropBlanks "=".toList <;> rfl

theorem listed?_withLine (r : List Text × Text) (w : Text) :
    listed? (withLine w r) = (listed? r).map (withLine w) ∨
      listed? r = none ∧ ∀ c ∈ r.2, isListChar c = true := by
  obtain ⟨ns, rest⟩ := r
  cases ns with
  | nil => exact .inl rfl
  | cons n ns =>
    simp only [listed?, withLine, List.isEmpty_cons, Bool.false_eq_true, if_false]
    refine (afterList?_append_newline rest w).imp (fun hafter => ?_) fun h => ?_
    · rw [hafter]
      cases afterList? rest <;> rfl
    · exact ⟨by rw [h.1]; rfl, h.2⟩

theorem listed?_of_end {r : List Text × Text} (h : r.2 = []) : listed? r = none := by
  rw [listed?, h]
  split <;> rfl

theorem listItems?_append_newline (s w : Text) :
    listItems? (s ++ '\n' :: w) = (listItems? s).map (withLine w) ∨
      listItems? s = none ∧ ∀ c ∈ s, isListChar c = true := by
  rcases dropBlanks_append_newline_or s w with hblank | hdrop
  · refine .inr ⟨?_, fun c hc => isListChar_of_isBlank (hblank c hc)⟩
    rw [listItems?, dropBlanks_eq_nil hblank, references_of_none rfl]
    rfl
  -- All that is read in front of the end is made of characters of a list.
  have hlist : (∀ c ∈ (references s.dropBlanks).2, isListChar c = true) →
      ∀ c ∈ s, isListChar c = true := by
    intro hrest c hc
    obtain ⟨v, hv, hsplit⟩ := Text.exists_blanks_append s
    obtain ⟨u, hu, hulist⟩ := references_eq_append s.dropBlanks
    rw [hsplit, hu] at hc
    simp only [List.mem_append] at hc
    rcases hc with hc | hc | hc
    · exact isListChar_of_isBlank (hv c hc)
    · exact hulist c hc
    · exact hrest c hc
  unfold listItems?
  rw [hdrop]
  rcases references_append_newline s.dropBlanks w with hrefs | hend
  · rw [hrefs]
    exact (listed?_withLine _ w).imp id fun ⟨hnone, hall⟩ => ⟨hnone, hlist hall⟩
  · exact .inr ⟨listed?_of_end hend, hlist (by simp [hend])⟩

/-! ### The beginning of a list -/

theorem listStart?_append_newline (s w : Text) :
    listStart? (s ++ '\n' :: w) = (listStart? s).map (· ++ '\n' :: w) ∨
      listStart? s = none ∧ '(' ∉ s ∧ '[' ∉ s := by
  unfold listStart?
  rw [Text.after?_append_newline (by decide), Text.after?_append_newline (by decide)]
  cases hword : s.after? "list".toList with
  | none => exact .inl rfl
  | some t =>
    obtain rfl := Text.eq_append_of_after? hword
    simp only [Option.map_some, Option.bind_eq_bind, Option.bind_some]
    rcases dropBlanks_append_newline_or t w with hblank | hdrop
    · right
      rw [dropBlanks_eq_nil hblank]
      have hparen := not_mem_of_forall (c := '(') (by decide) hblank
      have hbracket := not_mem_of_forall (c := '[') (by decide) hblank
      exact ⟨rfl, by simpa using hparen, by simpa using hbracket⟩
    · left
      rw [hdrop, Text.after?_append_newline (by decide)]
      cases t.dropBlanks.after? "(".toList with
      | some u => rfl
      | none => cases Text.after? ("list".toList ++ t) "[".toList <;> rfl

theorem eq_append_of_listStart? (h : listStart? s = some rest) :
    (∃ v, Blanks v ∧ s = "list".toList ++ (v ++ '(' :: rest)) ∨ s = '[' :: rest := by
  unfold listStart? at h
  split at h
  · rename_i u hu
    obtain rfl := Option.some.inj h
    obtain ⟨t, ht, hu⟩ := Option.bind_eq_some_iff.1 hu
    obtain ⟨v, hv, hsplit⟩ := Text.exists_blanks_append t
    rw [Text.eq_append_of_after? hu] at hsplit
    exact .inl ⟨v, hv, by rw [Text.eq_append_of_after? ht, hsplit]; rfl⟩
  · exact .inr (Text.eq_append_of_after? h)

theorem listStart?_of_not_mem (hparen : '(' ∉ s) (hbracket : '[' ∉ s) : listStart? s = none := by
  refine Option.eq_none_iff_forall_ne_some.2 fun rest h => ?_
  rcases eq_append_of_listStart? h with ⟨v, _, rfl⟩ | rfl
  · exact hparen (by simp)
  · exact hbracket (by simp)

theorem listStart?_start {c : Char} (hl : c ≠ 'l') (hb : c ≠ '[') (s : Text) :
    listStart? (c :: s) = none := by
  refine Option.eq_none_iff_forall_ne_some.2 fun rest h => ?_
  rcases eq_append_of_listStart? h with ⟨v, _, heq⟩ | heq
  · exact hl (List.cons.inj heq).1
  · exact hb (List.cons.inj heq).1

/-- No list begins within the beginning of a list, nor in the characters that it may have. -/
theorem listStart?_inside (h : listStart? s = some rest) (hrest : ∀ c ∈ rest, isListChar c = true)
    {t : Text} (ht : t ≠ []) (hsuf : t <:+ s.tail) : listStart? t = none := by
  have hin : ∀ t, t <:+ rest → listStart? t = none := fun t hsuf =>
    listStart?_of_not_mem
      (fun hmem => not_mem_of_forall (c := '(') (by decide) hrest (hsuf.subset hmem))
      (fun hmem => not_mem_of_forall (c := '[') (by decide) hrest (hsuf.subset hmem))
  rcases eq_append_of_listStart? h with ⟨v, hv, rfl⟩ | rfl
  · have hsuf : t <:+ ("ist".toList ++ v ++ "(".toList) ++ rest := by simpa using hsuf
    rcases Text.suffix_append_or hsuf with hsuf | ⟨c, u, rfl, hc⟩
    · exact hin t hsuf
    · have hl := not_mem_of_forall (c := 'l') (by decide) hv
      have hb := not_mem_of_forall (c := '[') (by decide) hv
      refine listStart?_start ?_ ?_ u
      · rintro rfl
        simp [hl] at hc
      · rintro rfl
        simp [hb] at hc
  · exact hin t hsuf

theorem destructuring_of_listStart? (h : listStart? s = none) : destructuring s = none := by
  rw [destructuring_eq, h]
  rfl

theorem destructuring_append_newline (s w : Text) :
    destructuring (s ++ '\n' :: w) = (destructuring s).map (withLine w) ∨
      destructuring s = none ∧ ∀ t, t ≠ [] → t <:+ s.tail → destructuring t = none := by
  rw [destructuring_eq, destructuring_eq]
  rcases listStart?_append_newline s w with hstart | ⟨hnone, hparen, hbracket⟩
  · rw [hstart]
    cases hs : listStart? s with
    | none => exact .inl rfl
    | some rest =>
      refine (listItems?_append_newline rest w).imp id fun ⟨hnone, hall⟩ => ⟨hnone, ?_⟩
      exact fun t ht hsuf => destructuring_of_listStart? (listStart?_inside hs hall ht hsuf)
  · refine .inr ⟨by rw [hnone]; rfl, fun t _ hsuf => destructuring_of_listStart? ?_⟩
    have htail : t ⊆ s := List.Subset.trans hsuf.subset (List.tail_subset s)
    exact listStart?_of_not_mem (fun h => hparen (htail h)) fun h => hbracket (htail h)

theorem listStart?_reaches {k : Text} (h : Text.Apart ('<' :: k) s)
    (hread : listStart? s = some rest) : Text.Apart ('<' :: k) rest := by
  unfold listStart? at hread
  split at hread
  · rename_i u hu
    obtain rfl := Option.some.inj hread
    obtain ⟨t, ht, hu⟩ := Option.bind_eq_some_iff.1 hu
    have hword := (h.after? (by decide) ht).reaches.dropWhile (p := isBlank) (by decide)
    exact hword.after? (by decide) (by simp [List.cons_prefix_cons]) hu
  · exact h.after? (by decide) hread

theorem steady_destructuring : Steady (fun _ => destructuring) id where
  start _ _ s h := destructuring_of_listStart? (listStart?_start
    (ne_of_isBlank_or (by decide) (by decide) h) (ne_of_isBlank_or (by decide) (by decide) h) s)
  front _ k s ns rest h hread := by
    rw [destructuring_eq] at hread
    obtain ⟨t, ht, hread⟩ := Option.bind_eq_some_iff.1 hread
    rw [listItems?, listed?] at hread
    split at hread
    · exact absurd hread (Option.some_ne_none _).symm
    obtain ⟨u, hu, heq⟩ := Option.map_eq_some_iff.1 hread
    obtain ⟨_, rfl⟩ := Prod.mk.inj heq
    obtain ⟨⟨c, v⟩, hv, hu⟩ := Option.bind_eq_some_iff.1 hu
    have hitems := references_reaches _
      ((listStart?_reaches h ht).reaches.dropWhile (p := isBlank) (by decide))
    have hend := (hitems.dropWhile (p := isBlank) (by decide)).char? (by decide) hv
    exact ((hend.dropWhile (p := isBlank) (by decide)).after? (by decide)
      (by simp [List.cons_prefix_cons]) hu).reaches
  back before s w := by
    refine (destructuring_append_newline s w).imp id fun ⟨hnone, htail⟩ => ?_
    rw [Text.found_eq_nil_of_tail hnone fun t ht hsuf _ => htail t ht hsuf]
    exact List.nil_subset _

end TemplateBlocks.Code
