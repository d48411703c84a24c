import TemplateBlocks.Proofs.Assignments

/-!
# Lists of variables

The reader of lists reads exactly the lists of variables that have an equals sign behind them
(`Code.destructuring_iff`). No such list begins within another one, so the search for all of them
finds the variables of each, wherever it stands (`Code.mem_destructuring_iff`).
-/

namespace TemplateBlocks

/-- A variable of a list and what separates it from the next one. -/
structure ListedVariable where
  name : Text
  separator : Text
  isName : VariableName name
  separates : ∀ c ∈ separator, Code.isSeparator c = true

def ListedVariable.text (v : ListedVariable) : Text := '$' :: (v.name ++ v.separator)

/-- What begins a list: a bracket, or a parenthesis behind the word `list`. -/
def ListOpening (o : Text) : Prop :=
  o = ['['] ∨ ∃ v, Blanks v ∧ o = "list".toList ++ (v ++ ['('])

structure VariableList where
  opening : Text
  gap : Text
  items : List ListedVariable
  closing : Char
  opens : ListOpening opening
  blanks : Blanks gap
  ne_nil : items ≠ []
  closes : closing = ')' ∨ closing = ']'

namespace VariableList

def text (l : VariableList) : Text :=
  l.opening ++ (l.gap ++ (l.items.flatMap ListedVariable.text ++ [l.closing]))

def names (l : VariableList) : List Text := l.items.map ListedVariable.name

/-- The list stands in the code with an equals sign behind it. -/
def FacesEquals (l : VariableList) (code : Text) : Prop :=
  ∃ u gap rest, Blanks gap ∧ code = u ++ (l.text ++ (gap ++ '=' :: rest))

end VariableList

/-- Where nothing is closed in front of an equals sign, no list stands in front of one. -/
theorem VariableList.not_facesEquals {code : Text} (h : ∀ before behind,
    code = before ++ '=' :: behind → before.trimEnd.getLast? ∉ [some ')', some ']'])
    (l : VariableList) : ¬ l.FacesEquals code := by
  rintro ⟨u, gap, rest, hgap, rfl⟩
  let s := u ++ (l.opening ++ (l.gap ++ l.items.flatMap ListedVariable.text))
  have hblank : isBlank l.closing = false := by
    rcases l.closes with hc | hc <;> rw [hc] <;> decide
  have hnot := h (s ++ l.closing :: gap) rest (by simp [s, VariableList.text])
  rw [Text.trimEnd_append hblank s hgap, List.getLast?_concat] at hnot
  rcases l.closes with hc | hc <;> simp [hc] at hnot

namespace Code

variable {s t rest x : Text} {ns : List Text}

/-! ### Variables in a row -/

theorem not_isKeyChar_of_isSeparator {c : Char} (h : isSeparator c = true) :
    isKeyChar c = false := by
  refine Bool.eq_false_iff.2 fun hkey => ?_
  simp only [isSeparator, Bool.or_eq_true, beq_iff_eq] at h
  rcases h with hblank | rfl
  · rw [not_blank_of_isKeyChar hkey] at hblank
    exact absurd hblank (by decide)
  · exact absurd hkey (by decide)

/-- The variables of a list are read up to a character that cannot follow. -/
theorem references_text (items : List ListedVariable)
    (hx : ∀ c ∈ x.head?, isKeyChar c = false ∧ isSeparator c = false ∧ c ≠ '$') :
    references (items.flatMap ListedVariable.text ++ x) = (items.map ListedVariable.name, x) := by
  induction items with
  | nil =>
    refine references_of_none ?_
    cases x with
    | nil => rfl
    | cons c x => exact reference_start (hx c rfl).2.2 x
  | cons v items ih =>
    let y := items.flatMap ListedVariable.text ++ x
    have hy : ∀ c ∈ y.head?, isKeyChar c = false ∧ isSeparator c = false := by
      intro c hc
      cases items with
      | nil => exact ⟨(hx c hc).1, (hx c hc).2.1⟩
      | cons w items =>
        obtain rfl : '$' = c := by simpa [y, ListedVariable.text] using hc
        decide
    have hstop : ∀ c ∈ (v.separator ++ y).head?, isKeyChar c = false := by
      intro c hc
      cases hsep : v.separator with
      | nil =>
        rw [hsep] at hc
        exact (hy c hc).1
      | cons d sep =>
        obtain rfl : d = c := by simpa [hsep] using hc
        exact not_isKeyChar_of_isSeparator (v.separates d (by simp [hsep]))
    have hdrop : (v.separator ++ y).dropWhile isSeparator = y :=
      (Text.run_append v.separates fun c hc => (hy c hc).2).2
    have htext : (v :: items).flatMap ListedVariable.text ++ x =
        '$' :: (v.name ++ (v.separator ++ y)) := by
      simp [y, ListedVariable.text]
    rw [htext, references_of_some (reference_append v.isName hstop), hdrop, ih]
    rfl

/-- What is read as variables in a row is spelled as such. -/
theorem exists_items (s : Text) : ∃ items : List ListedVariable,
    (references s).1 = items.map ListedVariable.name ∧
      s = items.flatMap ListedVariable.text ++ (references s).2 ∧
      (items ≠ [] → ∀ c ∈ (references s).2.head?, isSeparator c = false) := by
  induction s using references_induction with
  | stop s href => exact ⟨[], by simp [references_of_none href]⟩
  | step s n rest href ih =>
    obtain ⟨items, hnames, htext, hstop⟩ := ih
    let v : ListedVariable := ⟨n, rest.takeWhile isSeparator, variableName_of_reference href,
      fun c hc => List.mem_takeWhile_imp hc⟩
    rw [references_of_some href]
    refine ⟨v :: items, by simp [hnames, v], ?_, fun _ c hc => ?_⟩
    · have hs := reference_eq_append href
      rw [← List.takeWhile_append_dropWhile (p := isSeparator) (l := rest), htext] at hs
      simpa [v, ListedVariable.text] using hs
    · cases items with
      | nil =>
        rw [List.flatMap_nil, List.nil_append] at htext
        rw [← htext] at hc
        have hhead := List.head?_dropWhile_not isSeparator rest
        rw [Option.mem_def.1 hc] at hhead
        simpa using hhead
      | cons w items => exact hstop (List.cons_ne_nil w items) c hc

/-! ### Lists in front of an equals sign -/

theorem listStart?_iff :
    listStart? s = some rest ↔ ∃ o, ListOpening o ∧ s = o ++ rest := by
  constructor
  · intro h
    rcases eq_append_of_listStart? h with ⟨v, hv, rfl⟩ | rfl
    · exact ⟨_, .inr ⟨v, hv, rfl⟩, by simp⟩
    · exact ⟨['['], .inl rfl, rfl⟩
  · rintro ⟨o, rfl | ⟨v, hv, rfl⟩, rfl⟩
    · exact Text.after?_append "[".toList rest
    · have hdrop : Text.dropBlanks (v ++ '(' :: rest) = '(' :: rest := by
        rw [Text.dropBlanks_append hv, Text.dropBlanks_cons (by decide)]
      have hword : (Text.after? ("list".toList ++ (v ++ '(' :: rest)) "list".toList >>=
          fun s => (Text.dropBlanks s).after? "(".toList) = some rest := by
        rw [Text.after?_append, Option.bind_eq_bind, Option.bind_some, hdrop]
        exact Text.after?_append "(".toList rest
      have htext : "list".toList ++ (v ++ ['(']) ++ rest =
          "list".toList ++ (v ++ '(' :: rest) := by simp
      rw [htext, listStart?, hword]

theorem isKeyword_equals : Marker.IsKeyword "=".toList := ⟨'=', [], rfl, by decide⟩

theorem afterList?_iff : afterList? s = some rest ↔ ∃ w c gap, Blanks w ∧ Blanks gap ∧
    (c = ')' ∨ c = ']') ∧ s = w ++ c :: (gap ++ '=' :: rest) := by
  constructor
  · intro h
    obtain ⟨⟨c, u⟩, hu, h⟩ := Option.bind_eq_some_iff.1 h
    obtain ⟨hc, hs⟩ := Text.char?_eq_some_iff.1 hu
    obtain ⟨w, hw, hsplit⟩ := Text.exists_blanks_append s
    obtain ⟨gap, hgap, rfl⟩ := (Marker.after?_blanks_iff isKeyword_equals).1 h
    rw [hs] at hsplit
    exact ⟨w, c, gap, hw, hgap, by simpa using hc, hsplit⟩
  · rintro ⟨w, c, gap, hw, hgap, hc, rfl⟩
    have hblank : isBlank c = false := by
      rcases hc with rfl | rfl <;> decide
    have hdrop : Text.dropBlanks (w ++ c :: (gap ++ '=' :: rest)) = c :: (gap ++ '=' :: rest) := by
      rw [Text.dropBlanks_append hw, Text.dropBlanks_cons hblank]
    have hchar : Text.char? (fun c => c == ')' || c == ']') (c :: (gap ++ '=' :: rest)) =
        some (c, gap ++ '=' :: rest) :=
      Text.char?_eq_some_iff.2 ⟨by simpa using hc, rfl⟩
    have hequals : (Text.dropBlanks (gap ++ '=' :: rest)).after? "=".toList = some rest :=
      (Marker.after?_blanks_iff isKeyword_equals).2 ⟨gap, hgap, rfl⟩
    rw [afterList?, hdrop, hchar]
    exact hequals

theorem destructuring_text (l : VariableList) {gap : Text} (hgap : Blanks gap) (rest : Text) :
    destructuring (l.text ++ (gap ++ '=' :: rest)) = some (l.names, rest) := by
  let x := l.closing :: (gap ++ '=' :: rest)
  have hstart : listStart? (l.text ++ (gap ++ '=' :: rest)) =
      some (l.gap ++ (l.items.flatMap ListedVariable.text ++ x)) :=
    listStart?_iff.2 ⟨l.opening, l.opens, by simp [VariableList.text, x]⟩
  have hdrop : Text.dropBlanks (l.gap ++ (l.items.flatMap ListedVariable.text ++ x)) =
      l.items.flatMap ListedVariable.text ++ x := by
    obtain ⟨v, items, hitems⟩ := List.exists_cons_of_ne_nil l.ne_nil
    rw [Text.dropBlanks_append l.blanks, hitems, List.flatMap_cons, ListedVariable.text]
    exact Text.dropBlanks_cons (by decide) _
  have hx : ∀ c ∈ x.head?, isKeyChar c = false ∧ isSeparator c = false ∧ c ≠ '$' := by
    intro c hc
    obtain rfl : l.closing = c := by simpa [x] using hc
    rcases l.closes with h | h
    · rw [h]
      decide
    · rw [h]
      decide
  have hafter : afterList? x = some rest :=
    afterList?_iff.2 ⟨[], l.closing, gap, by simp [Blanks], hgap, l.closes, rfl⟩
  rw [destructuring_eq, hstart, Option.bind_eq_bind, Option.bind_some, listItems?, hdrop,
    references_text l.items hx, listed?, if_neg (by simpa using l.ne_nil), hafter]
  rfl

theorem exists_list_of_destructuring (h : destructuring s = some (ns, rest)) :
    ∃ (l : VariableList) (gap : Text),
      Blanks gap ∧ l.names = ns ∧ s = l.text ++ (gap ++ '=' :: rest) := by
  rw [destructuring_eq] at h
  obtain ⟨t, hstart, hitems⟩ := Option.bind_eq_some_iff.1 h
  obtain ⟨o, ho, rfl⟩ := listStart?_iff.1 hstart
  obtain ⟨g, hg, ht⟩ := Text.exists_blanks_append t
  obtain ⟨items, hnames, htext, hstop⟩ := exists_items t.dropBlanks
  rw [listItems?, listed?] at hitems
  split at hitems
  · exact absurd hitems (by simp)
  rename_i hempty
  have hne : items ≠ [] := by
    rintro rfl
    exact hempty (by simp [hnames])
  obtain ⟨u, hafter, heq⟩ := Option.map_eq_some_iff.1 hitems
  obtain ⟨rfl, rfl⟩ := Prod.mk.inj heq
  obtain ⟨w, c, gap, hw, hgap, hc, hrest⟩ := afterList?_iff.1 hafter
  -- Blanks behind the last variable are read as what separates it from another one.
  obtain rfl : w = [] := by
    cases w with
    | nil => rfl
    | cons b w =>
      have hb := hstop hne b (by simp [hrest])
      simp [isSeparator, hw b (List.mem_cons_self ..)] at hb
  refine ⟨⟨o, g, items, c, ho, hg, hne, hc⟩, gap, hgap, hnames.symm, ?_⟩
  rw [hrest] at htext
  rw [ht, htext]
  simp [VariableList.text]

theorem destructuring_iff : destructuring s = some (ns, rest) ↔ ∃ (l : VariableList) (gap : Text),
    Blanks gap ∧ l.names = ns ∧ s = l.text ++ (gap ++ '=' :: rest) := by
  refine ⟨exists_list_of_destructuring, ?_⟩
  rintro ⟨l, gap, hgap, rfl, rfl⟩
  exact destructuring_text l hgap rest

theorem destructuring_leavesSuffix : destructuring.LeavesSuffix := by
  intro s ns rest h
  obtain ⟨l, gap, _, _, rfl⟩ := destructuring_iff.1 h
  exact ⟨l.text ++ (gap ++ ['=']), by simp⟩

/-! ### Lists do not overlap -/

theorem equals_not_mem_of_opening {o : Text} (h : ListOpening o) : '=' ∉ o := by
  rcases h with rfl | ⟨v, hv, rfl⟩
  · decide
  · have hblank := not_mem_of_forall (c := '=') (by decide) hv
    simpa using hblank

theorem listStart?_append_equals (h : listStart? t = none) (x : Text) :
    listStart? (t ++ '=' :: x) = none := by
  refine Option.eq_none_iff_forall_ne_some.2 fun rest hread => ?_
  obtain ⟨o, ho, heq⟩ := listStart?_iff.1 hread
  have hnot : ∀ y, t ≠ o ++ y := fun y hy => by
    rw [listStart?_iff.2 ⟨o, ho, hy⟩] at h
    exact absurd h (by simp)
  rcases List.append_eq_append_iff.1 heq with ⟨y, hy, hrest⟩ | ⟨y, hy, _⟩
  · cases y with
    | nil => exact hnot [] (by simpa using hy.symm)
    | cons c y =>
      obtain rfl := (List.cons.inj hrest).1
      exact equals_not_mem_of_opening ho (by simp [hy])
  · exact hnot y hy

theorem isListChar_of_mem_items {items : List ListedVariable} {c : Char}
    (h : c ∈ items.flatMap ListedVariable.text) : isListChar c = true := by
  obtain ⟨v, _, hc⟩ := List.mem_flatMap.1 h
  rw [ListedVariable.text, List.mem_cons, List.mem_append] at hc
  rcases hc with rfl | hc | hc
  · decide
  · simp [isListChar, v.isName.chars c hc]
  · exact isListChar_of_isSeparator (v.separates c hc)

/-- No list begins within one that has an equals sign behind it. -/
theorem destructuring_inside (l : VariableList) {gap : Text} (hgap : Blanks gap) {t : Text}
    (ht : t <:+ (l.text ++ gap).tail) (x : Text) : destructuring (t ++ '=' :: x) = none := by
  refine destructuring_of_listStart? ?_
  by_cases hne : t = []
  · subst hne
    exact listStart?_start (by decide) (by decide) x
  · have hstart : listStart? (l.text ++ gap) =
        some (l.gap ++ (l.items.flatMap ListedVariable.text ++ (l.closing :: gap))) :=
      listStart?_iff.2 ⟨l.opening, l.opens, by simp [VariableList.text]⟩
    refine listStart?_append_equals (listStart?_inside hstart (fun c hc => ?_) hne ht) x
    simp only [List.mem_append, List.mem_cons] at hc
    rcases hc with hc | hc | rfl | hc
    · exact isListChar_of_isBlank (l.blanks c hc)
    · exact isListChar_of_mem_items hc
    · rcases l.closes with h | h <;> simp [isListChar, h]
    · exact isListChar_of_isBlank (hgap c hc)

/-- A place where a list is read does not lie within a list that is read before. -/
theorem not_covered {listed : List (List Text)} {u v : Text} {r : List Text × Text}
    (h : destructuring v = some r) : ¬ Text.Covered destructuring listed u v := by
  intro hcover
  obtain ⟨x, y, post, b, hx, hy, rfl, hread⟩ := hcover.exists_split
  obtain ⟨l, gap, hgap, _, htext⟩ := destructuring_iff.1 hread
  have hcut : x ++ y = l.text ++ gap ++ ['='] := by
    have hcancel : x ++ y ++ post = l.text ++ gap ++ ['='] ++ post := by simpa using htext
    exact List.append_cancel_right hcancel
  obtain ⟨c, x, rfl⟩ := List.exists_cons_of_ne_nil hx
  obtain ⟨t, e, rfl⟩ := (List.eq_nil_or_concat' y).resolve_left hy
  rw [← List.append_assoc] at hcut
  obtain ⟨hinit, hlast⟩ := List.append_inj' hcut rfl
  obtain rfl : e = '=' := by simpa using hlast
  have hsuf : t <:+ (l.text ++ gap).tail := by
    rw [← hinit]
    exact List.suffix_append x t
  rw [List.append_assoc, List.singleton_append, destructuring_inside l hgap hsuf post] at h
  exact absurd h (by simp)

theorem mem_destructuring_iff {code n : Text} :
    (∃ ns ∈ code.allMatches destructuring, n ∈ ns) ↔
      ∃ l : VariableList, l.FacesEquals code ∧ n ∈ l.names := by
  constructor
  · rintro ⟨ns, hns, hn⟩
    obtain ⟨u, v, rest, rfl, hread⟩ :=
      Text.exists_read_of_mem_allMatches destructuring_leavesSuffix hns
    obtain ⟨l, gap, hgap, rfl, rfl⟩ := destructuring_iff.1 hread
    exact ⟨l, ⟨u, gap, rest, hgap, rfl⟩, hn⟩
  · rintro ⟨l, ⟨u, gap, rest, hgap, rfl⟩, hn⟩
    have hread := destructuring_text l hgap rest
    have hlisted := Text.mem_occurrences_or destructuring_leavesSuffix (u := u) (by simp) hread none
    exact ⟨l.names, hlisted.resolve_right (not_covered hread), hn⟩

end Code

end TemplateBlocks
