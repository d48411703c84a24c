import TemplateBlocks.Flow
import TemplateBlocks.Proofs.SteadyMatches

/-!
# Readers of variables

A reference, an assignment and a binding are steady: they end in front of a comment, and what the
end of a text cuts off holds no further match (`steady_reference`, `steady_assignment`,
`steady_binding`).
-/

namespace TemplateBlocks

/-! ### Readers in front of a newline -/

/-- What is left to read when a line is added to the text. -/
def withLine {α : Type} (w : Text) (r : α × Text) : α × Text := (r.1, r.2 ++ '\n' :: w)

namespace Text

variable {p : Char → Bool}

theorem after?_append_newline {lit : Text} (hlit : '\n' ∉ lit) (s w : Text) :
    (s ++ '\n' :: w).after? lit = (s.after? lit).map (· ++ '\n' :: w) := by
  induction lit generalizing s with
  | nil => simp [after?]
  | cons a lit ih =>
    rw [List.mem_cons, not_or] at hlit
    cases s with
    | nil => simp [after?, hlit.1]
    | cons c s =>
      by_cases hc : c = a
      · simp [after?, hc, ih hlit.2]
      · simp [after?, hc]

theorem dropWhile_append_newline (hp : p '\n' = false) (s w : Text) :
    (s ++ '\n' :: w).dropWhile p = s.dropWhile p ++ '\n' :: w := by
  rw [List.dropWhile_append]
  split
  · rename_i h
    rw [List.isEmpty_iff.1 h, List.dropWhile_cons_of_neg (by simp [hp]), List.nil_append]
  · rfl

theorem takeWhile_append_newline (hp : p '\n' = false) (s w : Text) :
    (s ++ '\n' :: w).takeWhile p = s.takeWhile p := by
  rw [List.takeWhile_append]
  split
  · rename_i h
    rw [List.takeWhile_cons_of_neg (by simp [hp]), List.append_nil]
    exact ((List.takeWhile_prefix p).eq_of_length h).symm
  · rfl

theorem dropWhile_append_or (p : Char → Bool) (s v : Text) :
    (∀ c ∈ s, p c = true) ∨ (s ++ v).dropWhile p = s.dropWhile p ++ v := by
  rw [List.dropWhile_append]
  split
  · rename_i h
    exact .inl (by simpa using h)
  · exact .inr rfl

theorem char?_append_of_ne_nil {s : Text} (hs : s ≠ []) (w : Text) :
    char? p (s ++ '\n' :: w) = (char? p s).map (withLine w) := by
  obtain ⟨c, t, rfl⟩ := List.exists_cons_of_ne_nil hs
  rw [List.cons_append, char?, char?]
  split <;> rfl

theorem char?_append_newline (hp : p '\n' = false) (s w : Text) :
    char? p (s ++ '\n' :: w) = (char? p s).map (withLine w) := by
  cases s with
  | nil => simp [char?, hp]
  | cons c s => exact char?_append_of_ne_nil (List.cons_ne_nil c s) w

end Text

namespace Code

variable {s rest n : Text}

theorem name_append_newline (s w : Text) : name (s ++ '\n' :: w) = (name s).map (withLine w) := by
  cases s with
  | nil => rfl
  | cons c s =>
    by_cases hc : isNameStart c = true
    · have hkey : isKeyChar '\n' = false := by decide
      simp [name, hc, Text.takeWhile_append_newline hkey, Text.dropWhile_append_newline hkey,
        withLine]
    · simp [name, hc]

theorem reference_append_newline (s w : Text) :
    reference (s ++ '\n' :: w) = (reference s).map (withLine w) := by
  rw [reference, reference, Text.after?_append_newline (by decide)]
  cases s.after? "$".toList with
  | none => rfl
  | some t => exact name_append_newline t w

theorem reference_start {c : Char} (hc : c ≠ '$') (s : Text) : reference (c :: s) = none := by
  simp [reference, Text.after?, hc]

theorem isKeyChar_of_mem_reference (h : reference s = some (n, rest)) :
    ∀ c ∈ n, isKeyChar c = true := by
  obtain ⟨t, _, hname⟩ := Option.bind_eq_some_iff.1 h
  cases t with
  | nil => simp [name] at hname
  | cons c t =>
    by_cases hc : isNameStart c = true
    · simp only [name, hc, if_true, Option.some.injEq, Prod.mk.injEq] at hname
      obtain ⟨rfl, _⟩ := hname
      exact List.forall_mem_cons.2
        ⟨isKeyChar_of_isNameStart hc, fun a ha => List.mem_takeWhile_imp ha⟩
    · simp [name, hc] at hname

/-- A reference in front of a comment ends in front of it. -/
theorem reference_reaches {k : Text} (h : Text.Reaches ('<' :: k) s)
    (hread : reference s = some (n, rest)) : Text.Reaches ('<' :: k) rest := by
  rcases h with rfl | h
  · rw [reference_start (by decide)] at hread
    exact absurd hread (Option.some_ne_none _).symm
  obtain ⟨t, ht, hname⟩ := Option.bind_eq_some_iff.1 hread
  have hapart := h.after? (by decide) ht
  cases t with
  | nil => simp [name] at hname
  | cons c t =>
    by_cases hc : isNameStart c = true
    · simp only [name, hc, if_true, Option.some.injEq, Prod.mk.injEq] at hname
      obtain ⟨_, rfl⟩ := hname
      exact hapart.tail.dropWhile (by decide)
    · simp [name, hc] at hname

/-! ### References -/

theorem ne_of_isBlank_or {c d : Char} (hd : isBlank d = false) (hd' : d ≠ '<')
    (h : isBlank c = true ∨ c = '<') : c ≠ d := by
  rintro rfl
  rcases h with h | h
  · rw [hd] at h
    exact absurd h Bool.false_ne_true
  · exact hd' h

theorem steady_reference : Steady (fun _ => reference) fun n => [n] where
  start _ _ s h := reference_start (ne_of_isBlank_or (by decide) (by decide) h) s
  front _ _ _ _ _ h hread := reference_reaches h.reaches hread
  back _ s w := .inl (reference_append_newline s w)

/-! ### Assignments -/

def afterOperator? (op s : Text) : Option Text := do
  let s ← s.after? op >>= (Text.after? · "=".toList)
  let (_, s) ← Text.char? (fun c => c != '=' && c != '>') s
  return s

theorem afterAssign?_eq (s : Text) : afterAssign? s = operators.findSome? (afterOperator? · s) :=
  rfl

theorem afterAssign?_reaches {k : Text} (h : Text.Reaches ('<' :: '!' :: k) s)
    (hread : afterAssign? s = some rest) : Text.Reaches ('<' :: '!' :: k) rest := by
  obtain ⟨op, hop, hread⟩ := List.exists_of_findSome?_eq_some (afterAssign?_eq s ▸ hread)
  obtain ⟨t, ht, hread⟩ := Option.bind_eq_some_iff.1 hread
  obtain ⟨⟨c, u⟩, hu, hread⟩ := Option.bind_eq_some_iff.1 hread
  obtain rfl := Option.some.inj hread
  obtain ⟨v, hv, ht⟩ := Option.bind_eq_some_iff.1 ht
  have hequals : s.after? (op ++ "=".toList) = some t := by
    rw [Text.eq_append_of_after? hv, Text.eq_append_of_after? ht, ← List.append_assoc]
    exact Text.after?_append _ _
  have hplain : ∀ op ∈ operators, Text.Free isBlank (op ++ "=".toList) := by decide
  have hcomment : ∀ op ∈ operators, ¬ op ++ "=".toList <+: '<' :: '!' :: k := by
    simp [operators, List.cons_prefix_cons]
  exact (h.after? (hplain op hop) (hcomment op hop) hequals).char? hu

/-- The character that must follow an operator is the only place where the end of the text makes
a difference. -/
theorem afterOperator?_append_newline {op : Text} (hop : '\n' ∉ op) (hs : s ≠ op ++ "=".toList)
    (w : Text) :
    afterOperator? op (s ++ '\n' :: w) = (afterOperator? op s).map (· ++ '\n' :: w) := by
  unfold afterOperator?
  rw [Text.after?_append_newline hop]
  cases hv : s.after? op with
  | none => rfl
  | some v =>
    simp only [Option.map_some, Option.bind_eq_bind, Option.bind_some]
    rw [Text.after?_append_newline (by decide)]
    cases ht : v.after? "=".toList with
    | none => rfl
    | some t =>
      have ht' : t ≠ [] := by
        rintro rfl
        rw [Text.after?_eq_some_iff] at hv ht
        exact hs (by rw [hv, ht, List.append_nil])
      simp only [Option.map_some, Option.bind_some]
      rw [Text.char?_append_of_ne_nil ht']
      cases t.char? fun c => c != '=' && c != '>' <;> rfl

theorem findSome?_append_newline {ops : List Text} {f : Text → Text → Option Text} {w : Text}
    (h : ∀ op ∈ ops, f op (s ++ '\n' :: w) = (f op s).map (· ++ '\n' :: w)) :
    ops.findSome? (f · (s ++ '\n' :: w)) = (ops.findSome? (f · s)).map (· ++ '\n' :: w) := by
  induction ops with
  | nil => rfl
  | cons op ops ih =>
    have htail := ih fun x hx => h x (List.mem_cons_of_mem op hx)
    rw [List.findSome?_cons, List.findSome?_cons, h op (List.mem_cons_self ..), htail]
    cases f op s <;> rfl

theorem afterAssign?_append_newline (s w : Text) :
    afterAssign? (s ++ '\n' :: w) = (afterAssign? s).map (· ++ '\n' :: w) ∨
      afterAssign? s = none ∧ '$' ∉ s := by
  by_cases hs : ∃ op ∈ operators, s = op ++ "=".toList
  · have hends : ∀ op ∈ operators,
        afterAssign? (op ++ "=".toList) = none ∧ '$' ∉ op ++ "=".toList := by decide
    obtain ⟨op, hop, rfl⟩ := hs
    exact .inr (hends op hop)
  · have hnewline : ∀ op ∈ operators, '\n' ∉ op := by decide
    exact .inl (findSome?_append_newline fun op hop =>
      afterOperator?_append_newline (hnewline op hop) (fun heq => hs ⟨op, hop, heq⟩) w)

theorem not_mem_of_forall {p : Char → Bool} {c : Char} (hc : p c = false)
    (h : ∀ a ∈ s, p a = true) : c ∉ s := by
  intro hmem
  rw [h c hmem] at hc
  exact absurd hc Bool.noConfusion

theorem dropBlanks_eq_nil (h : ∀ a ∈ s, isBlank a = true) : s.dropBlanks = [] := by
  simpa [Text.dropBlanks] using h

/-- When the end of a text cuts an assignment off, no other assignment begins in the text. -/
theorem assignment_append_newline (s w : Text) :
    assignment (s ++ '\n' :: w) = (assignment s).map (withLine w) ∨
      assignment s = none ∧ '$' ∉ s.tail := by
  unfold assignment
  rw [reference_append_newline]
  cases href : reference s with
  | none => exact .inl rfl
  | some r =>
    obtain ⟨n, t⟩ := r
    obtain rfl := reference_eq_append href
    simp only [Option.map_some, withLine, Option.bind_eq_bind, Option.bind_some]
    have hname := not_mem_of_forall (c := '$') (by decide) (isKeyChar_of_mem_reference href)
    rcases Text.dropWhile_append_or isBlank t ('\n' :: w) with hblank | hdrop
    · refine .inr ⟨?_, ?_⟩
      · rw [dropBlanks_eq_nil hblank]
        rfl
      · have hrest := not_mem_of_forall (c := '$') (by decide) hblank
        simp [hname, hrest]
    · have hdrop : Text.dropBlanks (t ++ '\n' :: w) = t.dropBlanks ++ '\n' :: w := hdrop
      rw [hdrop]
      rcases afterAssign?_append_newline t.dropBlanks w with hagree | ⟨hnone, hnot⟩
      · left
        rw [hagree]
        cases afterAssign? t.dropBlanks <;> rfl
      · refine .inr ⟨by rw [hnone]; rfl, ?_⟩
        obtain ⟨v, hv, hsplit⟩ := Text.exists_blanks_append t
        have hrest := not_mem_of_forall (c := '$') (by decide) hv
        rw [hsplit]
        simp [hname, hrest, hnot]

theorem assignment_start {c : Char} (hc : c ≠ '$') (s : Text) : assignment (c :: s) = none := by
  rw [assignment, reference_start hc]
  rfl

theorem steady_assignment : Steady (fun _ => assignment) fun n => [n] where
  start _ _ s h := assignment_start (ne_of_isBlank_or (by decide) (by decide) h) s
  front _ k s n rest h hread := by
    obtain ⟨⟨n', t⟩, href, hread⟩ := Option.bind_eq_some_iff.1 hread
    obtain ⟨u, hu, heq⟩ := Option.bind_eq_some_iff.1 hread
    obtain ⟨_, rfl⟩ := Prod.mk.inj (Option.some.inj heq)
    have hblanks := (reference_reaches h.reaches href).dropWhile (p := isBlank) (by decide)
    exact afterAssign?_reaches hblanks hu
  back before s w := by
    refine (assignment_append_newline s w).imp id fun ⟨hnone, htail⟩ => ?_
    rw [Text.found_eq_nil_of_tail hnone fun t ht hsuf _ => ?_]
    · exact List.nil_subset _
    · obtain ⟨c, t, rfl⟩ := List.exists_cons_of_ne_nil ht
      exact assignment_start (fun hc => htail (hsuf.subset (by simp [hc]))) t

/-! ### Bindings -/

theorem dropBlanks_append_newline_or (s w : Text) :
    (∀ c ∈ s, isBlank c = true) ∨ (s ++ '\n' :: w).dropBlanks = s.dropBlanks ++ '\n' :: w :=
  Text.dropWhile_append_or isBlank s ('\n' :: w)

theorem boundValue_append_newline (s w : Text) :
    boundValue (s ++ '\n' :: w) = (boundValue s).map (withLine w) ∨
      boundValue s = none ∧ 'a' ∉ s := by
  obtain ⟨v, hv, hsplit⟩ := Text.exists_blanks_append s
  have hva := not_mem_of_forall (c := 'a') (by decide) hv
  rcases dropBlanks_append_newline_or s w with hblank | hdrop
  · refine .inr ⟨?_, not_mem_of_forall (by decide) hblank⟩
    rw [boundValue, dropBlanks_eq_nil hblank]
    rfl
  unfold boundValue
  rw [hdrop, Text.after?_append_newline (by decide)]
  cases harrow : s.dropBlanks.after? "=>".toList with
  | none => exact .inl rfl
  | some t =>
    rw [Text.after?_eq_some_iff] at harrow
    simp only [Option.map_some, Option.bind_eq_bind, Option.bind_some]
    rcases dropBlanks_append_newline_or t w with hblank | hdrop
    · refine .inr ⟨by rw [dropBlanks_eq_nil hblank]; rfl, ?_⟩
      have hta := not_mem_of_forall (c := 'a') (by decide) hblank
      rw [hsplit, harrow]
      simp [hva, hta]
    · rw [hdrop]
      exact .inl (reference_append_newline t.dropBlanks w)

theorem binding_of_inside {before : Option Char} (h : wordMayStart before = false) (s : Text) :
    binding before s = none := by
  rw [binding, h]
  rfl

theorem boundValue_reaches {k : Text} (h : Text.Reaches ('<' :: k) s)
    (hread : boundValue s = some (n, rest)) : Text.Reaches ('<' :: k) rest := by
  obtain ⟨t, ht, href⟩ := Option.bind_eq_some_iff.1 hread
  have hblanks := h.dropWhile (p := isBlank) (by decide)
  have harrow := hblanks.after? (by decide) (by simp [List.cons_prefix_cons]) ht
  exact reference_reaches (harrow.reaches.dropWhile (p := isBlank) (by decide)) href

theorem dropBlanks1?_append_newline_or (s w : Text) :
    (∀ c ∈ s, isBlank c = true) ∨
      (s ++ '\n' :: w).dropBlanks1? = s.dropBlanks1?.map (· ++ '\n' :: w) := by
  cases s with
  | nil => exact .inl (by simp)
  | cons c s =>
    by_cases hc : isBlank c = true
    · refine (dropBlanks_append_newline_or s w).imp (List.forall_mem_cons.2 ⟨hc, ·⟩) fun hdrop => ?_
      rw [List.cons_append, Text.dropBlanks1?, if_pos hc, Text.dropBlanks1?, if_pos hc, hdrop]
      rfl
    · refine .inr ?_
      rw [List.cons_append, Text.dropBlanks1?, if_neg hc, Text.dropBlanks1?, if_neg hc]
      rfl

theorem dropBlanks1?_reaches {k : Text} (h : Text.Apart ('<' :: k) s)
    (hread : s.dropBlanks1? = some rest) : Text.Reaches ('<' :: k) rest := by
  cases s with
  | nil => simp [Text.dropBlanks1?] at hread
  | cons c s =>
    by_cases hc : isBlank c = true
    · rw [Text.dropBlanks1?, if_pos hc] at hread
      obtain rfl := Option.some.inj hread
      exact h.tail.dropWhile (by decide)
    · simp [Text.dropBlanks1?, hc] at hread

/-- What a binding gives from the text behind its key. -/
def bound (key : Text) (s : Text) : List Text × Text :=
  match boundValue s with
  | some (value, s) => ([key, value], s)
  | none => ([key], s)

theorem key_mem_bound (key s : Text) : key ∈ (bound key s).1 := by
  unfold bound
  split <;> simp

theorem binding_eq {before : Option Char} (h : wordMayStart before = true) (s : Text) :
    binding before s = (s.after? "as".toList >>= Text.dropBlanks1?).bind fun u =>
      (reference u).map fun r => bound r.1 r.2 := by
  have hread : binding before s = (s.after? "as".toList >>= Text.dropBlanks1?).bind fun u =>
      (reference u).bind fun r => match boundValue r.2 with
        | some (value, s) => some ([r.1, value], s)
        | none => some ([r.1], r.2) := by
    rw [binding, h]
    rfl
  rw [hread]
  congr 1
  funext u
  cases reference u with
  | none => rfl
  | some r =>
    obtain ⟨key, t⟩ := r
    simp only [Option.bind_some, Option.map_some, bound]
    cases boundValue t <;> rfl

theorem binding_start {c : Char} (hc : c ≠ 'a') (before : Option Char) (s : Text) :
    binding before (c :: s) = none := by
  cases hw : wordMayStart before with
  | false => exact binding_of_inside hw _
  | true => simp [binding_eq hw, Text.after?, hc]

/-- The end of a text can cut a binding off in front of its key, and then none begins in the text,
or behind its key, and then it gives the key. -/
theorem binding_append_newline {before : Option Char} (h : wordMayStart before = true)
    (s w : Text) :
    binding before (s ++ '\n' :: w) = (binding before s).map (withLine w) ∨
      (binding before s = none ∧ 'a' ∉ s.tail) ∨
      ∃ key rest r, binding before s = some ([key], rest) ∧ 'a' ∉ rest ∧
        rest.length < s.length ∧ binding before (s ++ '\n' :: w) = some r ∧ key ∈ r.1 := by
  rw [binding_eq h, binding_eq h, Text.after?_append_newline (by decide)]
  cases has : s.after? "as".toList with
  | none => exact .inl rfl
  | some t =>
    rw [Text.after?_eq_some_iff] at has
    subst has
    simp only [Option.map_some, Option.bind_eq_bind, Option.bind_some]
    rcases dropBlanks1?_append_newline_or t w with hblank | hdrop
    · refine .inr (.inl ⟨?_, ?_⟩)
      · cases t with
        | nil => rfl
        | cons c t =>
          obtain ⟨hc, ht⟩ := List.forall_mem_cons.1 hblank
          rw [Text.dropBlanks1?, if_pos hc, dropBlanks_eq_nil ht]
          rfl
      · simpa using not_mem_of_forall (c := 'a') (by decide) hblank
    · rw [hdrop]
      cases hu : t.dropBlanks1? with
      | none => exact .inl rfl
      | some u =>
        simp only [Option.map_some, Option.bind_some]
        rw [reference_append_newline]
        cases href : reference u with
        | none => exact .inl rfl
        | some r =>
          obtain ⟨key, r⟩ := r
          simp only [Option.map_some, withLine]
          rcases boundValue_append_newline r w with hvalue | ⟨hnone, hr⟩
          · left
            simp only [bound, hvalue]
            cases boundValue r <;> rfl
          · refine .inr (.inr ⟨key, r, _, by simp [bound, hnone], hr, ?_, rfl, key_mem_bound key _⟩)
            have hsuffix := (Text.dropBlanks1?_suffix hu).length_le
            rw [reference_eq_append href] at hsuffix
            simp only [List.length_append, List.length_cons] at hsuffix ⊢
            omega

theorem steady_binding : Steady binding id where
  start before _ s h := binding_start (ne_of_isBlank_or (by decide) (by decide) h) before s
  front before k s ns rest h hread := by
    cases hw : wordMayStart before with
    | false => simp [binding_of_inside hw] at hread
    | true =>
      rw [binding_eq hw] at hread
      obtain ⟨u, hu, hread⟩ := Option.bind_eq_some_iff.1 hread
      obtain ⟨⟨key, r⟩, href, hbound⟩ := Option.map_eq_some_iff.1 hread
      obtain ⟨t, ht, hu⟩ := Option.bind_eq_some_iff.1 hu
      have hkey := reference_reaches (dropBlanks1?_reaches (h.after? (by decide) ht) hu) href
      unfold bound at hbound
      split at hbound
      · rename_i value v hvalue
        obtain ⟨_, rfl⟩ := Prod.mk.inj hbound
        exact boundValue_reaches hkey hvalue
      · obtain ⟨_, rfl⟩ := Prod.mk.inj hbound
        exact hkey
  back before s w := by
    have hstart : ∀ t u : Text, t ≠ [] → t <:+ u → 'a' ∉ u → ∀ b, binding b t = none := by
      intro t u ht hsuf hu b
      obtain ⟨c, t, rfl⟩ := List.exists_cons_of_ne_nil ht
      exact binding_start (fun hc => hu (hsuf.subset (by simp [hc]))) b t
    cases hw : wordMayStart before with
    | false => exact .inl (by rw [binding_of_inside hw, binding_of_inside hw]; rfl)
    | true =>
      rcases binding_append_newline hw s w with hagree | ⟨hnone, htail⟩ |
        ⟨key, rest, r, hread, hrest, hlen, hread', hkey⟩
      · exact .inl hagree
      · right
        rw [Text.found_eq_nil_of_tail hnone fun t ht hsuf => hstart t _ ht hsuf htail]
        exact List.nil_subset _
      · right
        obtain ⟨c, s, rfl⟩ := List.exists_cons_of_ne_nil (List.ne_nil_of_length_pos
          (Nat.zero_lt_of_lt hlen))
        rw [Text.found_of_some hread (Nat.le_of_lt_succ hlen),
          Text.found_eq_nil_of_forall fun t ht hsuf => hstart t rest ht hsuf hrest]
        refine List.Subset.trans ?_ (Text.names_subset_found hread')
        simpa using hkey

end Code

end TemplateBlocks
