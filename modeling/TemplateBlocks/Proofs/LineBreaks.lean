import TemplateBlocks.Proofs.CommentSearch
import TemplateBlocks.Proofs.Occurrences
import TemplateBlocks.Text.Blank

/-!
# Texts with other line breaks

One text is another one with its lines broken differently when each newline is replaced by a run of
carriage returns and newlines (`Rebroken`). Which runs may stand for a newline, and which may stand
behind the last line, is a parameter (`LineBreaks`): a carriage return and a newline for the one
convention (`LineBreaks.crlf`), or any run (`LineBreaks.any`).

A reader is even when it reads the same on both texts and leaves texts that are again the same but
for their line breaks. The readers of literals, blanks and runs are even, and so are the search and
the list of all matches of an even matcher that reads nothing at a line break (`Rebroken.find`,
`Rebroken.allMatches`).
-/

namespace TemplateBlocks

/-! ### Line breaks -/

def isBreak (c : Char) : Bool := c == '\n' || c == '\r'

def Breaks (w : Text) : Prop := ∀ c ∈ w, isBreak c = true

instance (w : Text) : Decidable (Breaks w) := List.decidableBAll (fun c => isBreak c = true) w

theorem isBreak_iff {c : Char} : isBreak c = true ↔ c = '\n' ∨ c = '\r' := by
  simp [isBreak]

theorem isBlank_of_isBreak {c : Char} (h : isBreak c = true) : isBlank c = true := by
  rcases isBreak_iff.1 h with rfl | rfl <;> decide

theorem ne_of_isBreak {a c : Char} (ha : isBreak a = false) (hc : isBreak c = true) : c ≠ a := by
  rintro rfl
  rw [hc] at ha
  exact absurd ha Bool.noConfusion

/-- No line break has the property. -/
def OffBreaks (p : Char → Bool) : Prop := ∀ c, isBreak c = true → p c = false

theorem offBreaks_iff {p : Char → Bool} : OffBreaks p ↔ p '\n' = false ∧ p '\r' = false := by
  simp [OffBreaks, isBreak_iff]

instance (p : Char → Bool) : Decidable (OffBreaks p) := decidable_of_iff _ offBreaks_iff.symm

/-- The reader reads nothing at a line break. -/
def StopsAtBreaks {β : Type} (f : Text → Option β) : Prop :=
  ∀ c u, isBreak c = true → f (c :: u) = none

theorem breaks_nil : Breaks [] := fun _ h => absurd h List.not_mem_nil

theorem Breaks.append {v w : Text} (hv : Breaks v) (hw : Breaks w) : Breaks (v ++ w) := by
  intro c hc
  exact (List.mem_append.1 hc).elim (hv c) (hw c)

/-- What may stand for a newline, and behind the last line. -/
structure LineBreaks where
  newline : Text → Prop
  final : Text → Prop
  newline_breaks : ∀ w, newline w → '\n' ∈ w ∧ Breaks w
  final_breaks : ∀ w, final w → Breaks w
  final_nil : final []

namespace LineBreaks

def crlf : LineBreaks where
  newline w := w = ['\r', '\n']
  final w := w = []
  newline_breaks := by
    rintro w rfl
    exact ⟨by decide, by decide⟩
  final_breaks := by
    rintro w rfl
    exact breaks_nil
  final_nil := rfl

def any : LineBreaks where
  newline w := '\n' ∈ w ∧ Breaks w
  final := Breaks
  newline_breaks _ h := h
  final_breaks _ h := h
  final_nil := breaks_nil

/-- The same for a piece of a text that is followed by more of its last line. -/
def inner (b : LineBreaks) : LineBreaks where
  newline := b.newline
  final w := w = []
  newline_breaks := b.newline_breaks
  final_breaks := by
    rintro w rfl
    exact breaks_nil
  final_nil := rfl

end LineBreaks

/-- The text `t` is `s` with other line breaks. -/
inductive Rebroken (b : LineBreaks) : (s t : Text) → Prop
  | final {w : Text} (hw : b.final w) : Rebroken b [] w
  | char {c : Char} {s t : Text} (hc : c ≠ '\n') (h : Rebroken b s t) : Rebroken b (c :: s) (c :: t)
  | newline {w s t : Text} (hw : b.newline w) (h : Rebroken b s t) :
      Rebroken b ('\n' :: s) (w ++ t)

/-! ### Options that agree -/

section Rel

variable {α α' β β' : Type} {p : α → α' → Prop} {q : β → β' → Prop} {x : Option α} {y : Option α'}

theorem rel_bind {f : α → Option β} {g : α' → Option β'} (h : Option.Rel p x y)
    (hf : ∀ a a', p a a' → Option.Rel q (f a) (g a')) : Option.Rel q (x.bind f) (y.bind g) := by
  cases h with
  | some h => exact hf _ _ h
  | none => exact .none

theorem rel_map {f : α → β} {g : α' → β'} (h : Option.Rel p x y)
    (hf : ∀ a a', p a a' → q (f a) (g a')) : Option.Rel q (x.map f) (y.map g) := by
  cases h with
  | some h => exact .some (hf _ _ h)
  | none => exact .none

theorem rel_isSome (h : Option.Rel p x y) : y.isSome = x.isSome := by
  cases h <;> rfl

theorem rel_orElse {x' : Option α} {y' : Option α'} (h : Option.Rel p x y)
    (h' : Option.Rel p x' y') : Option.Rel p (x <|> x') (y <|> y') := by
  cases h with
  | some h => exact .some h
  | none => exact h'

end Rel

/-- A matcher that reads the same on texts that differ in their line breaks only. -/
def Matcher.Even {α : Type} (b : LineBreaks) (p : α → α → Prop) (m : Matcher α) : Prop :=
  ∀ s t, Rebroken b s t → Option.Rel (fun x y => p x.1 y.1 ∧ Rebroken b x.2 y.2) (m s) (m t)

namespace Rebroken

variable {b : LineBreaks} {s t lit : Text}

theorem nil (b : LineBreaks) : Rebroken b [] [] := .final b.final_nil

theorem head_break {w : Text} (hw : b.newline w) :
    ∃ c v, w = c :: v ∧ isBreak c = true ∧ Breaks v := by
  obtain ⟨hmem, hbreaks⟩ := b.newline_breaks w hw
  obtain ⟨c, v, rfl⟩ := List.exists_cons_of_ne_nil (List.ne_nil_of_mem hmem)
  obtain ⟨hc, hv⟩ := List.forall_mem_cons.1 hbreaks
  exact ⟨c, v, rfl, hc, hv⟩

/-! ### Readers -/

/-- A reader that reads nothing at a line break and at the end of a text is even when it is so in
front of all other characters. -/
theorem rel_of_break {β : Type} {q : β → β → Prop} {f : Text → Option β} (hnil : f [] = none)
    (hbreak : StopsAtBreaks f)
    (hchar : ∀ c s t, c ≠ '\n' → Rebroken b s t → Option.Rel q (f s) (f t) →
      Option.Rel q (f (c :: s)) (f (c :: t)))
    (h : Rebroken b s t) : Option.Rel q (f s) (f t) := by
  induction h with
  | @final w hw =>
    cases w with
    | nil =>
      rw [hnil]
      exact .none
    | cons c w =>
      rw [hnil, hbreak c w (b.final_breaks _ hw c (List.mem_cons_self ..))]
      exact .none
  | @char c s t hc h ih => exact hchar c s t hc h ih
  | @newline w s t hw h =>
    obtain ⟨c, v, rfl, hc, _⟩ := head_break hw
    rw [hbreak '\n' s rfl, List.cons_append, hbreak c _ hc]
    exact .none

theorem after? (hlit : Text.Free isBreak lit) (h : Rebroken b s t) :
    Option.Rel (Rebroken b) (s.after? lit) (t.after? lit) := by
  induction lit generalizing s t with
  | nil =>
    simp only [Text.after?]
    exact .some h
  | cons a lit ih =>
    obtain ⟨ha, hlit⟩ := List.forall_mem_cons.1 hlit
    refine rel_of_break (f := (Text.after? · (a :: lit))) rfl (fun c u hc => ?_)
      (fun c s t _ h _ => ?_) h
    · simp only [Text.after?, if_neg (ne_of_isBreak ha hc)]
    · simp only [Text.after?]
      split
      · exact ih hlit h
      · exact .none

theorem dropBlanks_of_breaks {w : Text} (hw : Breaks w) (t : Text) :
    (w ++ t).dropBlanks = t.dropBlanks :=
  List.dropWhile_append_of_pos fun c hc => isBlank_of_isBreak (hw c hc)

theorem dropBlanks (h : Rebroken b s t) : Rebroken b s.dropBlanks t.dropBlanks := by
  induction h with
  | @final w hw =>
    have hnil := dropBlanks_of_breaks (b.final_breaks w hw) []
    rw [List.append_nil] at hnil
    rw [hnil]
    exact nil b
  | @char c s t hc h ih =>
    by_cases hblank : isBlank c = true
    · simpa [Text.dropBlanks, hblank] using ih
    · simpa [Text.dropBlanks, hblank] using Rebroken.char hc h
  | @newline w s t hw h ih =>
    rw [dropBlanks_of_breaks (b.newline_breaks w hw).2]
    exact ih

/-- Blanks of which at least one is needed. At the end of a text the two sides may differ, so
something has to follow. -/
theorem dropBlanks1?_bind {β : Type} {q : β → β → Prop} {f : Text → Option β} (hnil : f [] = none)
    (hf : ∀ s t, Rebroken b s t → Option.Rel q (f s) (f t)) (h : Rebroken b s t) :
    Option.Rel q (s.dropBlanks1?.bind f) (t.dropBlanks1?.bind f) := by
  have hbreak : ∀ (c : Char) (u : Text), isBreak c = true →
      Text.dropBlanks1? (c :: u) = some u.dropBlanks := by
    intro c u hc
    rw [Text.dropBlanks1?, if_pos (isBlank_of_isBreak hc)]
  induction h with
  | @final w hw =>
    cases w with
    | nil => exact .none
    | cons c w =>
      obtain ⟨hc, hw⟩ := List.forall_mem_cons.1 (b.final_breaks _ hw)
      have hend := dropBlanks_of_breaks hw []
      rw [List.append_nil] at hend
      rw [hbreak c w hc, hend, Option.bind_some, Text.dropBlanks, List.dropWhile_nil, hnil]
      exact .none
  | @char c s t hc h =>
    simp only [Text.dropBlanks1?]
    split
    · exact hf _ _ h.dropBlanks
    · exact .none
  | @newline w s t hw h =>
    obtain ⟨c, v, rfl, hc, hv⟩ := head_break hw
    rw [hbreak '\n' s rfl, List.cons_append, hbreak c _ hc, dropBlanks_of_breaks hv]
    exact hf _ _ h.dropBlanks

variable {p : Char → Bool}

theorem takeWhile_dropWhile (hp : OffBreaks p) (h : Rebroken b s t) :
    s.takeWhile p = t.takeWhile p ∧ Rebroken b (s.dropWhile p) (t.dropWhile p) := by
  induction h with
  | @final w hw =>
    cases w with
    | nil => exact ⟨rfl, nil b⟩
    | cons c w =>
      have hc := hp c (b.final_breaks _ hw c (List.mem_cons_self ..))
      simpa [hc] using final hw
  | @char c s t hc h ih =>
    by_cases hpc : p c = true
    · simpa [hpc] using ih
    · simpa [hpc] using Rebroken.char hc h
  | @newline w s t hw h ih =>
    obtain ⟨c, v, rfl, hc, _⟩ := head_break hw
    have hnewline := Rebroken.newline hw h
    simpa [hp '\n' rfl, hp c hc] using hnewline

theorem run1? (hp : OffBreaks p) :
    Matcher.Even b Eq (Text.run1? p) := by
  intro s t h
  obtain ⟨htake, hdrop⟩ := takeWhile_dropWhile hp h
  unfold Text.run1?
  rw [htake]
  split
  · exact .none
  · exact .some ⟨rfl, hdrop⟩

theorem char? (hp : OffBreaks p) :
    Matcher.Even b Eq (Text.char? p) := by
  intro s t h
  refine rel_of_break rfl (fun c u hc => ?_) (fun c s t _ h _ => ?_) h
  · simp [Text.char?, hp c hc]
  · simp only [Text.char?]
    split
    · exact .some ⟨rfl, h⟩
    · exact .none

theorem shortest (hp : OffBreaks p) {stop : Text → Option Text}
    (hstop : ∀ s t, Rebroken b s t → Option.Rel (Rebroken b) (stop s) (stop t)) :
    Matcher.Even b Eq (Text.shortest p stop) := by
  intro s t h
  refine rel_of_break rfl (fun c u hc => ?_) (fun c s t _ h ih => ?_) h
  · simp [Text.shortest, hp c hc]
  · simp only [Text.shortest]
    split
    · have hend := hstop s t h
      generalize stop s = x at hend ⊢
      generalize stop t = y at hend ⊢
      cases hend with
      | some hend => exact .some ⟨rfl, hend⟩
      | none => exact rel_map ih fun x y hxy => ⟨by rw [hxy.1], hxy.2⟩
    · exact .none

/-! ### Searches -/

/-- Two finds that agree but for the line breaks of the pieces they cut the texts into. -/
structure FoundEven {α : Type} (b : LineBreaks) (p : α → α → Prop) (m : Matcher α)
    (f g : Text.Found α) : Prop where
  before : Rebroken b.inner f.before g.before
  value : p f.value g.value
  rest : Rebroken b f.rest g.rest
  here : m.LeavesSuffix → Rebroken b (f.matched ++ f.rest) (g.matched ++ g.rest)

variable {α : Type} {q : α → α → Prop} {m : Matcher α}

theorem find_breaks (hbreak : StopsAtBreaks m) {w : Text}
    (hw : Breaks w) (t : Text) : Text.find m (w ++ t) = (t.find m).map (Text.Found.behind w) := by
  refine Text.find_append_of_forall fun u hu hsuf => ?_
  obtain ⟨c, u, rfl⟩ := List.exists_cons_of_ne_nil hu
  exact hbreak c _ (hw c (hsuf.subset (List.mem_cons_self ..)))

theorem find (hm : m.Even b q) (hbreak : StopsAtBreaks m)
    (h : Rebroken b s t) : Option.Rel (FoundEven b q m) (s.find m) (t.find m) := by
  induction h with
  | @final w hw =>
    have hfind := find_breaks hbreak (b.final_breaks w hw) []
    rw [List.append_nil] at hfind
    rw [hfind]
    exact .none
  | @char c s t hc h ih =>
    have hread := hm _ _ (Rebroken.char hc h)
    have hup : ∀ {u a rest}, m (c :: u) = some (a, rest) → m.LeavesSuffix →
        Text.upTo (c :: u) rest ++ rest = c :: u := by
      intro u a rest hr hsuf
      obtain ⟨v, hv⟩ := hsuf _ _ _ hr
      rw [← hv, Text.upTo_append]
    simp only [Text.find]
    cases hs : m (c :: s) with
    | none =>
      rw [hs] at hread
      generalize ht : m (c :: t) = y at hread ⊢
      cases hread
      exact rel_map ih fun f g hfg => ⟨.char hc hfg.before, hfg.value, hfg.rest, hfg.here⟩
    | some x =>
      rw [hs] at hread
      generalize ht : m (c :: t) = y at hread ⊢
      cases hread with
      | @some _ y hxy =>
        refine .some ⟨nil _, hxy.1, hxy.2, fun hsuf => ?_⟩
        rw [hup hs hsuf, hup ht hsuf]
        exact .char hc h
  | @newline w s t hw h ih =>
    have hone := find_breaks hbreak (w := ['\n']) (by decide) s
    rw [List.singleton_append] at hone
    rw [hone, find_breaks hbreak (b.newline_breaks w hw).2]
    exact rel_map ih fun f g hfg => ⟨.newline hw hfg.before, hfg.value, hfg.rest, hfg.here⟩

/-- The list of all matches of a matcher that always reads something. -/
theorem allMatches (hm : m.Even b Eq) (hbreak : StopsAtBreaks m)
    (hread : ∀ s a rest, m s = some (a, rest) → rest.length < s.length) (h : Rebroken b s t) :
    s.allMatches m = t.allMatches m := by
  have hskip : ∀ {w : Text}, Breaks w → ∀ t, (w ++ t).allMatches m = t.allMatches m := by
    intro w hw t
    refine Text.allMatches_append_of_forall fun u hu hsuf => ?_
    obtain ⟨c, u, rfl⟩ := List.exists_cons_of_ne_nil hu
    exact hbreak c _ (hw c (hsuf.subset (List.mem_cons_self ..)))
  induction hlen : s.length using Nat.strongRecOn generalizing s t with
  | _ n ih =>
    subst hlen
    cases h with
    | final hw =>
      have hall := hskip (b.final_breaks _ hw) []
      rw [List.append_nil] at hall
      exact hall.symm
    | @newline w s t hw h =>
      have hone := hskip (w := ['\n']) (by decide) s
      rw [List.singleton_append] at hone
      rw [hone, hskip (b.newline_breaks w hw).2]
      exact ih _ (Nat.lt_succ_self _) h rfl
    | @char c s t hc h =>
      have hrel := hm _ _ (Rebroken.char hc h)
      generalize hs : m (c :: s) = x at hrel
      generalize ht : m (c :: t) = y at hrel
      cases hrel with
      | none =>
        rw [Text.allMatches_cons_of_none hs, Text.allMatches_cons_of_none ht]
        exact ih _ (Nat.lt_succ_self _) h rfl
      | @some x y hxy =>
        obtain ⟨a, u⟩ := x
        obtain ⟨a', v⟩ := y
        obtain ⟨rfl, huv⟩ := hxy
        have hu := hread _ _ _ hs
        have hv := hread _ _ _ ht
        rw [Text.allMatches_cons_of_some hs (Nat.le_of_lt_succ hu),
          Text.allMatches_cons_of_some ht (Nat.le_of_lt_succ hv), ih _ hu huv rfl]

/-! ### Texts side by side -/

theorem append {u v : Text} (h : Rebroken b.inner s t) (h' : Rebroken b u v) :
    Rebroken b (s ++ u) (t ++ v) := by
  induction h with
  | @final w hw =>
    obtain rfl : w = [] := hw
    exact h'
  | char hc _ ih => exact .char hc ih
  | newline hw _ ih =>
    rw [List.append_assoc]
    exact .newline hw ih

theorem refl (s : Text) : Rebroken LineBreaks.any.inner s s := by
  induction s with
  | nil => exact .final rfl
  | cons c s ih =>
    by_cases hc : c = '\n'
    · rw [hc]
      exact .newline (w := ['\n']) ⟨by decide, by decide⟩ ih
    · exact .char hc ih

theorem weaken (h : Rebroken b s t) : Rebroken .any s t := by
  induction h with
  | final hw => exact .final (b.final_breaks _ hw)
  | char hc _ ih => exact .char hc ih
  | newline hw _ ih => exact .newline (b.newline_breaks _ hw) ih

/-- Where the one text is cut the other one can be cut too. -/
theorem exists_append {u r : Text} (h : Rebroken b (u ++ r) t) :
    ∃ v v', t = v ++ v' ∧ Rebroken b.inner u v ∧ Rebroken b r v' := by
  induction u generalizing t with
  | nil => exact ⟨[], t, rfl, nil _, h⟩
  | cons c u ih =>
    cases h with
    | char hc h =>
      obtain ⟨v, v', rfl, hv, hv'⟩ := ih h
      exact ⟨c :: v, v', rfl, .char hc hv, hv'⟩
    | @newline w _ _ hw h =>
      obtain ⟨v, v', rfl, hv, hv'⟩ := ih h
      exact ⟨w ++ v, v', (List.append_assoc ..).symm, .newline hw hv, hv'⟩

theorem eq_singleton {c : Char} {v : Text} (hc : c ≠ '\n') (h : Rebroken b.inner [c] v) :
    v = [c] := by
  cases h with
  | char _ h =>
    cases h with
    | final hw => rw [hw]
  | newline => exact absurd rfl hc

theorem countP_eq (h : Rebroken b s t) :
    t.countP (fun c => !isBreak c) = s.countP (fun c => !isBreak c) := by
  have hbreaks : ∀ {w : Text}, Breaks w → w.countP (fun c => !isBreak c) = 0 := fun hw =>
    List.countP_eq_zero.2 fun c hc => by simp [hw c hc]
  induction h with
  | final hw => rw [hbreaks (b.final_breaks _ hw), List.countP_nil]
  | char _ _ ih => rw [List.countP_cons, List.countP_cons, ih]
  | newline hw _ ih =>
    rw [List.countP_append, hbreaks (b.newline_breaks _ hw).2, List.countP_cons, ih, Nat.zero_add]
    rfl

theorem eq_nil_of_concat {x y z : Text} {c : Char} (hx : Breaks x) (hc : isBreak c = false)
    (h : y ++ [c] = z ++ x) : x = [] := by
  rcases List.eq_nil_or_concat x with rfl | ⟨x, a, rfl⟩
  · rfl
  · rw [List.concat_eq_append, ← List.append_assoc] at h
    obtain ⟨_, heq⟩ := List.append_inj' h rfl
    have ha := hx a (by simp)
    rw [← (List.cons.inj heq).1, hc] at ha
    exact absurd ha Bool.false_ne_true

/-- Pieces that end in a character of a line and have the same behind them but for line breaks are
the same but for line breaks. -/
theorem cut {u u' r r' : Text} {c c' : Char} (hc : isBreak c = false) (hc' : isBreak c' = false)
    (h : Rebroken b (u ++ [c] ++ r) (u' ++ [c'] ++ r')) (hr : Rebroken b r r') :
    Rebroken b.inner (u ++ [c]) (u' ++ [c']) := by
  obtain ⟨v, v', heq, hv, hv'⟩ := exists_append h
  have hcount := hv'.countP_eq.trans hr.countP_eq.symm
  -- What lies between two cuts of the one text has line breaks only.
  have hbetween : ∀ {x y : Text}, (x ++ y).countP (fun c => !isBreak c) =
      y.countP (fun c => !isBreak c) → Breaks x := by
    intro x y hxy
    rw [List.countP_append] at hxy
    have hzero : x.countP (fun c => !isBreak c) = 0 := by omega
    exact fun a ha => by simpa using List.countP_eq_zero.1 hzero a ha
  suffices hsame : v = u' ++ [c'] by rwa [hsame] at hv
  rcases List.append_eq_append_iff.1 heq with ⟨x, hx, rfl⟩ | ⟨x, hx, rfl⟩
  · obtain ⟨w, w', hw, _, hlast⟩ := exists_append hv
    obtain rfl := eq_singleton (by rintro rfl; exact absurd hc (by decide)) hlast
    rw [hx, eq_nil_of_concat (hbetween hcount.symm) hc (hw.symm.trans hx), List.append_nil]
  · rw [hx, eq_nil_of_concat (hbetween hcount) hc' hx, List.append_nil]

theorem weaken_inner (h : Rebroken b.inner s t) : Rebroken LineBreaks.any.inner s t := by
  induction h with
  | final hw => exact .final hw
  | char hc _ ih => exact .char hc ih
  | newline hw _ ih => exact .newline (b.newline_breaks _ hw) ih

end Rebroken

/-! ### Carriage returns in front of newlines -/

/-- The text with a carriage return in front of each newline. -/
def Text.crlf (s : Text) : Text := s.flatMap fun c => if c = '\n' then ['\r', '\n'] else [c]

namespace Text

@[simp] theorem crlf_nil : crlf [] = [] := rfl

@[simp] theorem crlf_append (s t : Text) : (s ++ t).crlf = s.crlf ++ t.crlf := by
  simp [crlf]

theorem crlf_cons_newline (s : Text) : crlf ('\n' :: s) = '\r' :: '\n' :: s.crlf := by
  simp [crlf]

theorem crlf_cons_of_ne {c : Char} (hc : c ≠ '\n') (s : Text) : crlf (c :: s) = c :: s.crlf := by
  simp [crlf, hc]

end Text

theorem Rebroken.crlf (s : Text) : Rebroken .crlf s s.crlf := by
  induction s with
  | nil => exact .final rfl
  | cons c s ih =>
    by_cases hc : c = '\n'
    · rw [hc, Text.crlf_cons_newline]
      exact .newline rfl ih
    · rw [Text.crlf_cons_of_ne hc]
      exact .char hc ih

theorem Rebroken.eq_crlf {s t : Text} (h : Rebroken .crlf s t) : t = s.crlf := by
  induction h with
  | final hw => exact hw
  | @char c s t hc _ ih => rw [Text.crlf_cons_of_ne hc, ih]
  | @newline w s t hw _ ih =>
    obtain rfl : w = ['\r', '\n'] := hw
    rw [Text.crlf_cons_newline, ih]
    rfl

end TemplateBlocks
