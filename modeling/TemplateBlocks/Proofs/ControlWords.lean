import Mathlib.Data.Option.Basic
import TemplateBlocks.Control
import TemplateBlocks.Proofs.MarkerSpelling

/-!
# Words of control structures

A header and a closing word are read at words of the line, so a line in which none of these words
stands opens and closes nothing (`Control.opens_eq_zero`, `Control.closes_eq_zero`). A line that
holds one header or one closing word counts it once, whatever the condition of the header holds
(`Control.counts_headerLine`, `Control.counts_closerLine`).
-/

namespace TemplateBlocks

/-! ### Word boundaries -/

theorem isWordChar_of_isBlank {c : Char} (h : isBlank c = true) : isWordChar c = false := by
  obtain ⟨r, hr, hlow, hhigh⟩ := (isBlank_iff c).1 h
  by_cases hascii : c.toNat < 128
  · have hall : ∀ n < 128, ∀ r ∈ blankRanges, r.1 ≤ n → n ≤ r.2 →
        isKeyChar (Char.ofNat n) = false := by decide
    have hkey := hall c.toNat hascii r hr hlow hhigh
    rw [Char.ofNat_toNat] at hkey
    rwa [isWordChar_of_ascii hascii]
  · have hall : (blankRanges.all fun r => wordRanges.all fun q =>
        Nat.blt r.2 q.1 || Nat.blt q.2 r.1) = true := by decide +kernel
    have hapart := List.all_eq_true.1 (List.all_eq_true.1 hall r hr)
    rw [isWordChar, if_neg hascii, List.any_eq_false]
    intro q hq hin
    have hq := hapart q hq
    simp only [Bool.or_eq_true, Nat.blt_eq] at hq
    simp only [Bool.and_eq_true, decide_eq_true_eq] at hin
    omega

theorem wordMayStart_of_append {u v : Text} (h : wordMayStart (u ++ v).getLast? = true) :
    wordMayStart v.getLast? = true := by
  cases hv : v.getLast? with
  | none => rfl
  | some c => rwa [List.getLast?_append, hv, Option.some_or] at h

theorem wordMayStart_append {u v : Text} (hu : wordMayStart u.getLast? = true)
    (hv : wordMayStart v.getLast? = true) : wordMayStart (u ++ v).getLast? = true := by
  rw [List.getLast?_append]
  cases hlast : v.getLast? with
  | none => exact hu
  | some c => rwa [hlast] at hv

theorem wordEnds_of_append {u v : Text} (h : wordEnds (u ++ v) = true) : wordEnds u = true := by
  cases u with
  | nil => rfl
  | cons c u => exact h

theorem wordEnds_append {u v : Text} (hu : wordEnds u = true) (hv : wordEnds v = true) :
    wordEnds (u ++ v) = true := by
  cases u with
  | nil => exact hv
  | cons c u => exact hu

theorem Blanks.wordMayStart {w : Text} (hw : Blanks w) : wordMayStart w.getLast? = true := by
  cases hlast : w.getLast? with
  | none => rfl
  | some c => simp [TemplateBlocks.wordMayStart,
      isWordChar_of_isBlank (hw c (List.mem_of_getLast? hlast))]

theorem Blanks.wordEnds {w : Text} (hw : Blanks w) : wordEnds w = true := by
  cases w with
  | nil => rfl
  | cons c w => simp [TemplateBlocks.wordEnds, isWordChar_of_isBlank (hw c (List.mem_cons_self ..))]

/-! ### Words in a text -/

namespace Text

variable {s w x y : Text} {c : Char}

/-- The word stands in the text with no word character at either side of it. -/
def HasWord (s w : Text) : Prop :=
  ∃ u v, s = u ++ (w ++ v) ∧ wordMayStart u.getLast? = true ∧ wordEnds v = true

theorem hasWord_iff_any : HasWord s w ↔ ((List.range (s.length + 1)).any fun i =>
    wordMayStart (s.take i).getLast? && (after? (s.drop i) w).any wordEnds) = true := by
  simp only [List.any_eq_true, List.mem_range, Bool.and_eq_true, Option.any_eq_true]
  constructor
  · rintro ⟨u, v, rfl, hu, hv⟩
    exact ⟨u.length, by simp only [List.length_append]; omega, by simpa using hu, v,
      by simp [after?_append], hv⟩
  · rintro ⟨i, -, hu, v, hv, hends⟩
    exact ⟨s.take i, v, by rw [← eq_append_of_after? hv, List.take_append_drop], hu, hends⟩

instance (s w : Text) : Decidable (HasWord s w) := decidable_of_iff _ hasWord_iff_any.symm

/-- A word lies on one side of a character that is no part of words. -/
theorem HasWord.append_cons (h : HasWord (x ++ c :: y) w) (hw : ∀ a ∈ w, isWordChar a = true)
    (hc : isWordChar c = false) (hne : w ≠ []) : HasWord x w ∨ HasWord y w := by
  have hcw : c ∉ w := fun hmem => absurd (hw c hmem) (by simp [hc])
  obtain ⟨u, v, heq, hu, hv⟩ := h
  rcases List.append_eq_append_iff.1 heq with ⟨t, rfl, ht⟩ | ⟨t, rfl, ht⟩
  · -- The word begins behind `x`, and it does not begin with `c`.
    cases t with
    | nil =>
      obtain ⟨a, w, rfl⟩ := List.exists_cons_of_ne_nil hne
      obtain rfl : c = a := (List.cons.inj ht).1
      exact absurd (List.mem_cons_self ..) hcw
    | cons a t =>
      obtain ⟨rfl, rfl⟩ := List.cons.inj ht
      exact .inr ⟨t, v, rfl, wordMayStart_of_append (u := x ++ [c]) (by simpa using hu), hv⟩
  · rcases List.append_eq_append_iff.1 ht with ⟨z, rfl, hz⟩ | ⟨z, rfl, hz⟩
    · refine .inl ⟨u, z, rfl, hu, ?_⟩
      rw [hz] at hv
      exact wordEnds_of_append hv
    · cases z with
      | nil => exact .inl ⟨u, [], by simp, hu, rfl⟩
      | cons a z =>
        obtain ⟨rfl, -⟩ := List.cons.inj hz
        exact absurd (by simp) hcw

theorem HasWord.of_trim (h : HasWord s.trim w) : HasWord s w := by
  obtain ⟨p, q, hp, hq, hs⟩ := exists_trim s
  obtain ⟨u, v, heq, hu, hv⟩ := h
  have hends := wordEnds_append hv hq.wordEnds
  refine ⟨p ++ u, v ++ q, ?_, wordMayStart_append hp.wordMayStart hu, hends⟩
  rw [hs, heq]
  simp

/-- None of the words stands in the text. -/
def Lacks (s : Text) (ws : List Text) : Prop := ∀ w ∈ ws, ¬ HasWord s w

instance (s : Text) (ws : List Text) : Decidable (Lacks s ws) :=
  inferInstanceAs (Decidable (∀ w ∈ ws, ¬ HasWord s w))

theorem Lacks.trim {ws : List Text} (h : Lacks s ws) : Lacks s.trim ws :=
  fun w hw hhas => h w hw hhas.of_trim

theorem Lacks.of_subset {ws vs : List Text} (h : Lacks s ws) (hsub : ∀ w ∈ vs, w ∈ ws) :
    Lacks s vs :=
  fun w hw => h w (hsub w hw)

/-! ### Occurrences with the character before them -/

/-- Nothing is listed for a text in front in which the matcher does not succeed. -/
theorem occurrences_append_of_forall {α : Type} {m : Option Char → Matcher α} {t u v : Text}
    (h : ∀ x y, u = x ++ y → y ≠ [] → m (t ++ x).getLast? (y ++ v) = none) :
    occurrences m t.getLast? (u ++ v) = occurrences m (t ++ u).getLast? v := by
  induction u generalizing t with
  | nil => rw [List.nil_append, List.append_nil]
  | cons c u ih =>
    have hc : m t.getLast? (c :: (u ++ v)) = none := by
      simpa using h [] (c :: u) rfl (List.cons_ne_nil c u)
    have hu := ih (t := t ++ [c]) fun x y hxy hy => by
      simpa using h (c :: x) y (congrArg (c :: ·) hxy) hy
    rw [List.getLast?_concat, List.append_assoc] at hu
    rw [List.cons_append, occurrences_of_none hc, hu, List.singleton_append]

theorem occurrences_eq_nil_of_forall {α : Type} {m : Option Char → Matcher α} {t s : Text}
    (h : ∀ x y, s = x ++ y → y ≠ [] → m (t ++ x).getLast? y = none) :
    occurrences m t.getLast? s = [] := by
  have hnone := occurrences_append_of_forall (v := []) (t := t) (u := s) (m := m)
    fun x y hxy hy => by simpa using h x y hxy hy
  rwa [List.append_nil, occurrences_nil] at hnone

theorem occurrences_of_read {α : Type} {m : Option Char → Matcher α} {before : Option Char}
    {l v : Text} {a : α} (hl : l ≠ []) (h : m before (l ++ v) = some (a, v)) :
    occurrences m before (l ++ v) = a :: occurrences m l.getLast? v := by
  obtain ⟨c, l, rfl⟩ := List.exists_cons_of_ne_nil hl
  have hlen : v.length ≤ (l ++ v).length := by simp
  rw [List.cons_append] at h ⊢
  rw [occurrences_of_some h hlen, ← List.cons_append, upTo_append]

end Text

namespace Control

open Text

variable {before : Option Char} {line s t w : Text} {ws : List Text}

theorem isWordChar_of_mem (hw : w ∈ openWords ++ closeWords) :
    (∀ a ∈ w, isWordChar a = true) ∧ w ≠ [] := by
  have hall : ∀ w ∈ openWords ++ closeWords, w.all isWordChar = true ∧ w ≠ [] := by decide
  exact ⟨List.all_eq_true.1 (hall w hw).1, (hall w hw).2⟩

theorem lacks_append_cons {x y : Text} {c : Char} (hws : ∀ w ∈ ws, w ∈ openWords ++ closeWords)
    (hx : Lacks x ws) (hc : isWordChar c = false) (hy : Lacks y ws) : Lacks (x ++ c :: y) ws := by
  intro w hw h
  obtain ⟨hchars, hne⟩ := isWordChar_of_mem (hws w hw)
  exact (h.append_cons hchars hc hne).elim (hx w hw) (hy w hw)

/-! ### Where headers and closing words are read -/

theorem header_eq_some {r : Unit × Text} (h : header before s = some r) :
    wordMayStart before = true ∧ ∃ w ∈ openWords, ∃ v, s = w ++ v ∧ wordEnds v = true := by
  rw [header] at h
  obtain ⟨_, hstart, h⟩ := Option.bind_eq_some_iff.1 h
  obtain ⟨inner, hinner, -⟩ := Option.bind_eq_some_iff.1 h
  obtain ⟨w, hw, hread⟩ := List.exists_of_findSome?_eq_some hinner
  obtain ⟨v, hv, hparen⟩ := Option.bind_eq_some_iff.1 hread
  obtain ⟨b, hb, hs⟩ := exists_blanks_append v
  rw [eq_append_of_after? hparen] at hs
  refine ⟨(Option.guard_eq_some' _).1 hstart, w, hw, v, eq_append_of_after? hv, ?_⟩
  rw [hs]
  exact wordEnds_append hb.wordEnds rfl

theorem closer_eq_some {r : Unit × Text} (h : closer before s = some r) :
    wordMayStart before = true ∧ ∃ w ∈ closeWords, ∃ v, s = w ++ v ∧ wordEnds v = true := by
  rw [closer] at h
  obtain ⟨_, hstart, h⟩ := Option.bind_eq_some_iff.1 h
  obtain ⟨rest, hrest, -⟩ := Option.bind_eq_some_iff.1 h
  obtain ⟨w, hw, hread⟩ := List.exists_of_findSome?_eq_some hrest
  obtain ⟨hread, hends⟩ := Option.filter_eq_some_iff.1 hread
  exact ⟨(Option.guard_eq_some' _).1 hstart, w, hw, rest, eq_append_of_after? hread, hends⟩

/-- A matcher that reads nothing but words of a list lists nothing where these words are lacking. -/
theorem occurrences_of_lacks {m : Option Char → Matcher Unit}
    (hm : ∀ b s r, m b s = some r → wordMayStart b = true ∧
      ∃ w ∈ ws, ∃ v, s = w ++ v ∧ wordEnds v = true)
    (h : Lacks s ws) {u : Text} (hs : s = u ++ line) (t : Text) :
    occurrences m (t ++ u).getLast? line = [] := by
  refine occurrences_eq_nil_of_forall fun x y hxy _ => ?_
  refine Option.eq_none_iff_forall_ne_some.2 fun r hr => ?_
  obtain ⟨hstart, w, hw, v, rfl, hends⟩ := hm _ _ _ hr
  rw [List.append_assoc] at hstart
  exact h w hw ⟨u ++ x, v, by rw [hs, hxy, List.append_assoc], wordMayStart_of_append hstart, hends⟩

theorem opens_eq_zero (h : Lacks line openWords) : opens line = 0 := by
  rw [opens]
  exact congrArg List.length
    (occurrences_of_lacks (fun _ _ _ => header_eq_some) h (u := []) rfl [])

theorem closes_eq_zero (h : Lacks line closeWords) : closes line = 0 := by
  rw [closes]
  exact congrArg List.length
    (occurrences_of_lacks (fun _ _ _ => closer_eq_some) h (u := []) rfl [])

/-! ### Lines of a structure -/

def lineStart : Text := "<?php ".toList

/-- The line that begins a structure with this word and this condition, or goes on with one. -/
def headerLine (w condition : Text) : Text :=
  lineStart ++ (w ++ (" (".toList ++ (condition ++ ") : ?>".toList)))

def elseLine : Text := lineStart ++ "else : ?>".toList

def closerLine (w : Text) : Text := lineStart ++ (w ++ "; ?>".toList)

/-- How many structures a line opens and closes. -/
structure Counts (line : Text) (o c : Nat) : Prop where
  opens : opens line.trim = o
  closes : closes line.trim = c

theorem counts_of_lacks (h : Lacks line (openWords ++ closeWords)) : Counts line 0 0 :=
  ⟨opens_eq_zero (h.trim.of_subset fun _ hw => List.mem_append_left _ hw),
    closes_eq_zero (h.trim.of_subset fun _ hw => List.mem_append_right _ hw)⟩

theorem trim_headerLine (w condition : Text) :
    (headerLine w condition).trim = headerLine w condition := by
  have hends : headerLine w condition =
      '<' :: ("?php ".toList ++ (w ++ (" (".toList ++ (condition ++ ") : ?".toList))) ++
        ['>']) := by
    rw [headerLine, show ") : ?>".toList = ") : ?".toList ++ ['>'] from rfl]
    simp only [List.append_assoc]
    rfl
  rw [hends]
  exact trim_of_ends (by decide) (by decide) _

/-- The words of a header line are those in front of its condition and those in it. -/
theorem lacks_headerLine {condition : Text} (hws : ∀ w ∈ ws, w ∈ openWords ++ closeWords)
    (hfront : Lacks (lineStart ++ (w ++ [' '])) ws) (hcondition : Lacks condition ws) :
    Lacks (headerLine w condition) ws := by
  have hback : Lacks " : ?>".toList (openWords ++ closeWords) := by decide
  have hrest : Lacks (condition ++ ')' :: " : ?>".toList) ws :=
    lacks_append_cons hws hcondition (by decide) (hback.of_subset hws)
  have hline := lacks_append_cons hws hfront (c := '(') (by decide) hrest
  simpa [headerLine] using hline

theorem afterHeaderEnd?_suffix {r : Text} (h : afterHeaderEnd? s = some r) : r <:+ s := by
  simp only [afterHeaderEnd?, Option.bind_eq_bind, Option.bind_eq_some_iff] at h
  obtain ⟨t, ht, u, hu, hr⟩ := h
  obtain rfl : u.dropBlanks = r := by simpa using hr
  exact ((dropBlanks_suffix u).trans (suffix_of_after? hu)).trans
    ((dropBlanks_suffix t).trans (suffix_of_after? ht))

/-- Behind the word of a header its condition is read. -/
theorem findSome?_openWords (hw : w ∈ openWords) (inner : Text) :
    (openWords.findSome? fun w' => do
      let s ← Text.after? (w ++ (" (".toList ++ inner)) w'
      s.dropBlanks.after? "(".toList) = some inner := by
  have hparen : Text.dropBlanks (' ' :: '(' :: inner) = '(' :: inner := by
    rw [dropBlanks_space, dropBlanks_cons (by decide)]
  simp only [openWords, List.mem_cons, List.not_mem_nil, or_false] at hw
  rcases hw with rfl | rfl | rfl | rfl
  · simp [openWords, after?, hparen]
  · simp [openWords, after?, hparen]
  · simp [openWords, after?, hparen]
  · simp [openWords, after?, hparen]

/-- The end of a header is found behind a condition on one line. -/
theorem exists_shortest0 {condition : Text} (hline : '\n' ∉ condition) : ∃ r rest,
    shortest0 (· != '\n') afterHeaderEnd? (condition ++ ") : ?>".toList) = some (r, rest) ∧
      rest <:+ condition ++ ") : ?>".toList := by
  rw [shortest0]
  cases hstop : afterHeaderEnd? (condition ++ ") : ?>".toList) with
  | some r => exact ⟨[], r, rfl, afterHeaderEnd?_suffix hstop⟩
  | none =>
    obtain ⟨r, hr⟩ : ∃ r, afterHeaderEnd? ") : ?>".toList = some r := ⟨_, rfl⟩
    have hne : condition ≠ [] := by
      rintro rfl
      rw [List.nil_append, hr] at hstop
      exact absurd hstop (by simp)
    have hrun : ∀ c ∈ condition, (c != '\n') = true := fun c hc => by
      simpa using fun he : c = '\n' => hline (he ▸ hc)
    obtain ⟨⟨run, rest⟩, hread⟩ := exists_shortest hne hrun hr
    obtain ⟨-, -, t, ht, hstop⟩ := shortest_eq_append hread
    refine ⟨run, rest, hread, ?_⟩
    rw [ht]
    exact (afterHeaderEnd?_suffix hstop).trans (List.suffix_append run t)

theorem exists_header {condition : Text} (hw : w ∈ openWords) (hline : '\n' ∉ condition) :
    ∃ rest, rest <:+ condition ++ ") : ?>".toList ∧
      header (some ' ') (w ++ (" (".toList ++ (condition ++ ") : ?>".toList))) =
        some ((), rest) := by
  obtain ⟨r, rest, hread, hsuffix⟩ := exists_shortest0 hline
  have hstart : (guard (wordMayStart (some ' ') = true) : Option Unit) = some () :=
    (Option.guard_eq_some' ()).2 (by decide)
  refine ⟨rest, hsuffix, ?_⟩
  rw [header, findSome?_openWords hw, hstart]
  simp only [hread, Option.bind_eq_bind, Option.bind_some, Option.pure_def]

/-- Nothing is read within the start of a line. -/
theorem header_lineStart {x y v : Text} (hxy : lineStart = x ++ y) (hne : y ≠ []) :
    header before (y ++ v) = none := by
  refine Option.eq_none_iff_forall_ne_some.2 fun r hr => ?_
  obtain ⟨-, w, hw, v', hv, -⟩ := header_eq_some hr
  obtain ⟨a, y, rfl⟩ := List.exists_cons_of_ne_nil hne
  obtain ⟨b, w, rfl⟩ := List.exists_cons_of_ne_nil
    (isWordChar_of_mem (List.mem_append_left closeWords hw)).2
  have hhead : ∀ w ∈ openWords, w.head? ∉ lineStart.map some := by decide
  obtain ⟨rfl, -⟩ := List.cons.inj hv
  exact hhead _ hw (List.mem_map.2 ⟨a, by simp [hxy], rfl⟩)

/-- A header line opens one structure: what stands in its condition does not count. -/
theorem opens_headerLine {condition : Text} (hw : w ∈ openWords) (hline : '\n' ∉ condition)
    (hcondition : Lacks condition openWords) : opens (headerLine w condition) = 1 := by
  obtain ⟨rest, ⟨k, hk⟩, hread⟩ := exists_header hw hline
  have hskip : occurrences header none (headerLine w condition) =
      occurrences header (some ' ') (w ++ (" (".toList ++ (condition ++ ") : ?>".toList))) :=
    occurrences_append_of_forall (t := []) fun _ _ hxy hne => header_lineStart hxy hne
  have hsplit : w ++ (" (".toList ++ (condition ++ ") : ?>".toList)) =
      (w ++ " (".toList) ++ k ++ rest := by
    rw [← hk]
    simp
  have hlack : Lacks (condition ++ ") : ?>".toList) openWords :=
    lacks_append_cons (fun w hw => List.mem_append_left _ hw) hcondition (by decide) (by decide)
  have hbehind : occurrences header ((w ++ " (".toList) ++ k).getLast? rest = [] :=
    occurrences_of_lacks (fun _ _ _ => header_eq_some) hlack hk.symm (w ++ " (".toList)
  rw [hsplit] at hread hskip
  rw [opens, hskip, occurrences_of_read (by simp) hread, hbehind]
  rfl

theorem counts_headerLine {condition : Text} (hw : w ∈ openWords) (hline : '\n' ∉ condition)
    (h : Lacks condition (openWords ++ closeWords)) : Counts (headerLine w condition) 1 0 := by
  have hfront : ∀ w ∈ openWords, Lacks (lineStart ++ (w ++ [' '])) closeWords := by decide
  have hcloses : Lacks (headerLine w condition) closeWords :=
    lacks_headerLine (fun w hw => List.mem_append_right _ hw) (hfront w hw)
      (h.of_subset fun w hw => List.mem_append_right _ hw)
  have hopens := opens_headerLine hw hline (h.of_subset fun w hw => List.mem_append_left _ hw)
  exact ⟨by rw [trim_headerLine, hopens], by rw [trim_headerLine, closes_eq_zero hcloses]⟩

/-- A continuation counts as neither: its `if` is no word, since `else` stands before it. -/
theorem counts_elseIfLine {condition : Text} (h : Lacks condition (openWords ++ closeWords)) :
    Counts (headerLine "elseif".toList condition) 0 0 :=
  counts_of_lacks (lacks_headerLine (fun _ hw => hw) (by decide) h)

theorem counts_elseLine : Counts elseLine 0 0 := counts_of_lacks (by decide)

theorem counts_closerLine (hw : w ∈ closeWords) : Counts (closerLine w) 0 1 := by
  have hall : ∀ w ∈ closeWords, opens (closerLine w).trim = 0 ∧ closes (closerLine w).trim = 1 := by
    decide +kernel
  exact ⟨(hall w hw).1, (hall w hw).2⟩

end Control

end TemplateBlocks
