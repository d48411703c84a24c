import Mathlib
import TemplateBlocks.Proofs.ListReaders
import TemplateBlocks.Proofs.Occurrences

/-!
# Chains of assignments

An assignment is read together with the character behind its sign (`Code.assignment_iff`). So one
that stands directly behind the sign of another is passed over when the other is read, and it is read
when the other is passed over. Of assignments chained in this way the flow of code has the first, the
third and so on (`chained_assignments_found`), and can miss the second (`assignment_missed`).
-/

namespace TemplateBlocks

/-- A run of characters ends in front of the first one that does not belong to it. -/
theorem Text.run_append {p : Char → Bool} {run rest : Text} (hrun : ∀ c ∈ run, p c = true)
    (hrest : ∀ c ∈ rest.head?, p c = false) :
    (run ++ rest).takeWhile p = run ∧ (run ++ rest).dropWhile p = rest := by
  rw [List.takeWhile_append_of_pos hrun, List.dropWhile_append_of_pos hrun]
  cases rest with
  | nil => simp
  | cons c rest =>
    have hc := hrest c rfl
    simp [hc]

/-! ### Names of variables -/

structure VariableName (n : Text) : Prop where
  head : ∃ c t, n = c :: t ∧ isNameStart c = true
  chars : ∀ c ∈ n, isKeyChar c = true

theorem variableName_iff (n : Text) :
    VariableName n ↔ n.head?.any isNameStart = true ∧ n.all isKeyChar = true := by
  rw [Option.any_eq_true, List.all_eq_true]
  constructor
  · rintro ⟨⟨c, t, rfl, hc⟩, hchars⟩
    exact ⟨⟨c, rfl, hc⟩, hchars⟩
  · rintro ⟨⟨c, hhead, hc⟩, hchars⟩
    obtain ⟨t, rfl⟩ := List.head?_eq_some_iff.1 hhead
    exact ⟨⟨c, t, rfl, hc⟩, hchars⟩

instance (n : Text) : Decidable (VariableName n) := decidable_of_iff _ (variableName_iff n).symm

theorem not_blank_of_isKeyChar {c : Char} (h : isKeyChar c = true) : isBlank c = false := by
  simp only [isKeyChar, Bool.or_eq_true, beq_iff_eq] at h
  rcases h with halpha | rfl
  · have hrange := toNat_of_isAlphanum halpha
    exact isBlank_eq_false (by omega) (by omega)
  · decide

namespace Code

variable {n s rest : Text} {c : Char}

theorem variableName_of_reference (h : reference s = some (n, rest)) : VariableName n := by
  refine ⟨?_, isKeyChar_of_mem_reference h⟩
  obtain ⟨t, _, hname⟩ := Option.bind_eq_some_iff.1 h
  cases t with
  | nil => simp [name] at hname
  | cons c t =>
    by_cases hc : isNameStart c = true
    · simp only [name, hc, if_true, Option.some.injEq, Prod.mk.injEq] at hname
      exact ⟨c, _, hname.1.symm, hc⟩
    · simp [name, hc] at hname

/-- A name is read up to a character that cannot belong to it. -/
theorem reference_append (hn : VariableName n) (hrest : ∀ c ∈ rest.head?, isKeyChar c = false) :
    reference ('$' :: (n ++ rest)) = some (n, rest) := by
  obtain ⟨⟨c, t, rfl, hc⟩, hchars⟩ := hn
  have hrun := Text.run_append (List.forall_mem_cons.1 hchars).2 hrest
  have hafter : Text.after? ('$' :: (c :: t ++ rest)) "$".toList = some (c :: (t ++ rest)) := rfl
  rw [reference, hafter]
  simp [name, hc, hrun]

end Code

/-! ### Assignments -/

def assignmentSigns : List Text :=
  ["=", ".=", "+=", "-=", "*=", "/=", "%=", "&=", "|=", "^=", "<<=", ">>=", "??="].map
    String.toList

/-- A variable with the sign of an assignment behind it. -/
structure Assignee where
  name : Text
  gap : Text
  sign : Text
  isName : VariableName name
  blanks : Blanks gap
  mem_signs : sign ∈ assignmentSigns

def Assignee.text (a : Assignee) : Text := '$' :: (a.name ++ (a.gap ++ a.sign))

theorem mem_assignmentSigns {sign : Text} :
    sign ∈ assignmentSigns ↔ ∃ op ∈ Code.operators, sign = op ++ ['='] := by
  have hsigns : assignmentSigns = Code.operators.map (· ++ ['=']) := by decide
  rw [hsigns, List.mem_map]
  exact exists_congr fun op => and_congr_right fun _ => eq_comm

/-- A sign begins with a character that is neither part of a name nor a blank. -/
theorem exists_cons_of_mem_signs {sign : Text} (h : sign ∈ assignmentSigns) :
    ∃ c t, sign = c :: t ∧ isKeyChar c = false ∧ isBlank c = false := by
  have hstart : ∀ sign ∈ assignmentSigns,
      sign.head?.any (fun c => !isKeyChar c && !isBlank c) = true := by decide
  obtain ⟨c, hc, hplain⟩ := (Option.any_eq_true ..).1 (hstart sign h)
  obtain ⟨t, rfl⟩ := List.head?_eq_some_iff.1 hc
  rw [Bool.and_eq_true, Bool.not_eq_true', Bool.not_eq_true'] at hplain
  exact ⟨c, t, rfl, hplain⟩

namespace Code

variable {n s rest : Text}

theorem afterOperator?_iff {op : Text} : afterOperator? op s = some rest ↔
    ∃ c, c ≠ '=' ∧ c ≠ '>' ∧ s = op ++ '=' :: c :: rest := by
  constructor
  · intro h
    obtain ⟨t, ht, h⟩ := Option.bind_eq_some_iff.1 h
    obtain ⟨⟨c, u⟩, hu, h⟩ := Option.bind_eq_some_iff.1 h
    obtain ⟨v, hv, ht⟩ := Option.bind_eq_some_iff.1 ht
    obtain rfl : u = rest := by simpa using h
    obtain ⟨hc, rfl⟩ := Text.char?_eq_some_iff.1 hu
    simp only [Bool.and_eq_true, bne_iff_ne] at hc
    exact ⟨c, hc.1, hc.2, by rw [Text.eq_append_of_after? hv, Text.eq_append_of_after? ht]; rfl⟩
  · rintro ⟨c, hne, hgt, rfl⟩
    have hsign : Text.after? ('=' :: c :: rest) "=".toList = some (c :: rest) := rfl
    have hchar : Text.char? (fun c => c != '=' && c != '>') (c :: rest) = some (c, rest) :=
      Text.char?_eq_some_iff.2 ⟨by simp [hne, hgt], rfl⟩
    unfold afterOperator?
    rw [Text.after?_append, Option.bind_eq_bind, Option.bind_some, hsign, Option.bind_eq_bind,
      Option.bind_some, hchar]
    rfl

theorem afterAssign?_sound (h : afterAssign? s = some rest) :
    ∃ sign ∈ assignmentSigns, ∃ c, c ≠ '=' ∧ c ≠ '>' ∧ s = sign ++ c :: rest := by
  obtain ⟨op, hop, hread⟩ := List.exists_of_findSome?_eq_some (afterAssign?_eq s ▸ h)
  obtain ⟨c, hne, hgt, rfl⟩ := afterOperator?_iff.1 hread
  exact ⟨op ++ ['='], mem_assignmentSigns.2 ⟨op, hop, rfl⟩, c, hne, hgt, by simp⟩

theorem afterAssign?_iff : afterAssign? s = some rest ↔
    ∃ sign ∈ assignmentSigns, ∃ c, c ≠ '=' ∧ c ≠ '>' ∧ s = sign ++ c :: rest := by
  refine ⟨afterAssign?_sound, ?_⟩
  rintro ⟨sign, hsign, c, hne, hgt, rfl⟩
  obtain ⟨op, hop, rfl⟩ := mem_assignmentSigns.1 hsign
  have hread : afterOperator? op (op ++ ['='] ++ c :: rest) = some rest :=
    afterOperator?_iff.2 ⟨c, hne, hgt, by simp⟩
  cases hfound : afterAssign? (op ++ ['='] ++ c :: rest) with
  | none =>
    rw [afterAssign?_eq, List.findSome?_eq_none_iff] at hfound
    rw [hfound op hop] at hread
    exact absurd hread (by simp)
  | some other =>
    -- The sign that is found first ends with the same equals sign.
    obtain ⟨sign', hsign', c', _, _, heq⟩ := afterAssign?_sound hfound
    obtain ⟨op', hop', rfl⟩ := mem_assignmentSigns.1 hsign'
    have hequals : ∀ op ∈ operators, '=' ∉ op := by decide
    have hfree : ∀ op ∈ operators, ∀ a ∈ op, (a != '=') = true := fun op hop a ha =>
      bne_iff_ne.2 (ne_of_mem_of_not_mem ha (hequals op hop))
    have hop_eq := congrArg (List.takeWhile (· != '=')) heq
    simp only [List.append_assoc, List.takeWhile_append_of_pos (hfree op hop),
      List.takeWhile_append_of_pos (hfree op' hop')] at hop_eq
    obtain rfl : op = op' := by simpa using hop_eq
    obtain ⟨rfl, rfl⟩ : c = c' ∧ rest = other := by simpa using heq
    rfl

/-- What stands behind the name of an assignment cannot belong to the name. -/
theorem head?_behind_name (a : Assignee) (x : Text) :
    ∀ d ∈ (a.gap ++ (a.sign ++ x)).head?, isKeyChar d = false := by
  intro d hd
  obtain ⟨b, t, hsign, hkey, _⟩ := exists_cons_of_mem_signs a.mem_signs
  cases hgap : a.gap with
  | nil =>
    obtain rfl : b = d := by simpa [hgap, hsign] using hd
    exact hkey
  | cons e gap =>
    obtain rfl : e = d := by simpa [hgap] using hd
    have he := a.blanks e (by simp [hgap])
    exact Bool.eq_false_iff.2 fun h => by simp [not_blank_of_isKeyChar h] at he

theorem assignment_text (a : Assignee) {c : Char} (hc : c ≠ '=' ∧ c ≠ '>') (rest : Text) :
    assignment (a.text ++ c :: rest) = some (a.name, rest) := by
  have hread := reference_append a.isName (head?_behind_name a (c :: rest))
  have hdrop : Text.dropBlanks (a.gap ++ (a.sign ++ c :: rest)) = a.sign ++ c :: rest := by
    obtain ⟨b, t, hsign, _, hblank⟩ := exists_cons_of_mem_signs a.mem_signs
    rw [Text.dropBlanks_append a.blanks, hsign, List.cons_append, Text.dropBlanks_cons hblank]
  have hassign : afterAssign? (a.sign ++ c :: rest) = some rest :=
    afterAssign?_iff.2 ⟨a.sign, a.mem_signs, c, hc.1, hc.2, rfl⟩
  have htext : a.text ++ c :: rest = '$' :: (a.name ++ (a.gap ++ (a.sign ++ c :: rest))) := by
    simp [Assignee.text]
  rw [assignment, htext, hread]
  simp [hdrop, hassign]

theorem exists_assignee_of_assignment (h : assignment s = some (n, rest)) :
    ∃ (a : Assignee) (c : Char), a.name = n ∧ (c ≠ '=' ∧ c ≠ '>') ∧ s = a.text ++ c :: rest := by
  obtain ⟨⟨k, t⟩, href, h⟩ := Option.bind_eq_some_iff.1 h
  obtain ⟨u, hu, h⟩ := Option.bind_eq_some_iff.1 h
  obtain ⟨rfl, rfl⟩ : k = n ∧ u = rest := by simpa using h
  obtain ⟨sign, hsign, c, hne, hgt, ht⟩ := afterAssign?_sound hu
  obtain ⟨v, hv, hsplit⟩ := Text.exists_blanks_append t
  have hname := variableName_of_reference href
  have hs := reference_eq_append href
  rw [hsplit, ht] at hs
  exact ⟨⟨k, v, sign, hname, hv, hsign⟩, c, rfl, ⟨hne, hgt⟩, by simp [hs, Assignee.text]⟩

theorem assignment_iff : assignment s = some (n, rest) ↔
    ∃ (a : Assignee) (c : Char), a.name = n ∧ (c ≠ '=' ∧ c ≠ '>') ∧ s = a.text ++ c :: rest := by
  refine ⟨exists_assignee_of_assignment, ?_⟩
  rintro ⟨a, c, rfl, hc, rfl⟩
  exact assignment_text a hc rest

theorem assignment_leavesSuffix : assignment.LeavesSuffix := by
  intro s n rest h
  obtain ⟨a, c, _, _, rfl⟩ := assignment_iff.1 h
  exact ⟨a.text ++ [c], by simp⟩

end Code

namespace Assignee

theorem text_eq_cons (a : Assignee) : a.text = '$' :: a.text.tail := rfl

theorem dollar_not_mem (a : Assignee) : '$' ∉ a.text.tail := by
  have hname := Code.not_mem_of_forall (c := '$') (by decide) a.isName.chars
  have hgap := Code.not_mem_of_forall (c := '$') (by decide) a.blanks
  have hsigns : ∀ sign ∈ assignmentSigns, '$' ∉ sign := by decide
  simp [text, hname, hgap, hsigns a.sign a.mem_signs]

theorem getLast?_text (a : Assignee) : a.text.getLast? = some '=' := by
  obtain ⟨op, _, hsign⟩ := mem_assignmentSigns.1 a.mem_signs
  have htext : a.text = '$' :: (a.name ++ (a.gap ++ op)) ++ ['='] := by simp [text, hsign]
  rw [htext, List.getLast?_concat]

theorem not_suffix {u : Text} (hu : u.getLast? ≠ some '=') (a : Assignee) : ¬ a.text <:+ u := by
  rintro ⟨t, rfl⟩
  rw [List.getLast?_append, a.getLast?_text] at hu
  exact hu rfl

theorem allMatches_text (a : Assignee) {c : Char} (hc : c ≠ '=' ∧ c ≠ '>') (rest : Text) :
    Text.allMatches Code.assignment (a.text ++ c :: rest) =
      a.name :: Text.allMatches Code.assignment rest := by
  have hread := Code.assignment_text a hc rest
  have hsplit : a.text ++ c :: rest = (a.text ++ [c]) ++ rest := by simp
  rw [hsplit] at hread ⊢
  exact Text.allMatches_of_read (by simp) hread

/-- No assignment is read behind the first character of one. -/
theorem allMatches_tail (a : Assignee) (v : Text) :
    Text.allMatches Code.assignment (a.text.tail ++ v) = Text.allMatches Code.assignment v := by
  refine Text.allMatches_append_of_forall fun t ht hsuf => ?_
  obtain ⟨x, t, rfl⟩ := List.exists_cons_of_ne_nil ht
  refine Code.assignment_start (fun hx => a.dollar_not_mem (hsuf.subset ?_)) _
  simp [hx]

end Assignee

/-! ### Chains -/

/-- Behind a text that does not end in the sign of an assignment, the search for assignments begins
anew at a variable. -/
theorem exists_allMatches_append {u : Text} (hu : ∀ a : Assignee, ¬ a.text <:+ u) (v : Text) :
    ∃ ns, Text.allMatches Code.assignment (u ++ '$' :: v) =
      ns ++ Text.allMatches Code.assignment ('$' :: v) := by
  match u with
  | [] => exact ⟨[], rfl⟩
  | c :: u =>
    cases hread : Code.assignment (c :: (u ++ '$' :: v)) with
    | none =>
      rw [List.cons_append, Text.allMatches_cons_of_none hread]
      exact exists_allMatches_append (fun a ha => hu a (ha.trans (List.suffix_cons c u))) v
    | some r =>
      obtain ⟨a, d, _, hd, hs⟩ := Code.assignment_iff.1 hread
      rw [← List.cons_append] at hs
      rcases List.append_eq_append_iff.1 hs with ⟨t, ht, hrest⟩ | ⟨t, ht, hrest⟩
      · cases t with
        | nil => exact absurd (by rw [ht, List.append_nil]) (hu a)
        | cons x t =>
          obtain rfl := (List.cons.inj hrest).1
          exact absurd (by simp [ht]) a.dollar_not_mem
      · cases t with
        | nil => exact absurd (by rw [ht, List.append_nil]) (hu a)
        | cons x t =>
          obtain ⟨rfl, hbehind⟩ := List.cons.inj hrest
          have hsuf : t <:+ c :: u := ⟨a.text ++ [d], by simp [ht]⟩
          have hlen : t.length ≤ u.length := by
            have hboth := congrArg List.length ht
            simp only [List.length_append, List.length_cons] at hboth
            omega
          obtain ⟨ns, hns⟩ := exists_allMatches_append (fun b hb => hu b (hb.trans hsuf)) v
          refine ⟨a.name :: ns, ?_⟩
          rw [hs, a.allMatches_text hd, hbehind]
          exact congrArg (a.name :: ·) hns
termination_by u.length
decreasing_by
  · simp
  · simp only [List.length_cons]
    omega

theorem mem_allMatches_chain {as : List Assignee} {c : Char} (hc : c ≠ '=' ∧ c ≠ '>')
    (rest : Text) {i : Nat} (hi : i < as.length) (heven : i % 2 = 0) :
    as[i].name ∈ Text.allMatches Code.assignment (as.flatMap Assignee.text ++ c :: rest) := by
  match as, i with
  | [], _ => simp at hi
  | [a], 0 =>
    rw [List.flatMap_singleton, a.allMatches_text hc]
    exact List.mem_cons_self ..
  | a :: b :: as, 0 =>
    rw [List.flatMap_cons, List.flatMap_cons, b.text_eq_cons, List.append_assoc, List.append_assoc,
      List.cons_append, a.allMatches_text (by decide)]
    exact List.mem_cons_self ..
  | a :: b :: as, i + 2 =>
    rw [List.flatMap_cons, List.flatMap_cons, b.text_eq_cons, List.append_assoc, List.append_assoc,
      List.cons_append, a.allMatches_text (by decide), b.allMatches_tail]
    have hi : i < as.length := by simpa using hi
    exact List.mem_cons_of_mem _ (mem_allMatches_chain hc rest hi (by omega))
  | [a], i + 1 => simp at hi
  | a :: b :: as, 1 => simp at heven

theorem Flow.mem_definitions {code n : Text} : n ∈ (Flow.ofCode code).definitions.toList ↔
    n ∈ code.allMatches Code.assignment ∨ (∃ ns ∈ code.occurrences Code.binding none, n ∈ ns) ∨
      ∃ ns ∈ code.allMatches Code.destructuring, n ∈ ns := by
  simp [ofCode, definitionsOf]

/-- Of the assignments chained behind a text without a blank between them, every second one is found
from the first one on. So an assignment is found wherever it does not stand directly behind the sign
of another one. -/
theorem chained_assignments_found {u : Text} (hu : ∀ a : Assignee, ¬ a.text <:+ u)
    {as : List Assignee} {c : Char} (hc : c ≠ '=' ∧ c ≠ '>') (rest : Text) {i : Nat}
    (hi : i < as.length) (heven : i % 2 = 0) :
    as[i].name ∈
      (Flow.ofCode (u ++ (as.flatMap Assignee.text ++ c :: rest))).definitions.toList := by
  have hmem := mem_allMatches_chain hc rest hi heven
  obtain ⟨v, hv⟩ : ∃ v, as.flatMap Assignee.text ++ c :: rest = '$' :: v := by
    cases as with
    | nil => simp at hi
    | cons a as => exact ⟨_, by rw [List.flatMap_cons, a.text_eq_cons]; rfl⟩
  rw [hv] at hmem ⊢
  obtain ⟨ns, hns⟩ := exists_allMatches_append hu v
  refine Flow.mem_definitions.2 (.inl ?_)
  rw [hns]
  exact List.mem_append_right ns hmem

def plainAssignee (n : Text) (h : VariableName n) : Assignee where
  name := n
  gap := []
  sign := "=".toList
  isName := h
  blanks := fun _ h => absurd h List.not_mem_nil
  mem_signs := by decide

theorem chained_assignments_found_third :
    (∀ a : Assignee, ¬ a.text <:+ "f($k == ".toList) ∧
      "c".toList ∈ (Flow.ofCode "f($k == $a=$b=$c=$d);".toList).definitions.toList := by
  have hu := Assignee.not_suffix (u := "f($k == ".toList) (by decide)
  let as : List Assignee := [plainAssignee "a".toList (by decide),
    plainAssignee "b".toList (by decide), plainAssignee "c".toList (by decide)]
  have hi : 2 < as.length := Nat.lt_succ_self 2
  exact ⟨hu, chained_assignments_found hu (c := '$') (by decide) "d);".toList hi (by decide)⟩

/-- The second of two chained assignments is missed: its first character is read with the first. -/
theorem assignment_missed :
    let b := plainAssignee "b".toList (by decide)
    "$a=$b=1".toList = "$a=".toList ++ (b.text ++ '1' :: []) ∧
      b.name ∉ (Flow.ofCode "$a=$b=1".toList).definitions.toList := by
  have hdefinitions : (Flow.ofCode "$a=$b=1".toList).definitions.toList = ["a".toList] := by cbv
  intro b
  rw [hdefinitions]
  exact ⟨by decide, by decide⟩

end TemplateBlocks
