/-!
# Text

A template, a marker name and a message are all lists of characters, so that
every reader and every rewrite in this library is a function on lists.

Small cutting and replacing operations live here: dropping a known beginning or
ending, splitting at a character, joining, and exchanging one character for another.
-/

namespace TemplateBlocks

abbrev Text := List Char

namespace Text

/-! ### Known beginnings and endings -/

/-- What follows `lit` in `s`, when `s` begins with `lit`. -/
def after? : (s lit : Text) → Option Text
  | s, [] => some s
  | [], _ :: _ => none
  | c :: s, a :: lit => if c = a then after? s lit else none

theorem after?_append (lit s : Text) : after? (lit ++ s) lit = some s := by
  induction lit with
  | nil => simp [after?]
  | cons a lit ih => simpa [after?] using ih

theorem eq_append_of_after? {s lit rest : Text} (h : after? s lit = some rest) :
    s = lit ++ rest := by
  induction lit generalizing s with
  | nil => simpa [after?] using h
  | cons a lit ih =>
    cases s with
    | nil => simp [after?] at h
    | cons c s =>
      by_cases hca : c = a
      · subst hca
        simpa using ih (by simpa [after?] using h)
      · simp [after?, hca] at h

theorem after?_eq_some_iff {s lit rest : Text} : after? s lit = some rest ↔ s = lit ++ rest :=
  ⟨eq_append_of_after?, fun h => h ▸ after?_append lit rest⟩

theorem suffix_of_after? {s lit rest : Text} (h : after? s lit = some rest) : rest <:+ s :=
  ⟨lit, (eq_append_of_after? h).symm⟩

def startsWith (s lit : Text) : Bool := (after? s lit).isSome

theorem startsWith_iff {s lit : Text} : startsWith s lit = true ↔ lit <+: s := by
  rw [startsWith, Option.isSome_iff_exists]
  exact exists_congr fun rest => after?_eq_some_iff.trans eq_comm

def endsWith (s lit : Text) : Bool := startsWith s.reverse lit.reverse

theorem endsWith_iff {s lit : Text} : endsWith s lit = true ↔ lit <:+ s :=
  startsWith_iff.trans List.reverse_prefix

def dropStart (s lit : Text) : Text := (after? s lit).getD s

def dropEnd (s lit : Text) : Text := (dropStart s.reverse lit.reverse).reverse

theorem dropStart_append (lit s : Text) : (lit ++ s).dropStart lit = s := by
  rw [dropStart, after?_append]
  rfl

theorem dropEnd_append (s lit : Text) : (s ++ lit).dropEnd lit = s := by
  rw [dropEnd, List.reverse_append, dropStart_append, List.reverse_reverse]

def dropStarts (lit s : Text) : Text :=
  match after? s lit with
  | none => s
  | some rest => if rest.length < s.length then dropStarts lit rest else s
termination_by s.length

def dropEnds (lit s : Text) : Text := (dropStarts lit.reverse s.reverse).reverse

def dropEndWhile (p : Char → Bool) (s : Text) : Text := (s.reverse.dropWhile p).reverse

/-! ### Splitting and joining -/

/-- The pieces of `s` between the characters `d`; there is always at least one. -/
def splitAt (d : Char) : Text → List Text
  | [] => [[]]
  | c :: s =>
    if c = d then [] :: splitAt d s
    else match splitAt d s with
      | [] => [[c]]
      | piece :: more => (c :: piece) :: more

theorem splitAt_ne_nil (d : Char) (s : Text) : splitAt d s ≠ [] := by
  cases s with
  | nil => simp [splitAt]
  | cons c s =>
    unfold splitAt
    split
    · simp
    · split <;> simp

def join (sep : Text) : List Text → Text
  | [] => []
  | [s] => s
  | s :: more => s ++ sep ++ join sep more

theorem join_cons_of_ne_nil (sep s : Text) {more : List Text} (h : more ≠ []) :
    join sep (s :: more) = s ++ sep ++ join sep more := by
  cases more with
  | nil => exact absurd rfl h
  | cons t more => rfl

theorem join_splitAt (d : Char) (s : Text) : join [d] (splitAt d s) = s := by
  induction s with
  | nil => rfl
  | cons c s ih =>
    by_cases hc : c = d
    · simp [splitAt, hc, join_cons_of_ne_nil _ _ (splitAt_ne_nil d s), ih]
    · cases hs : splitAt d s with
      | nil => exact absurd hs (splitAt_ne_nil d s)
      | cons piece more =>
        rw [hs] at ih
        cases more with
        | nil => simp_all [splitAt, join]
        | cons q more => simp_all [splitAt, join]

/-! ### Other operations -/

def replaceChar (old new : Char) (s : Text) : Text := s.map fun c => if c = old then new else c

def padRight (width : Nat) (s : Text) : Text := s ++ List.replicate (width - s.length) ' '

def ofNat (n : Nat) : Text := Nat.toDigits 10 n

def byteLength : Text → Nat
  | [] => 0
  | c :: s => c.utf8Size + byteLength s

@[simp] theorem byteLength_nil : byteLength [] = 0 := rfl

@[simp] theorem byteLength_append (s t : Text) :
    byteLength (s ++ t) = byteLength s + byteLength t := by
  induction s with
  | nil => simp [byteLength]
  | cons c s ih =>
    simp only [List.cons_append, byteLength, ih]
    omega

end Text

end TemplateBlocks
