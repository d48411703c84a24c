import TemplateBlocks.Markup

/-!
# Nested tags

Tags are nested when each opening tag has its closing tag behind it and what stands between the two
is nested as well. The stack of names accepts the nested tags and no others
(`Markup.balanced_iff_nested`), and nested tags leave every stack as they found it
(`Markup.Nested.balancedFrom_append`).
-/

namespace TemplateBlocks

namespace Markup

variable {name : Text} {pending : List Text} {ts us : List Tag}

inductive Nested : List Tag → Prop
  | nil : Nested []
  | empty (name : Text) {ts : List Tag} : Nested ts → Nested (.empty name :: ts)
  | element (name : Text) {inner rest : List Tag} :
      Nested inner → Nested rest → Nested (.opening name :: (inner ++ .closing name :: rest))

/-- Nested tags leave the stack of names to the tags behind them. -/
theorem Nested.balancedFrom_append (h : Nested ts) (pending : List Text) (us : List Tag) :
    balancedFrom pending (ts ++ us) = balancedFrom pending us := by
  induction h generalizing pending us with
  | nil => rfl
  | empty name _ ih => rw [List.cons_append, balancedFrom, ih]
  | element name _ _ ihInner ihRest =>
    rw [List.cons_append, List.append_assoc, List.cons_append, balancedFrom, ihInner, balancedFrom,
      if_pos rfl, ihRest]

/-- The tags close the names of a stack from its top, with nested tags before, between and behind
the closing ones. -/
def Closes : List Text → List Tag → Prop
  | [], ts => Nested ts
  | name :: pending, ts => ∃ inner rest,
      ts = inner ++ .closing name :: rest ∧ Nested inner ∧ Closes pending rest

theorem Closes.empty (name : Text) (h : Closes pending ts) :
    Closes pending (.empty name :: ts) := by
  cases pending with
  | nil => exact Nested.empty name h
  | cons top pending =>
    obtain ⟨inner, rest, rfl, hinner, hrest⟩ := h
    exact ⟨.empty name :: inner, rest, rfl, .empty name hinner, hrest⟩

/-- An opening tag and the closing tag of the name that it put on the stack make an element. -/
theorem Closes.opening (h : Closes (name :: pending) ts) :
    Closes pending (.opening name :: ts) := by
  obtain ⟨inner, rest, rfl, hinner, hrest⟩ := h
  cases pending with
  | nil => exact .element name hinner hrest
  | cons top pending =>
    obtain ⟨inner', rest, rfl, hinner', hrest⟩ := hrest
    exact ⟨.opening name :: (inner ++ .closing name :: inner'), rest, by simp,
      .element name hinner hinner', hrest⟩

theorem closes_of_balancedFrom (h : balancedFrom pending ts = true) : Closes pending ts := by
  induction ts generalizing pending with
  | nil =>
    obtain rfl : pending = [] := by simpa [balancedFrom] using h
    exact .nil
  | cons t ts ih =>
    cases t with
    | opening name =>
      have hcloses : Closes (name :: pending) ts := ih h
      exact hcloses.opening
    | empty name =>
      rw [balancedFrom] at h
      exact (ih h).empty name
    | closing name =>
      cases pending with
      | nil => exact absurd h Bool.false_ne_true
      | cons top pending =>
        rw [balancedFrom, Bool.if_false_right, Bool.and_eq_true, decide_eq_true_eq] at h
        obtain ⟨rfl, h⟩ := h
        exact ⟨[], ts, rfl, .nil, ih h⟩

theorem balanced_iff_nested {ls : List Text} :
    balanced ls = true ↔ Nested (tags (Text.join ['\n'] ls)) := by
  refine ⟨fun h => closes_of_balancedFrom h, fun h => ?_⟩
  have hskip := h.balancedFrom_append [] []
  rwa [List.append_nil] at hskip

theorem balancedFrom_congr (h : ∀ pending, balancedFrom pending ts = balancedFrom pending us)
    (front : List Tag) (pending : List Text) :
    balancedFrom pending (front ++ ts) = balancedFrom pending (front ++ us) := by
  induction front generalizing pending with
  | nil => exact h pending
  | cons t front ih =>
    cases t with
    | opening name => exact ih (name :: pending)
    | empty name => exact ih pending
    | closing name =>
      cases pending with
      | nil => rfl
      | cons top pending => rw [List.cons_append, List.cons_append, balancedFrom, balancedFrom, ih]

end Markup

end TemplateBlocks
