import TemplateBlocks.Text.Blank
import TemplateBlocks.Text.Match
import TemplateBlocks.Text.Word

/-!
# Fragments of template code

Readers for the few pieces of code that labels, detection and variable flow look for: a
variable, an argument in quotes at the start of a call, a property of the current object.
-/

namespace TemplateBlocks.Code

/-! ### Variables -/

def name : Matcher Text
  | [] => none
  | c :: s => if isNameStart c then some (c :: s.takeWhile isKeyChar, s.dropWhile isKeyChar) else none

def reference : Matcher Text := fun s => s.after? "$".toList >>= name

theorem name_eq_append {s n rest : Text} (h : name s = some (n, rest)) : s = n ++ rest := by
  cases s with
  | nil => simp [name] at h
  | cons c s =>
    by_cases hc : isNameStart c = true
    · simp only [name, hc, if_true, Option.some.injEq, Prod.mk.injEq] at h
      obtain ⟨rfl, rfl⟩ := h
      simp
    · simp [name, hc] at h

theorem reference_eq_append {s n rest : Text} (h : reference s = some (n, rest)) :
    s = '$' :: n ++ rest := by
  obtain ⟨t, ht, hn⟩ := Option.bind_eq_some_iff.1 h
  rw [Text.eq_append_of_after? ht, name_eq_append hn]
  rfl

/-! ### Calls -/

/-- Whether `c` begins or ends a quoted argument. Either quote ends what either has begun. -/
def isQuote (c : Char) : Bool := c == '\'' || c == '"'

def quoted (p : Char → Bool) : Matcher Text := fun s => do
  let (_, s) ← s.char? isQuote
  let (arg, s) ← Text.run1? p s
  let (_, s) ← Text.char? isQuote s
  return (arg, s)

def call (callee : Text) (p : Char → Bool) : Matcher Text := fun s => do
  let s ← s.after? callee
  let s ← s.dropBlanks.after? "(".toList
  quoted p s.dropBlanks

def wholeCall (callee : Text) : Matcher Text := fun s => do
  let (arg, s) ← call callee isKeyChar s
  let s ← s.dropBlanks.after? ")".toList
  return (arg, s)

end TemplateBlocks.Code
