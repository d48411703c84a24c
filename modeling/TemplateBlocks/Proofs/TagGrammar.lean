import TemplateBlocks.Proofs.SuccessiveMatches
import TemplateBlocks.Proofs.TagNesting
import TemplateBlocks.Proofs.TagReading

/-!
# Tags as words of a grammar

A structural tag is written with `<`, perhaps `/`, a name, perhaps attributes behind a blank, and the
first `>` behind it. The tags read from a text are the successive pieces of this form
(`Markup.tag_iff`). They balance when what is left without the tags that end in `/>` is a word of the
grammar of opening and closing tags (`Markup.balanced_iff_dyck`).
-/

namespace TemplateBlocks

namespace Text

theorem startsWith_cons (c : Char) (s lit : Text) :
    startsWith (c :: s) (c :: lit) = startsWith s lit := by
  rw [startsWith, startsWith, after?, if_pos rfl]

theorem startsWith_singleton (s : Text) (c : Char) : startsWith s [c] = (s.head? == some c) := by
  cases s with
  | nil => rfl
  | cons a s =>
    by_cases ha : a = c
    · simp [startsWith, after?, ha]
    · simp [startsWith, after?, ha]

theorem endsWith_pair (s : Text) (a b : Char) :
    endsWith (s ++ [b]) [a, b] = (s.getLast? == some a) := by
  have hreverse : (s ++ [b]).reverse = b :: s.reverse := by simp
  rw [endsWith, hreverse, List.reverse_cons, List.reverse_singleton, List.singleton_append,
    startsWith_cons, startsWith_singleton, List.head?_reverse]

theorem startsWith_append_dropStart (s lit : Text) :
    (if s.startsWith lit then lit else []) ++ s.dropStart lit = s := by
  rw [startsWith, dropStart]
  cases h : after? s lit with
  | none => rfl
  | some rest => exact (eq_append_of_after? h).symm

end Text

namespace Markup

variable {s rest : Text} {ts : List Tag}

/-! ### Tags as they are written -/

structure Written where
  closes : Bool
  name : Text
  attributes : Text

namespace Written

def text (w : Written) : Text :=
  '<' :: ((if w.closes then ['/'] else []) ++ (w.name ++ (w.attributes ++ ['>'])))

structure Structural (w : Written) : Prop where
  name_mem : w.name.map fold ∈ names
  spaced : w.attributes.head?.all isBlank = true
  inside : '>' ∉ w.attributes

/-- The tag that a text of this form is, by how it begins and ends. Its name is in small letters. -/
def tag (w : Written) : Tag :=
  if w.text.startsWith "</".toList then .closing (w.name.map Char.toLower)
  else if w.text.endsWith "/>".toList then .empty (w.name.map Char.toLower)
  else .opening (w.name.map Char.toLower)

end Written

theorem names_prefixFree : ∀ a ∈ names, ∀ b ∈ names, a <+: b → a = b := by decide +kernel

theorem names_plain : ∀ name ∈ names, name ≠ [] ∧ '/' ∉ name := by decide +kernel

theorem afterName?_iff {written name : Text} :
    afterName? s name = some (written, rest) ↔ written.map fold = name ∧ s = written ++ rest := by
  rw [afterName?, Option.ite_none_right_eq_some, Option.some.injEq, Prod.mk.injEq]
  constructor
  · rintro ⟨hname, rfl, rfl⟩
    exact ⟨hname, (List.take_append_drop _ _).symm⟩
  · rintro ⟨rfl, rfl⟩
    simp

/-- At most one of the names stands at the start of a text, because none begins with another. -/
theorem findName_iff {written : Text} : names.findSome? (afterName? s) = some (written, rest) ↔
    written.map fold ∈ names ∧ s = written ++ rest := by
  have hsound : ∀ {u v : Text}, names.findSome? (afterName? s) = some (u, v) →
      u.map fold ∈ names ∧ s = u ++ v := by
    intro u v h
    obtain ⟨name, hname, hread⟩ := List.exists_of_findSome?_eq_some h
    obtain ⟨rfl, hs⟩ := afterName?_iff.1 hread
    exact ⟨hname, hs⟩
  refine ⟨hsound, ?_⟩
  rintro ⟨hname, hs⟩
  have hread := afterName?_iff.2 ⟨rfl, hs⟩
  cases hfind : names.findSome? (afterName? s) with
  | none =>
    rw [List.findSome?_eq_none_iff.1 hfind _ hname] at hread
    exact absurd hread (by simp)
  | some r =>
    obtain ⟨u, v⟩ := r
    obtain ⟨hu, hs'⟩ := hsound hfind
    have hsame : u.map fold = written.map fold := by
      rcases List.prefix_or_prefix_of_prefix ⟨v, hs'.symm⟩ ⟨rest, hs.symm⟩ with hpre | hpre
      · exact names_prefixFree _ hu _ hname (hpre.map fold)
      · exact (names_prefixFree _ hname _ hu (hpre.map fold)).symm
    have hlen : u.length = written.length := by simpa using congrArg List.length hsame
    obtain ⟨rfl, rfl⟩ := List.append_inj (hs'.symm.trans hs) hlen
    rfl

theorem slash_not_mem {w : Written} (h : w.Structural) : w.name ≠ [] ∧ '/' ∉ w.name := by
  obtain ⟨hne, hslash⟩ := names_plain _ h.name_mem
  refine ⟨fun hnil => hne (by rw [hnil, List.map_nil]), fun hmem => hslash ?_⟩
  exact List.mem_map.2 ⟨'/', hmem, by decide⟩

/-- A tag is closing by its slash in front, and stands alone by one at the end of its attributes. -/
theorem Written.Structural.tag_eq {w : Written} (h : w.Structural) : w.tag =
    if w.closes then .closing (w.name.map Char.toLower)
    else if w.attributes.getLast? == some '/' then .empty (w.name.map Char.toLower)
    else .opening (w.name.map Char.toLower) := by
  obtain ⟨hne, hslash⟩ := slash_not_mem h
  have hstart : w.text.startsWith "</".toList = w.closes := by
    have hliteral : "</".toList = ['<', '/'] := rfl
    rw [hliteral, Written.text, Text.startsWith_cons, Text.startsWith_singleton]
    cases w.closes with
    | true => rfl
    | false =>
      obtain ⟨c, name, hname⟩ := List.exists_cons_of_ne_nil hne
      rw [hname, List.mem_cons, not_or] at hslash
      simpa [hname] using fun heq : c = '/' => hslash.1 heq.symm
  have hend : w.text.endsWith "/>".toList = (w.attributes.getLast? == some '/') := by
    have hliteral : "/>".toList = ['/', '>'] := rfl
    have htext : w.text =
        '<' :: (if w.closes then ['/'] else []) ++ (w.name ++ w.attributes) ++ ['>'] := by
      simp [Written.text]
    have hlast : w.name.getLast hne ≠ '/' := fun heq => hslash (heq ▸ List.getLast_mem hne)
    rw [hliteral, htext, Text.endsWith_pair, List.getLast?_append, List.getLast?_append,
      List.getLast?_eq_some_getLast hne]
    cases w.attributes.getLast? with
    | none => simpa using hlast
    | some c => rfl
  rw [Written.tag, hstart, hend]

theorem slash_read {u : Text} (hu : '/' ∉ u.head?) (closes : Bool) :
    Text.startsWith ((if closes then ['/'] else []) ++ u) "/".toList = closes ∧
      Text.dropStart ((if closes then ['/'] else []) ++ u) "/".toList = u := by
  cases closes with
  | true => exact ⟨Text.startsWith_singleton _ _, Text.dropStart_append ['/'] u⟩
  | false =>
    cases u with
    | nil => exact ⟨rfl, rfl⟩
    | cons c u =>
      have hc : c ≠ '/' := by simpa using hu
      simp [Text.startsWith, Text.dropStart, Text.after?, hc]

theorem tag_iff {t : Tag} :
    tag s = some (t, rest) ↔ ∃ w : Written, w.Structural ∧ t = w.tag ∧ s = w.text ++ rest := by
  constructor
  · intro h
    simp only [tag, Option.bind_eq_bind, Option.bind_eq_some_iff, Prod.exists] at h
    obtain ⟨u, hlt, written, v, hfind, slash, r, hend, heq⟩ := h
    obtain ⟨hname, hv⟩ := findName_iff.1 hfind
    obtain ⟨attributes, hinside, hspaced, hv', rfl⟩ := tagEnd_iff.1 hend
    obtain ⟨rfl, rfl⟩ := Prod.mk.inj (Option.some.inj heq)
    have hw : Written.Structural ⟨u.startsWith "/".toList, written, attributes⟩ :=
      ⟨hname, hspaced, hinside⟩
    have hslash : (if u.startsWith "/".toList then ['/'] else []) ++ u.dropStart "/".toList = u :=
      Text.startsWith_append_dropStart u "/".toList
    refine ⟨_, hw, hw.tag_eq.symm, ?_⟩
    rw [hv, hv'] at hslash
    rw [Text.eq_append_of_after? hlt]
    simpa [Written.text] using hslash.symm
  · rintro ⟨w, hw, rfl, rfl⟩
    obtain ⟨hne, hslash⟩ := slash_not_mem hw
    have hhead : '/' ∉ (w.name ++ (w.attributes ++ '>' :: rest)).head? := by
      rw [List.head?_append_of_ne_nil _ hne]
      exact fun hmem => hslash (List.mem_of_head? hmem)
    obtain ⟨hstart, hdrop⟩ := slash_read hhead w.closes
    have htext : w.text ++ rest = "<".toList ++ ((if w.closes then ['/'] else []) ++
        (w.name ++ (w.attributes ++ '>' :: rest))) := by
      simp [Written.text]
    have hfind : names.findSome? (afterName? (w.name ++ (w.attributes ++ '>' :: rest))) =
        some (w.name, w.attributes ++ '>' :: rest) := findName_iff.2 ⟨hw.name_mem, rfl⟩
    have hend : tagEnd (w.attributes ++ '>' :: rest) =
        some (w.attributes.getLast? == some '/', rest) :=
      tagEnd_iff.2 ⟨w.attributes, hw.inside, hw.spaced, rfl, rfl⟩
    rw [htext, tag, Text.after?_append, hw.tag_eq]
    simp only [Option.bind_eq_bind, Option.bind_some, hstart, hdrop, hfind, hend]
    rfl

/-! ### The grammar of tags -/

/-- The words of the grammar whose only sentence puts a word between an opening tag and the closing
one of its name, and another word behind that. -/
inductive Dyck : List Tag → Prop
  | nil : Dyck []
  | element (name : Text) {inner rest : List Tag} :
      Dyck inner → Dyck rest → Dyck (.opening name :: (inner ++ .closing name :: rest))

def Tag.paired : Tag → Bool
  | .empty _ => false
  | _ => true

theorem Dyck.nested (h : Dyck ts) : Nested ts := by
  induction h with
  | nil => exact .nil
  | element name _ _ hinner hrest => exact .element name hinner hrest

theorem Nested.dyck (h : Nested ts) : Dyck (ts.filter Tag.paired) := by
  induction h with
  | nil => exact .nil
  | empty name _ ih => exact ih
  | element name _ _ hinner hrest =>
    rw [List.filter_cons_of_pos rfl, List.filter_append, List.filter_cons_of_pos rfl]
    exact .element name hinner hrest

theorem balancedFrom_paired (pending : List Text) (ts : List Tag) :
    balancedFrom pending (ts.filter Tag.paired) = balancedFrom pending ts := by
  induction ts generalizing pending with
  | nil => rfl
  | cons t ts ih =>
    cases t with
    | opening name => exact ih (name :: pending)
    | empty name => exact ih pending
    | closing name =>
      rw [List.filter_cons_of_pos rfl]
      cases pending with
      | nil => rfl
      | cons top pending => rw [balancedFrom, balancedFrom, ih]

theorem balancedFrom_iff_dyck : balancedFrom [] ts = true ↔ Dyck (ts.filter Tag.paired) := by
  constructor
  · intro h
    have hnested : Nested ts := closes_of_balancedFrom h
    exact hnested.dyck
  · intro h
    have hskip := h.nested.balancedFrom_append [] []
    rwa [List.append_nil, balancedFrom_paired] at hskip

/-! ### The tags of a text -/

/-- The text `w` is a structural tag. -/
def Reads (t : Tag) (w _rest : Text) : Prop := ∃ v : Written, v.Structural ∧ t = v.tag ∧ w = v.text

/-- No structural tag begins in the text `gap` in front of `rest`. -/
def Tagless (gap rest : Text) : Prop :=
  ∀ t u, t ≠ [] → t <:+ gap → ∀ w : Written, w.Structural → t ++ rest ≠ w.text ++ u

theorem tag_describedBy : Matcher.DescribedBy tag Tagless Reads where
  read_iff s t rest := by
    rw [tag_iff]
    constructor
    · rintro ⟨w, hw, ht, hs⟩
      exact ⟨w.text, ⟨w, hw, ht, rfl⟩, hs⟩
    · rintro ⟨_, ⟨w, hw, ht, rfl⟩, hs⟩
      exact ⟨w, hw, ht, hs⟩
  ne_nil := by
    rintro _ _ _ ⟨w, _, _, rfl⟩
    exact List.cons_ne_nil _ _
  idle_iff gap rest := by
    constructor
    · intro h t hne ht
      refine Option.eq_none_iff_forall_ne_some.2 fun ⟨a, u⟩ hread => ?_
      obtain ⟨w, hw, _, heq⟩ := tag_iff.1 hread
      exact h t u hne ht w hw heq
    · intro h t u hne ht w hw heq
      have hread := tag_iff.2 ⟨w, hw, rfl, heq⟩
      rw [h t hne ht] at hread
      exact absurd hread (by simp)

/-- The structural tags of the joined lines are the successive pieces of the text of their form, and
they balance exactly when those that are not closed by themselves make a word of the grammar. -/
theorem balanced_iff_dyck (ls : List Text) : ∃ ts : List Tag,
    (∀ others, Text.Successive Tagless Reads (Text.join ['\n'] ls) others ↔ others = ts) ∧
    (balanced ls = true ↔ Dyck (ts.filter Tag.paired)) :=
  ⟨tags (Text.join ['\n'] ls), fun _ => Text.successive_iff tag_describedBy, balancedFrom_iff_dyck⟩

end Markup

end TemplateBlocks
