import TemplateBlocks.Proofs.DocumentRewrite

/-!
# Moving blocks of documents

A block that is moved in the text of a document is moved in the document: in front of the first
other block or behind the block it is moved to. `Document.moveBlock_text` is the correspondence.
-/

namespace TemplateBlocks

/-! ### Cutting a list at an element -/

section Cut

variable {α : Type}

/-- The first element of `p`, with the elements before and behind it. -/
def cutFirst? (p : α → Bool) : List α → Option (List α × α × List α)
  | [] => none
  | x :: xs => if p x then some ([], x, xs) else (cutFirst? p xs).map fun c => (x :: c.1, c.2)

theorem cutFirst?_eq_none_iff {p : α → Bool} {l : List α} :
    cutFirst? p l = none ↔ ∀ x ∈ l, p x = false := by
  induction l with
  | nil => simp [cutFirst?]
  | cons x xs ih =>
    by_cases hx : p x = true
    · simp [cutFirst?, hx]
    · simp [cutFirst?, hx, ih]

theorem cutFirst?_append {p : α → Bool} {xs ys : List α} {x : α} (hx : p x = true)
    (hxs : ∀ y ∈ xs, p y = false) : cutFirst? p (xs ++ x :: ys) = some (xs, x, ys) := by
  induction xs with
  | nil => simp [cutFirst?, hx]
  | cons y xs ih =>
    have hy := hxs y (List.mem_cons_self ..)
    have hrest := ih fun z hz => hxs z (List.mem_cons_of_mem y hz)
    simp [cutFirst?, hy, hrest]

theorem of_cutFirst?_eq_some {p : α → Bool} {l xs ys : List α} {x : α}
    (h : cutFirst? p l = some (xs, x, ys)) :
    l = xs ++ x :: ys ∧ p x = true ∧ ∀ y ∈ xs, p y = false := by
  induction l generalizing xs with
  | nil => simp [cutFirst?] at h
  | cons z l ih =>
    by_cases hz : p z = true
    · simp only [cutFirst?, hz, if_true, Option.some.injEq, Prod.mk.injEq] at h
      obtain ⟨rfl, rfl, rfl⟩ := h
      exact ⟨rfl, hz, fun y hy => absurd hy List.not_mem_nil⟩
    · simp only [cutFirst?, hz] at h
      obtain ⟨⟨us, u, vs⟩, hu, heq⟩ := Option.map_eq_some_iff.1 h
      simp only [Prod.mk.injEq] at heq
      obtain ⟨rfl, rfl, rfl⟩ := heq
      obtain ⟨rfl, hpu, hus⟩ := ih hu
      refine ⟨rfl, hpu, fun y hy => ?_⟩
      rcases List.mem_cons.1 hy with rfl | hy
      · simpa using hz
      · exact hus y hy

end Cut

namespace Document

variable {d : Dialect} {doc xs ys : Document} {n : Text} {body : List Text}

/-! ### Taking a block out -/

/-- The elements on one side of a block that is taken out. An empty line that is all there is on
that side goes with the block, for its newline does. -/
def aside (es : Document) : Document := if es = [.gap []] then [] else es

@[simp] theorem names_aside (es : Document) : names (aside es) = names es := by
  by_cases he : es = [.gap []]
  · rw [aside, if_pos he, he]
    rfl
  · rw [aside, if_neg he]

theorem mem_of_mem_aside {e : Element} {es : Document} (h : e ∈ aside es) : e ∈ es := by
  by_cases he : es = [.gap []]
  · rw [aside, if_pos he] at h
    exact absurd h List.not_mem_nil
  · rwa [aside, if_neg he] at h

theorem text_aside (d : Dialect) (es : Document) : text d (aside es) = text d es := by
  by_cases he : es = [.gap []]
  · rw [aside, if_pos he, he]
    rfl
  · rw [aside, if_neg he]

theorem aside_eq_nil (h : text d doc = []) : aside doc = [] := by
  cases doc with
  | nil => rfl
  | cons e es =>
    rw [text, lines_cons, newline] at h
    cases e with
    | gap l =>
      rw [Element.lines, List.singleton_append, Text.join_cons] at h
      obtain ⟨rfl, hes⟩ := List.append_eq_nil_iff.1 h
      cases es with
      | nil => rfl
      | cons f fs =>
        obtain ⟨l, ls, hls⟩ : ∃ l ls, lines d (f :: fs) = l :: ls := by
          cases f with
          | gap l => exact ⟨l, lines d fs, rfl⟩
          | block n body => exact ⟨_, _, lines_block d n body fs⟩
        rw [hls, Text.introduced_cons] at hes
        exact absurd hes (List.cons_ne_nil _ _)
    | block n body =>
      rw [Element.lines, List.cons_append, Text.join_cons, Marker.openingText,
        Marker.plainComment_eq_cons] at h
      exact absurd h (List.cons_ne_nil _ _)

theorem joined_text (d : Dialect) (xs ys : Document) :
    joined (Text.terminated (lines d xs)) (Text.introduced (lines d ys)) =
      text d (aside xs ++ aside ys) := by
  have hbefore : (Text.terminated (lines d xs)).dropEnd newline = text d xs := dropEnd_terminated _
  have hrest : (Text.introduced (lines d ys)).dropStart newline = text d ys := dropStart_introduced _
  rw [joined, hbefore, hrest]
  by_cases hx : text d xs = []
  · simp [hx, aside_eq_nil hx, text_aside]
  · by_cases hy : text d ys = []
    · simp [hy, aside_eq_nil hy, text_aside]
    · have hxs : aside xs = xs := by
        refine if_neg ?_
        intro heq
        subst heq
        exact hx rfl
      have hys : aside ys = ys := by
        refine if_neg ?_
        intro heq
        subst heq
        exact hy rfl
      have hlines : lines d xs ≠ [] := fun he => hx (by rw [text, he]; rfl)
      have hmore : lines d ys ≠ [] := fun he => hy (by rw [text, he]; rfl)
      obtain ⟨l, ls, hl⟩ := List.exists_cons_of_ne_nil hmore
      have hjoin := Text.join_append_cons (lines d xs) l ls
      rw [Text.terminated_eq_join hlines, List.append_assoc, ← Text.join_cons, ← hl] at hjoin
      have hsep : (text d xs).isEmpty = false ∧ (text d ys).isEmpty = false := by
        simp [hx, hy]
      rw [hsep.1, hsep.2, hxs, hys]
      simp only [text, lines_append, newline, Bool.or_self, Bool.false_eq_true, if_false]
      exact hjoin.symm

/-! ### Cutting a document at a block -/

theorem cutFirst?_name_eq_none_iff {m : Text} :
    cutFirst? (Element.hasName m) doc = none ↔ m ∉ names doc := by
  rw [cutFirst?_eq_none_iff, mem_names]
  constructor
  · intro h hmem
    obtain ⟨inner, hinner⟩ := hmem
    have hname := h _ hinner
    simp [Element.hasName, Element.name?] at hname
  · intro h e he
    cases e with
    | gap l => rfl
    | block k inner =>
      have hk : k ≠ m := fun heq => h ⟨inner, heq ▸ he⟩
      simpa [Element.hasName, Element.name?] using hk

theorem cutFirst?_name (hnot : n ∉ names xs) (body : List Text) (ys : Document) :
    cutFirst? (Element.hasName n) (xs ++ .block n body :: ys) = some (xs, .block n body, ys) := by
  refine cutFirst?_append (by simp [Element.hasName, Element.name?]) ?_
  exact cutFirst?_eq_none_iff.1 (cutFirst?_name_eq_none_iff.2 hnot)

theorem exists_of_cutFirst?_name {m : Text} {e : Element}
    (h : cutFirst? (Element.hasName m) doc = some (xs, e, ys)) :
    ∃ inner, e = .block m inner ∧ doc = xs ++ .block m inner :: ys ∧ m ∉ names xs := by
  obtain ⟨rfl, he, hxs⟩ := of_cutFirst?_eq_some h
  have hnot := cutFirst?_name_eq_none_iff.1 (cutFirst?_eq_none_iff.2 hxs)
  cases e with
  | gap l => simp [Element.hasName, Element.name?] at he
  | block k inner =>
    obtain rfl : k = m := by simpa [Element.hasName, Element.name?] using he
    exact ⟨inner, rfl, rfl, hnot⟩

theorem names_eq_nil (h : ∀ e ∈ doc, e.isBlock = false) : names doc = [] := by
  refine List.filterMap_eq_nil_iff.2 fun e he => ?_
  have hblock := h e he
  cases e with
  | gap l => rfl
  | block n body => simp [Element.isBlock, Element.name?] at hblock

theorem exists_of_cutFirst?_block {e : Element}
    (h : cutFirst? Element.isBlock doc = some (xs, e, ys)) :
    ∃ m inner, e = .block m inner ∧ doc = xs ++ .block m inner :: ys ∧ names xs = [] := by
  obtain ⟨rfl, he, hxs⟩ := of_cutFirst?_eq_some h
  cases e with
  | gap l => simp [Element.isBlock, Element.name?] at he
  | block m inner => exact ⟨m, inner, rfl, rfl, names_eq_nil hxs⟩

/-! ### Putting a block back -/

def putFirst? (b : Element) (es : Document) : Option Document :=
  (cutFirst? Element.isBlock es).map fun (zs, t, ws) => zs ++ b :: t :: ws

def putBehind? (m : Text) (b : Element) (es : Document) : Option Document :=
  (cutFirst? (Element.hasName m) es).map fun (zs, t, ws) => zs ++ t :: b :: ws

theorem putFirst?_cases (b : Element) (doc : Document) : (names doc = [] ∧ putFirst? b doc = none) ∨
    ∃ us m inner vs, doc = us ++ .block m inner :: vs ∧ names us = [] ∧
      putFirst? b doc = some (us ++ b :: .block m inner :: vs) := by
  cases hcut : cutFirst? Element.isBlock doc with
  | none =>
    refine .inl ⟨names_eq_nil (cutFirst?_eq_none_iff.1 hcut), ?_⟩
    rw [putFirst?, hcut]
    rfl
  | some c =>
    obtain ⟨zs, t, ws⟩ := c
    obtain ⟨m, inner, rfl, hdoc, hzs⟩ := exists_of_cutFirst?_block hcut
    refine .inr ⟨zs, m, inner, ws, hdoc, hzs, ?_⟩
    rw [putFirst?, hcut]
    rfl

theorem putBehind?_of_mem {m : Text} (hm : m ∈ names doc) (b : Element) :
    ∃ us inner vs, doc = us ++ .block m inner :: vs ∧ m ∉ names us ∧
      putBehind? m b doc = some (us ++ .block m inner :: b :: vs) := by
  cases hcut : cutFirst? (Element.hasName m) doc with
  | none => exact absurd hm (cutFirst?_name_eq_none_iff.1 hcut)
  | some c =>
    obtain ⟨zs, t, ws⟩ := c
    obtain ⟨inner, rfl, hdoc, hzs⟩ := exists_of_cutFirst?_name hcut
    refine ⟨zs, inner, ws, hdoc, hzs, ?_⟩
    rw [putBehind?, hcut]
    rfl

theorem insertFront?_text (hfits : ∀ e ∈ doc, e.Fits d) (n : Text) (body : List Text) :
    insertFront? d (blockStretch d n body).text (text d doc) =
      (putFirst? (.block n body) doc).map (text d) := by
  rcases putFirst?_cases (.block n body) doc with ⟨hnames, hput⟩ | ⟨us, m, inner, vs, rfl, hus, hput⟩
  · have hm := Marker.anyOpening_readsComments d
    have hnone := hm.find_join_eq_none (passes_lines hm hfits fun k hk => by simp [hnames] at hk)
    rw [insertFront?, text, newline, hnone, hput]
    rfl
  · rw [insertFront?, find_anyOpening_text hfits hus, hput]
    simp only [Option.map_some, text_append_block, lines_block, Text.introduced_cons]
    simp [newline]

theorem insertAfter?_text (hfits : ∀ e ∈ doc, e.Fits d) {m : Text} (hm : m ∈ names doc) (n : Text)
    (body : List Text) :
    insertAfter? d (d.blockName m) (blockStretch d n body).text (text d doc) =
      (putBehind? m (.block n body) doc).map (text d) := by
  obtain ⟨us, inner, vs, rfl, hus, hput⟩ := putBehind?_of_mem hm (.block n body)
  have hname : d.IsName m := (hfits (.block m inner) (by simp)).1
  have hbehind : text d (us ++ .block m inner :: .block n body :: vs) =
      text d ((us ++ [.block m inner]) ++ .block n body :: vs) := by simp
  rw [insertAfter?, Dialect.markerName_blockName hname, find_closing_text hfits hus, hput]
  simp only [Option.map_some, hbehind, text_append_block d (us ++ [.block m inner])]
  simp [newline, Element.lines]

/-! ### Moving a block -/

/-- The document with the block named `n` in front of the first other block, or behind the block
named `after`. A block moved behind itself stays, and so does the only block. -/
def move (n : Text) (after : Option Text) (doc : Document) : Document :=
  match cutFirst? (Element.hasName n) doc with
  | none => doc
  | some (xs, b, ys) =>
    match after with
    | none => (putFirst? b (aside xs ++ aside ys)).getD doc
    | some m => if m = n then doc else (putBehind? m b (aside xs ++ aside ys)).getD doc

theorem move_none (hnot : n ∉ names xs) (body : List Text) (ys : Document) :
    move n none (xs ++ .block n body :: ys) =
      (putFirst? (.block n body) (aside xs ++ aside ys)).getD (xs ++ .block n body :: ys) := by
  rw [move, cutFirst?_name hnot]

theorem move_self (hnot : n ∉ names xs) (body : List Text) (ys : Document) :
    move n (some n) (xs ++ .block n body :: ys) = xs ++ .block n body :: ys := by
  rw [move, cutFirst?_name hnot]
  simp

theorem move_some {m : Text} (hnot : n ∉ names xs) (hmn : m ≠ n) (body : List Text) (ys : Document) :
    move n (some m) (xs ++ .block n body :: ys) =
      (putBehind? m (.block n body) (aside xs ++ aside ys)).getD (xs ++ .block n body :: ys) := by
  rw [move, cutFirst?_name hnot]
  simp [hmn]

theorem mem_names_sides {m : Text} (hm : m ∈ names (xs ++ .block n body :: ys)) (hne : m ≠ n) :
    m ∈ names (aside xs ++ aside ys) := by
  simp only [names_append, names_block, List.mem_append, List.mem_cons, names_aside] at hm ⊢
  rcases hm with hx | hn | hy
  · exact .inl hx
  · exact absurd hn hne
  · exact .inr hy

theorem fits_sides (h : ∀ e ∈ xs ++ .block n body :: ys, e.Fits d) :
    ∀ e ∈ aside xs ++ aside ys, e.Fits d := by
  intro e he
  rcases List.mem_append.1 he with he | he
  · exact h e (List.mem_append_left _ (mem_of_mem_aside he))
  · exact h e (List.mem_append_right _ (List.mem_cons_of_mem _ (mem_of_mem_aside he)))

theorem move_cases (hnot : n ∉ names xs) {after : Option Text}
    (hafter : ∀ m ∈ after, m ∈ names (xs ++ .block n body :: ys)) :
    move n after (xs ++ .block n body :: ys) = xs ++ .block n body :: ys ∨
      ∃ us vs, aside xs ++ aside ys = us ++ vs ∧
        move n after (xs ++ .block n body :: ys) = us ++ .block n body :: vs := by
  cases after with
  | none =>
    rw [move_none hnot]
    rcases putFirst?_cases (.block n body) (aside xs ++ aside ys) with
      ⟨_, hput⟩ | ⟨us, m, inner, vs, hsides, _, hput⟩
    · rw [hput]
      exact .inl rfl
    · rw [hput]
      exact .inr ⟨us, _, hsides, rfl⟩
  | some m =>
    by_cases hmn : m = n
    · subst hmn
      exact .inl (move_self hnot body ys)
    · have hmem := mem_names_sides (hafter m rfl) hmn
      obtain ⟨us, inner, vs, hsides, _, hput⟩ := putBehind?_of_mem hmem (.block n body)
      rw [move_some hnot hmn, hput]
      exact .inr ⟨us ++ [.block m inner], vs, by simp [hsides], by simp⟩

theorem moveBlock_text (hfits : ∀ e ∈ xs ++ .block n body :: ys, e.Fits d) (hnot : n ∉ names xs)
    {after : Option Text} (hafter : ∀ m ∈ after, m ∈ names (xs ++ .block n body :: ys)) :
    moveBlock (text d (xs ++ .block n body :: ys)) (d.blockName n) (after.map d.blockName) =
      .ok (text d (move n after (xs ++ .block n body :: ys))) := by
  have hdialect : Dialect.ofText (text d (xs ++ .block n body :: ys)) = d :=
    ofText_text hfits (by simp)
  have hsides := fits_sides hfits
  rw [moveBlock, hdialect, find?_text hfits hnot]
  simp only [joined_text]
  cases after with
  | none =>
    rw [move_none hnot]
    simp only [Option.map_none, Option.filter_none, insertFront?_text hsides]
    cases putFirst? (.block n body) (aside xs ++ aside ys) with
    | none => rfl
    | some moved => rfl
  | some m =>
    have hm : d.IsName m := isName_of_mem_names hfits (hafter m rfl)
    have hn : d.IsName n := isName_of_mem_names hfits (by simp)
    have hkeep : (some (d.blockName m)).filter (fun t => !t.isEmpty) = some (d.blockName m) := by
      simp [Option.filter_some, Dialect.blockName_ne_nil hm]
    simp only [Option.map_some, hkeep]
    by_cases hmn : m = n
    · subst hmn
      rw [if_pos rfl, move_self hnot]
    · have hreported : d.blockName m ≠ d.blockName n := mt (Dialect.blockName_inj hm hn).1 hmn
      have hmem := mem_names_sides (hafter m rfl) hmn
      obtain ⟨us, inner, vs, _, _, hput⟩ := putBehind?_of_mem hmem (.block n body)
      rw [if_neg hreported, move_some hnot hmn, insertAfter?_text hsides hmem, hput]
      rfl

end Document

end TemplateBlocks
