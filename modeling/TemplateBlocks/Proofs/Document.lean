import TemplateBlocks.Outline
import TemplateBlocks.Proofs.LineEvents
import TemplateBlocks.Reorder
import TemplateBlocks.Rewrite

/-!
# Documents

A document is a sequence of gap lines and blocks, each block written with plain markers of one
dialect on lines of their own. `Document.outline_text` and `Document.flows_text` say that the
line scan finds exactly the blocks of a well-formed document, with their names, their lines and
their flows.
-/

namespace TemplateBlocks

/-! ### Elements and documents -/

/-- A line outside of all blocks, or a block with the name on its markers and its body lines. -/
inductive Element
  | gap (line : Text)
  | block (name : Text) (body : List Text)
  deriving DecidableEq, Repr

abbrev Document := List Element

namespace Element

def lines (d : Dialect) : Element → List Text
  | gap line => [line]
  | block n body => Marker.openingText d n :: (body ++ [Marker.closingText d n])

def name? : Element → Option Text
  | gap _ => none
  | block n _ => some n

def isBlock (e : Element) : Bool := e.name?.isSome

def hasName (n : Text) (e : Element) : Bool := e.name? == some n

def marked? (d : Dialect) : Element → Option MarkedBlock
  | gap _ => none
  | block n body => some ⟨d.blockName n, Text.join newline body⟩

def flow? (d : Dialect) : Element → Option BlockFlow
  | gap _ => none
  | block n body => some ⟨d.blockName n, .ofCode (Text.join newline ((block n body).lines d))⟩

end Element

def Element.Fits (d : Dialect) : Element → Prop
  | gap line => PlainLine line
  | block n body => d.IsName n ∧ ∀ l ∈ body, PlainLine l

instance (d : Dialect) (e : Element) : Decidable (e.Fits d) :=
  match e with
  | .gap line => inferInstanceAs (Decidable (PlainLine line))
  | .block n body => inferInstanceAs (Decidable (d.IsName n ∧ ∀ l ∈ body, PlainLine l))

namespace Document

def lines (d : Dialect) (doc : Document) : List Text := doc.flatMap (Element.lines d)

def text (d : Dialect) (doc : Document) : Text := Text.join newline (lines d doc)

def names (doc : Document) : List Text := doc.filterMap Element.name?

def marked (d : Dialect) (doc : Document) : List MarkedBlock := doc.filterMap (Element.marked? d)

def flows (d : Dialect) (doc : Document) : List BlockFlow := doc.filterMap (Element.flow? d)

/-- The blocks with their lines, when the first line of the document has number `n`. -/
def blocksFrom (d : Dialect) : Nat → Document → List Block
  | _, [] => []
  | n, .gap _ :: es => blocksFrom d (n + 1) es
  | n, .block name body :: es =>
    { name := d.blockName name, kind := .delimited, start := n, stop := n + body.length + 1 } ::
      blocksFrom d (n + body.length + 2) es

/-- A document whose elements can be written and whose blocks have different names. -/
structure WellFormed (d : Dialect) (doc : Document) : Prop where
  fits : ∀ e ∈ doc, e.Fits d
  nodup : (names doc).Nodup

instance (d : Dialect) (doc : Document) : Decidable (WellFormed d doc) :=
  decidable_of_iff ((∀ e ∈ doc, e.Fits d) ∧ (names doc).Nodup)
    ⟨fun h => ⟨h.1, h.2⟩, fun h => ⟨h.fits, h.nodup⟩⟩

@[simp] theorem lines_nil (d : Dialect) : lines d [] = [] := rfl

@[simp] theorem lines_cons (d : Dialect) (e : Element) (es : Document) :
    lines d (e :: es) = e.lines d ++ lines d es := by
  simp [lines]

@[simp] theorem lines_append (d : Dialect) (es fs : Document) :
    lines d (es ++ fs) = lines d es ++ lines d fs := by
  simp [lines]

@[simp] theorem names_append (es fs : Document) : names (es ++ fs) = names es ++ names fs := by
  simp [names]

@[simp] theorem names_gap (l : Text) (es : Document) : names (.gap l :: es) = names es := rfl

@[simp] theorem names_block (n : Text) (body : List Text) (es : Document) :
    names (.block n body :: es) = n :: names es := rfl

theorem mem_names {doc : Document} {n : Text} :
    n ∈ names doc ↔ ∃ body, Element.block n body ∈ doc := by
  induction doc with
  | nil => simp [names]
  | cons e es ih =>
    cases e with
    | gap l => simp [ih]
    | block m body => simp only [names_block, List.mem_cons, ih, Element.block.injEq, exists_or]; simp

theorem isName_of_mem_names {d : Dialect} {doc : Document} {n : Text} (h : ∀ e ∈ doc, e.Fits d)
    (hn : n ∈ names doc) : d.IsName n := by
  obtain ⟨body, hbody⟩ := mem_names.1 hn
  exact (h _ hbody).1

end Document

/-! ### Lines of well-formed documents -/

namespace Element

variable {d : Dialect} {e : Element}

theorem newline_not_mem_lines (he : e.Fits d) : ∀ l ∈ e.lines d, '\n' ∉ l := by
  intro l hl
  cases e with
  | gap line =>
    obtain rfl : l = line := by simpa [lines] using hl
    exact he.1
  | block n body =>
    simp only [lines, List.mem_cons, List.mem_append, List.not_mem_nil, or_false] at hl
    rcases hl with rfl | hl | rfl
    · exact (Marker.said_openingWords he.1).newline_not_mem
    · exact (he.2 l hl).1
    · rw [Marker.closingText_eq]
      exact (Marker.said_closingWords he.1).newline_not_mem

theorem passes_lines {α : Type} {m : Matcher α} (hm : m.ReadsComments) (he : e.Fits d)
    (hmarkers : ∀ n, e.name? = some n → ∀ v, m (Marker.openingText d n ++ v) = none ∧
      m (Marker.closingText d n ++ v) = none) : ∀ l ∈ e.lines d, m.Passes l := by
  intro l hl
  cases e with
  | gap line =>
    obtain rfl : l = line := by simpa [lines] using hl
    exact hm.passes_of_plain he.2
  | block n body =>
    simp only [lines, List.mem_cons, List.mem_append, List.not_mem_nil, or_false] at hl
    rcases hl with rfl | hl | rfl
    · exact Marker.passes_openingText hm he.1 fun v => (hmarkers n rfl v).1
    · exact hm.passes_of_plain (he.2 l hl).2
    · exact Marker.passes_closingText hm he.1 fun v => (hmarkers n rfl v).2

end Element

/-! ### Marker events of a document -/

theorem eventsFrom_block {d : Dialect} {n : Text} {body : List Text}
    (h : (Element.block n body).Fits d) (k : Nat) : eventsFrom k ((Element.block n body).lines d) =
      [(.opens ⟨d, n⟩, k), (.closes ⟨d, n⟩, k + body.length + 1)] := by
  have hopen : MarkerEvent.ofLine (Marker.openingText d n).trim = [.opens ⟨d, n⟩] := by
    rw [Marker.openingText, Marker.trim_plainComment]
    exact Marker.ofLine_openingText h.1
  have hclose : MarkerEvent.ofLine (Marker.closingText d n).trim = [.closes ⟨d, n⟩] := by
    rw [Marker.closingText_eq, Marker.trim_plainComment, ← Marker.closingText_eq]
    exact Marker.ofLine_closingText (Marker.readable_of_isName h.1)
  have hbody := eventsFrom_plain h.2 (k + 1)
  have hlast : k + 1 + body.length = k + body.length + 1 := by omega
  rw [Element.lines, eventsFrom_cons, hopen, eventsFrom_append, hbody, eventsFrom_cons, hclose,
    hlast]
  rfl

namespace Document

variable {d : Dialect} {doc : Document}

theorem pairMarkers_eventsFrom (h : ∀ e ∈ doc, e.Fits d) (k : Nat) (pending : List OpenMarker) :
    (pairMarkers (eventsFrom k (lines d doc)) pending).1.map MarkerPair.block = blocksFrom d k doc ∧
      (pairMarkers (eventsFrom k (lines d doc)) pending).2 = pending := by
  induction doc generalizing k with
  | nil => exact ⟨rfl, rfl⟩
  | cons e es ih =>
    have hes := ih fun x hx => h x (List.mem_cons_of_mem e hx)
    have he := h e (List.mem_cons_self ..)
    cases e with
    | gap l =>
      have hgap : eventsFrom k ((Element.gap l).lines d) = [] :=
        eventsFrom_plain (fun x hx => List.mem_singleton.1 hx ▸ he) k
      have hnext := hes (k + 1)
      rw [lines_cons, eventsFrom_append, hgap]
      exact hnext
    | block n body =>
      have hnext := hes (k + body.length + 2)
      have hlen : k + ((Element.block n body).lines d).length = k + body.length + 2 := by
        simp only [Element.lines, List.length_cons, List.length_append, List.length_nil]
        omega
      rw [lines_cons, eventsFrom_append, eventsFrom_block he, hlen, List.cons_append,
        List.cons_append, List.nil_append, pairMarkers_adjacent, blocksFrom]
      exact ⟨congrArg (_ :: ·) hnext.1, hnext.2⟩

theorem le_start_of_mem_blocksFrom {k : Nat} {b : Block} (h : b ∈ blocksFrom d k doc) :
    k ≤ b.start := by
  induction doc generalizing k with
  | nil => simp [blocksFrom] at h
  | cons e es ih =>
    cases e with
    | gap l =>
      have hb := ih (k := k + 1) (by simpa [blocksFrom] using h)
      omega
    | block n body =>
      rw [blocksFrom, List.mem_cons] at h
      rcases h with rfl | h
      · exact Nat.le_refl k
      · have hb := ih h
        omega

theorem pairwise_blocksFrom (d : Dialect) (doc : Document) (k : Nat) :
    (blocksFrom d k doc).Pairwise fun a b => a.start ≤ b.start := by
  induction doc generalizing k with
  | nil => exact List.Pairwise.nil
  | cons e es ih =>
    cases e with
    | gap l => exact ih (k + 1)
    | block n body =>
      refine List.pairwise_cons.2 ⟨fun b hb => ?_, ih _⟩
      have hb := le_start_of_mem_blocksFrom hb
      show k ≤ b.start
      omega

theorem sort_blocksFrom (k : Nat) : Block.sort (blocksFrom d k doc) = blocksFrom d k doc := by
  have hpair := pairwise_blocksFrom d doc k
  exact List.mergeSort_of_pairwise (hpair.imp fun hab => by simpa using hab)

theorem outermostAfter_blocksFrom {k : Nat} {last : Option Block} (h : ∀ b ∈ last, b.stop < k) :
    Block.outermostAfter last (blocksFrom d k doc) = blocksFrom d k doc := by
  induction doc generalizing k last with
  | nil => rfl
  | cons e es ih =>
    cases e with
    | gap l => exact ih fun b hb => Nat.lt_succ_of_lt (h b hb)
    | block n body =>
      let b : Block :=
        { name := d.blockName n, kind := .delimited, start := k, stop := k + body.length + 1 }
      have hfree : b.coveredBy last = false := by
        cases last with
        | none => rfl
        | some a =>
          have hstop := h a rfl
          have hnot : ¬ (a.contains b = true) := by
            rw [Block.contains_iff]
            show ¬ (a.start ≤ k ∧ k + body.length + 1 ≤ a.stop)
            omega
          exact Bool.eq_false_iff.2 hnot
      have hnext : ∀ a ∈ some b, a.stop < k + body.length + 2 := by
        intro a ha
        obtain rfl : b = a := by simpa using ha
        show k + body.length + 1 < k + body.length + 2
        omega
      have hrest := ih hnext
      rw [blocksFrom, Block.outermostAfter, if_neg (by simp [b, hfree])]
      exact congrArg (b :: ·) hrest

theorem outermost_blocksFrom (k : Nat) :
    Block.outermost (blocksFrom d k doc) = blocksFrom d k doc :=
  outermostAfter_blocksFrom (by simp)

/-! ### Reading a document back -/

theorem exists_append_of_mem_names {n : Text} (h : n ∈ names doc) :
    ∃ xs body ys, doc = xs ++ .block n body :: ys := by
  obtain ⟨body, hbody⟩ := mem_names.1 h
  obtain ⟨xs, ys, hdoc⟩ := List.append_of_mem hbody
  exact ⟨xs, body, ys, hdoc⟩

theorem newline_not_mem_lines (h : ∀ e ∈ doc, e.Fits d) : ∀ l ∈ lines d doc, '\n' ∉ l := by
  intro l hl
  obtain ⟨e, he, hle⟩ := List.mem_flatMap.1 hl
  exact Element.newline_not_mem_lines (h e he) l hle

theorem text_ne_nil (hne : names doc ≠ []) : text d doc ≠ [] := by
  obtain ⟨n, hn⟩ := List.exists_mem_of_ne_nil _ hne
  obtain ⟨xs, body, ys, rfl⟩ := exists_append_of_mem_names hn
  have hless : '<' ∈ text d (xs ++ .block n body :: ys) := by
    have hline : Marker.openingText d n ∈ lines d (xs ++ .block n body :: ys) := by
      simp [Element.lines]
    have hmem : '<' ∈ Marker.openingText d n := by
      rw [Marker.openingText, Marker.plainComment_eq_cons]
      exact List.mem_cons_self ..
    exact (Text.infix_join_of_mem hline).subset hmem
  exact List.ne_nil_of_mem hless

theorem lines_text (h : ∀ e ∈ doc, e.Fits d) (hne : names doc ≠ []) :
    (text d doc).lines = lines d doc :=
  Text.lines_join (text_ne_nil hne) (newline_not_mem_lines h)

theorem scan_lines (h : ∀ e ∈ doc, e.Fits d) :
    Scan.ofLines (lines d doc) = ⟨blocksFrom d 1 doc, []⟩ := by
  obtain ⟨hpairs, hleft⟩ := pairMarkers_eventsFrom h 1 []
  have hevents : MarkerEvent.ofLines (lines d doc) = eventsFrom 1 (lines d doc) := rfl
  simp only [Scan.ofLines, hevents, hpairs, hleft, sort_blocksFrom, List.reverse_nil]

theorem blocksFrom_ne_nil (hne : names doc ≠ []) (k : Nat) : blocksFrom d k doc ≠ [] := by
  induction doc generalizing k with
  | nil => exact absurd rfl hne
  | cons e es ih =>
    cases e with
    | gap l => exact ih hne (k + 1)
    | block n body => exact List.cons_ne_nil _ _

theorem outline_text (h : ∀ e ∈ doc, e.Fits d) (hne : names doc ≠ [])
    (translation : Label.Translation) :
    Outline.ofText translation (text d doc) = ⟨true, blocksFrom d 1 doc⟩ := by
  have hblocks := blocksFrom_ne_nil (d := d) hne 1
  rw [Outline.ofText, lines_text h hne, Outline.ofLines, scan_lines h]
  cases hb : blocksFrom d 1 doc with
  | nil => exact absurd hb hblocks
  | cons b bs => rfl

theorem text_slice (pre mid post : List Text) :
    Lines.text (pre ++ (mid ++ post)) (pre.length + 1) (pre.length + mid.length) =
      Text.join newline mid := by
  have htake : (pre ++ (mid ++ post)).take (pre.length + mid.length) = pre ++ mid := by
    rw [← List.append_assoc, ← List.length_append, List.take_left']
    rfl
  have hdrop : (pre ++ mid).drop (pre.length + 1 - 1) = mid := by
    rw [Nat.add_sub_cancel, List.drop_left]
  rw [Lines.text, Lines.slice, htake, hdrop]
  rfl

theorem flows_blocksFrom (d : Dialect) (doc : Document) (pre : List Text) :
    (blocksFrom d (pre.length + 1) doc).map
        (fun b => BlockFlow.mk b.name (.ofCode (Lines.text (pre ++ lines d doc) b.start b.stop))) =
      flows d doc := by
  induction doc generalizing pre with
  | nil => rfl
  | cons e es ih =>
    have hnext := ih (pre ++ e.lines d)
    rw [List.append_assoc, ← lines_cons] at hnext
    cases e with
    | gap l =>
      have hlen : (pre ++ (Element.gap l).lines d).length + 1 = pre.length + 1 + 1 := by
        simp [Element.lines]
      rw [hlen] at hnext
      exact hnext
    | block n body =>
      have hlen : ((Element.block n body).lines d).length = body.length + 2 := by
        simp [Element.lines]
      have hstart : (pre ++ (Element.block n body).lines d).length + 1 =
          pre.length + 1 + body.length + 2 := by
        rw [List.length_append, hlen]
        omega
      have hstop : pre.length + ((Element.block n body).lines d).length =
          pre.length + 1 + body.length + 1 := by
        omega
      have hslice := text_slice pre ((Element.block n body).lines d) (lines d es)
      rw [hstart] at hnext
      rw [hstop] at hslice
      rw [blocksFrom, List.map_cons, hnext, lines_cons, hslice]
      rfl

theorem flows_text (h : ∀ e ∈ doc, e.Fits d) (hne : names doc ≠ []) :
    BlockFlow.ofText (text d doc) = flows d doc := by
  have hblocks := blocksFrom_ne_nil (d := d) hne 1
  have hflows := flows_blocksFrom d doc []
  rw [BlockFlow.ofText, lines_text h hne, scan_lines h, outermost_blocksFrom]
  rw [List.length_nil, Nat.zero_add, List.nil_append] at hflows
  cases hb : blocksFrom d 1 doc with
  | nil => exact absurd hb hblocks
  | cons b bs =>
    rw [hb] at hflows
    exact hflows

end Document

end TemplateBlocks
