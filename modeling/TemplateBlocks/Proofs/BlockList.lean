import TemplateBlocks.Proofs.DocumentMove

/-!
# The blocks of a document as a list

The three readers of a text see the blocks of the document that it writes
(`Document.WellFormed.seenIn`). A replaced body and a moved block of the document are the same
changes of the list of its blocks (`Document.marked_replaced`, `Document.marked_move`), and they
keep the document well formed.
-/

namespace TemplateBlocks

/-! ### Changes of a list and of a document -/

def MarkedBlock.replaceIn (name body : Text) (bs : List MarkedBlock) : List MarkedBlock :=
  bs.map fun b => if b.name = name then ⟨name, body⟩ else b

/-- The list with the block called `name` in front, or right behind the block called `after`. -/
def MarkedBlock.moveIn (name : Text) (after : Option Text) (bs : List MarkedBlock) :
    List MarkedBlock :=
  let moved := bs.filter fun b => b.name = name
  let others := bs.filter fun b => b.name ≠ name
  match after with
  | none => moved ++ others
  | some target =>
    if target = name then bs
    else others.flatMap fun b => if b.name = target then b :: moved else [b]

def Document.replace (n : Text) (body : List Text) (doc : Document) : Document :=
  doc.map fun e => if e.name? = some n then .block n body else e

/-! ### What is seen of a text -/

/-- The three readers of a text see the blocks of a list, in their order. -/
structure Text.Lists (s : Text) (bs : List MarkedBlock) : Prop where
  outline : ∀ translation,
    (Outline.ofText translation s).blocks.map Block.name = bs.map MarkedBlock.name
  flows : (BlockFlow.ofText s).map BlockFlow.name = bs.map MarkedBlock.name
  bodies : ∀ b ∈ bs, body? s b.name = some b.body

/-- The three readers of a text see the blocks of a document with their lines, their flows and
their bodies. -/
structure Document.SeenIn (d : Dialect) (doc : Document) (s : Text) : Prop where
  outline : ∀ translation, Outline.ofText translation s = ⟨true, doc.blocksFrom d 1⟩
  flows : BlockFlow.ofText s = doc.flows d
  bodies : ∀ b ∈ doc.marked d, body? s b.name = some b.body

namespace Document

variable {d : Dialect} {doc : Document}

theorem marked_append (xs ys : Document) : marked d (xs ++ ys) = marked d xs ++ marked d ys := by
  simp [marked]

theorem marked_block (n : Text) (body : List Text) (es : Document) :
    marked d (.block n body :: es) = ⟨d.blockName n, Text.join newline body⟩ :: marked d es := rfl

theorem mem_marked {b : MarkedBlock} : b ∈ marked d doc ↔
    ∃ n body, Element.block n body ∈ doc ∧ b = ⟨d.blockName n, Text.join newline body⟩ := by
  constructor
  · intro h
    obtain ⟨e, he, hb⟩ := List.mem_filterMap.1 h
    cases e with
    | gap l => simp [Element.marked?] at hb
    | block n body => exact ⟨n, body, he, by simpa [Element.marked?] using hb.symm⟩
  · intro h
    obtain ⟨n, body, he, rfl⟩ := h
    exact List.mem_filterMap.2 ⟨_, he, rfl⟩

theorem map_name_marked : (marked d doc).map MarkedBlock.name = (names doc).map d.blockName := by
  induction doc with
  | nil => rfl
  | cons e es ih =>
    cases e with
    | gap l => exact ih
    | block n body => exact congrArg (d.blockName n :: ·) ih

theorem map_name_flows : (flows d doc).map BlockFlow.name = (names doc).map d.blockName := by
  induction doc with
  | nil => rfl
  | cons e es ih =>
    cases e with
    | gap l => exact ih
    | block n body => exact congrArg (d.blockName n :: ·) ih

theorem map_name_blocksFrom (k : Nat) :
    (blocksFrom d k doc).map Block.name = (names doc).map d.blockName := by
  induction doc generalizing k with
  | nil => rfl
  | cons e es ih =>
    cases e with
    | gap l => exact ih (k + 1)
    | block n body => exact congrArg (d.blockName n :: ·) (ih _)

theorem WellFormed.not_mem_sides {xs ys : Document} {n : Text} {body : List Text}
    (h : WellFormed d (xs ++ .block n body :: ys)) : n ∉ names xs ∧ n ∉ names ys := by
  have hnodup := h.nodup
  rw [names_append, names_block, List.nodup_append] at hnodup
  obtain ⟨_, hys, hdisjoint⟩ := hnodup
  exact ⟨fun hx => hdisjoint n hx n (List.mem_cons_self ..) rfl, (List.nodup_cons.1 hys).1⟩

theorem WellFormed.seenIn (h : WellFormed d doc) (hne : names doc ≠ []) :
    SeenIn d doc (text d doc) := by
  refine ⟨outline_text h.fits hne, flows_text h.fits hne, fun b hb => ?_⟩
  obtain ⟨n, body, he, rfl⟩ := mem_marked.1 hb
  obtain ⟨xs, ys, rfl⟩ := List.append_of_mem he
  exact body?_text h.fits h.not_mem_sides.1

theorem SeenIn.lists {s : Text} (h : SeenIn d doc s) : s.Lists (marked d doc) := by
  refine ⟨fun translation => ?_, ?_, h.bodies⟩
  · rw [h.outline translation, map_name_marked]
    exact map_name_blocksFrom 1
  · rw [h.flows, map_name_marked, map_name_flows]

end Document

/-! ### Lists of blocks -/

namespace MarkedBlock

variable {b : MarkedBlock} {as bs : List MarkedBlock}

theorem filter_name_eq (ha : ∀ a ∈ as, a.name ≠ b.name) (hb : ∀ a ∈ bs, a.name ≠ b.name) :
    (as ++ b :: bs).filter (fun a => a.name = b.name) = [b] := by
  have hnil : ∀ {cs : List MarkedBlock}, (∀ a ∈ cs, a.name ≠ b.name) →
      cs.filter (fun a => a.name = b.name) = [] :=
    fun h => List.filter_eq_nil_iff.2 fun a hmem => by simpa using h a hmem
  rw [List.filter_append, hnil ha, List.filter_cons_of_pos (by simp), hnil hb]
  rfl

theorem filter_name_ne (ha : ∀ a ∈ as, a.name ≠ b.name) (hb : ∀ a ∈ bs, a.name ≠ b.name) :
    (as ++ b :: bs).filter (fun a => a.name ≠ b.name) = as ++ bs := by
  have hall : ∀ {cs : List MarkedBlock}, (∀ a ∈ cs, a.name ≠ b.name) →
      cs.filter (fun a => a.name ≠ b.name) = cs :=
    fun h => List.filter_eq_self.2 fun a hmem => by simpa using h a hmem
  rw [List.filter_append, hall ha, List.filter_cons_of_neg (by simp), hall hb]

theorem replaceIn_append (ha : ∀ a ∈ as, a.name ≠ b.name) (hb : ∀ a ∈ bs, a.name ≠ b.name)
    (body : Text) : replaceIn b.name body (as ++ b :: bs) = as ++ ⟨b.name, body⟩ :: bs := by
  have hself : ∀ {cs : List MarkedBlock}, (∀ a ∈ cs, a.name ≠ b.name) →
      cs.map (fun a => if a.name = b.name then ⟨b.name, body⟩ else a) = cs :=
    fun h => (List.map_congr_left fun a hmem => if_neg (h a hmem)).trans (List.map_id _)
  rw [replaceIn, List.map_append, List.map_cons, hself ha, hself hb, if_pos rfl]

theorem moveIn_none (ha : ∀ a ∈ as, a.name ≠ b.name) (hb : ∀ a ∈ bs, a.name ≠ b.name) :
    moveIn b.name none (as ++ b :: bs) = b :: (as ++ bs) := by
  have hmoved := filter_name_eq ha hb
  have hothers := filter_name_ne ha hb
  rw [moveIn]
  simp only [hmoved, hothers, List.singleton_append]

theorem moveIn_some {c : MarkedBlock} {cs ds : List MarkedBlock}
    (ha : ∀ a ∈ as, a.name ≠ b.name) (hb : ∀ a ∈ bs, a.name ≠ b.name) (hcb : c.name ≠ b.name)
    (hsides : as ++ bs = cs ++ c :: ds) (hc : ∀ a ∈ cs, a.name ≠ c.name)
    (hd : ∀ a ∈ ds, a.name ≠ c.name) :
    moveIn b.name (some c.name) (as ++ b :: bs) = cs ++ c :: b :: ds := by
  have hmoved := filter_name_eq ha hb
  have hothers := filter_name_ne ha hb
  have hself : ∀ {es : List MarkedBlock}, (∀ a ∈ es, a.name ≠ c.name) →
      es.flatMap (fun a => if a.name = c.name then a :: [b] else [a]) = es := by
    intro es h
    rw [List.flatMap_congr fun a hmem => if_neg (h a hmem), List.flatMap_singleton']
  rw [moveIn]
  simp only [hmoved, hothers, hsides, if_neg hcb]
  rw [List.flatMap_append, List.flatMap_cons, hself hc, hself hd, if_pos rfl]
  rfl

end MarkedBlock

namespace Document

variable {d : Dialect} {doc xs ys : Document} {n : Text} {body : List Text}

theorem name_ne_of_mem_marked (hfits : ∀ e ∈ xs, e.Fits d) (hn : d.IsName n)
    (hnot : n ∉ names xs) {b : MarkedBlock} (hb : b ∈ marked d xs) : b.name ≠ d.blockName n := by
  obtain ⟨m, inner, he, rfl⟩ := mem_marked.1 hb
  intro heq
  have hm : d.IsName m := (hfits _ he).1
  obtain rfl : m = n := (Dialect.blockName_inj hm hn).1 heq
  exact hnot (mem_names.2 ⟨inner, he⟩)

theorem WellFormed.name_ne (h : WellFormed d (xs ++ .block n body :: ys)) :
    (∀ b ∈ marked d xs, b.name ≠ d.blockName n) ∧ ∀ b ∈ marked d ys, b.name ≠ d.blockName n := by
  have hn : d.IsName n := isName_of_mem_names h.fits (by simp)
  obtain ⟨hx, hy⟩ := h.not_mem_sides
  exact ⟨fun b => name_ne_of_mem_marked (fun e he => h.fits e (by simp [he])) hn hx,
    fun b => name_ne_of_mem_marked (fun e he => h.fits e (by simp [he])) hn hy⟩

/-! ### A replaced body -/

theorem replace_append (h : WellFormed d (xs ++ .block n body :: ys)) (new : List Text) :
    replace n new (xs ++ .block n body :: ys) = xs ++ .block n new :: ys := by
  have hself : ∀ {es : Document}, n ∉ names es →
      es.map (fun e => if e.name? = some n then .block n new else e) = es := by
    intro es hes
    refine (List.map_congr_left fun e he => ?_).trans (List.map_id es)
    refine if_neg fun hname => hes ?_
    exact List.mem_filterMap.2 ⟨e, he, hname⟩
  obtain ⟨hx, hy⟩ := h.not_mem_sides
  have hname : (Element.block n body).name? = some n := rfl
  rw [replace, List.map_append, List.map_cons, hself hx, hself hy, if_pos hname]

theorem plain_splitAt {s : Text} (hs : ¬ Marker.commentStart <:+: s) :
    ∀ l ∈ Text.splitAt '\n' s, PlainLine l := by
  intro l hl
  refine ⟨Text.not_mem_of_mem_splitAt hl, fun hcomment => hs ?_⟩
  have hinfix := Text.infix_join_of_mem hl
  rw [Text.join_splitAt] at hinfix
  exact hcomment.trans hinfix

theorem wellFormed_replaced (h : WellFormed d (xs ++ .block n body :: ys)) {new : List Text}
    (hnew : ∀ l ∈ new, PlainLine l) : WellFormed d (xs ++ .block n new :: ys) := by
  obtain ⟨hfits, hnodup⟩ := h
  refine ⟨fun e he => ?_, by simpa using hnodup⟩
  have hblock : (Element.block n body).Fits d := hfits _ (by simp)
  rcases List.mem_append.1 he with he | he
  · exact hfits e (List.mem_append_left _ he)
  · rcases List.mem_cons.1 he with rfl | he
    · exact ⟨hblock.1, hnew⟩
    · exact hfits e (List.mem_append_right _ (List.mem_cons_of_mem _ he))

theorem marked_replaced (h : WellFormed d (xs ++ .block n body :: ys)) (s : Text) :
    marked d (xs ++ .block n (Text.splitAt '\n' s) :: ys) =
      MarkedBlock.replaceIn (d.blockName n) s (marked d (xs ++ .block n body :: ys)) := by
  obtain ⟨hx, hy⟩ := h.name_ne
  have hlist := MarkedBlock.replaceIn_append (b := ⟨d.blockName n, Text.join newline body⟩) hx hy s
  have hbody : Text.join newline (Text.splitAt '\n' s) = s := Text.join_splitAt '\n' s
  simp only [marked_append, marked_block, hbody]
  exact hlist.symm

/-! ### A moved block -/

theorem names_move_perm (h : WellFormed d (xs ++ .block n body :: ys)) {after : Option Text}
    (hafter : ∀ m ∈ after, m ∈ names (xs ++ .block n body :: ys)) :
    (names (move n after (xs ++ .block n body :: ys))).Perm
      (names (xs ++ .block n body :: ys)) := by
  rcases move_cases h.not_mem_sides.1 hafter with hstay | ⟨us, vs, hsides, hmove⟩
  · rw [hstay]
  · have hnames := congrArg names hsides
    simp only [names_append, names_aside] at hnames
    rw [hmove, names_append, names_append, names_block, names_block]
    refine List.perm_middle.trans (List.Perm.trans ?_ List.perm_middle.symm)
    rw [hnames]

theorem wellFormed_sides (h : WellFormed d (xs ++ .block n body :: ys)) :
    WellFormed d (aside xs ++ aside ys) := by
  refine ⟨fits_sides h.fits, ?_⟩
  have hnodup := h.nodup
  rw [names_append, names_block] at hnodup
  rw [names_append, names_aside, names_aside]
  exact (List.nodup_cons.1 (List.perm_middle.nodup_iff.1 hnodup)).2

theorem wellFormed_move (h : WellFormed d (xs ++ .block n body :: ys)) {after : Option Text}
    (hafter : ∀ m ∈ after, m ∈ names (xs ++ .block n body :: ys)) :
    WellFormed d (move n after (xs ++ .block n body :: ys)) := by
  refine ⟨?_, (names_move_perm h hafter).nodup_iff.2 h.nodup⟩
  rcases move_cases h.not_mem_sides.1 hafter with hstay | ⟨us, vs, hsides, hmove⟩
  · rw [hstay]
    exact h.fits
  · have hothers := fits_sides h.fits
    rw [hsides] at hothers
    intro e he
    rw [hmove, List.mem_append, List.mem_cons] at he
    rcases he with hu | rfl | hv
    · exact hothers e (List.mem_append_left _ hu)
    · exact h.fits _ (by simp)
    · exact hothers e (List.mem_append_right _ hv)

theorem marked_aside (es : Document) : marked d (aside es) = marked d es := by
  by_cases he : es = [.gap []]
  · rw [aside, if_pos he, he]
    rfl
  · rw [aside, if_neg he]

theorem marked_eq_nil (h : names doc = []) : marked d doc = [] := by
  refine List.eq_nil_iff_forall_not_mem.2 fun b hb => ?_
  obtain ⟨n, body, he, _⟩ := mem_marked.1 hb
  have hn : n ∈ names doc := mem_names.2 ⟨body, he⟩
  rw [h] at hn
  exact List.not_mem_nil hn

theorem marked_sides (xs ys : Document) :
    marked d (aside xs ++ aside ys) = marked d xs ++ marked d ys := by
  rw [marked_append, marked_aside, marked_aside]

theorem marked_move_front (h : WellFormed d (xs ++ .block n body :: ys)) :
    marked d (move n none (xs ++ .block n body :: ys)) =
      MarkedBlock.moveIn (d.blockName n) none (marked d (xs ++ .block n body :: ys)) := by
  let b : MarkedBlock := ⟨d.blockName n, Text.join newline body⟩
  obtain ⟨hx, hy⟩ := h.name_ne
  have hlist := MarkedBlock.moveIn_none (b := b) hx hy
  rw [← marked_sides] at hlist
  rw [move_none h.not_mem_sides.1, marked_append, marked_block, hlist]
  rcases putFirst?_cases (.block n body) (aside xs ++ aside ys) with
    ⟨hnames, hput⟩ | ⟨us, m, inner, vs, hsides, hus, hput⟩
  · have hnil := marked_eq_nil (d := d) hnames
    have hside := hnil
    rw [marked_sides, List.append_eq_nil_iff] at hside
    rw [hput, hnil, Option.getD_none, marked_append, marked_block, hside.1, hside.2]
    rfl
  · rw [hput, hsides, Option.getD_some, marked_append, marked_append, marked_eq_nil hus, marked_block]
    rfl

theorem marked_move_behind {m : Text} (h : WellFormed d (xs ++ .block n body :: ys)) (hmn : m ≠ n)
    (hm : m ∈ names (xs ++ .block n body :: ys)) :
    marked d (move n (some m) (xs ++ .block n body :: ys)) =
      MarkedBlock.moveIn (d.blockName n) (some (d.blockName m))
        (marked d (xs ++ .block n body :: ys)) := by
  let b : MarkedBlock := ⟨d.blockName n, Text.join newline body⟩
  obtain ⟨hx, hy⟩ := h.name_ne
  obtain ⟨us, inner, vs, hsides, _, hput⟩ :=
    putBehind?_of_mem (mem_names_sides hm hmn) (.block n body)
  have hothers := wellFormed_sides h
  have hlist := marked_sides (d := d) xs ys
  rw [hsides] at hothers hlist
  rw [marked_append, marked_block] at hlist
  obtain ⟨hu, hv⟩ := hothers.name_ne
  have hne : d.blockName m ≠ d.blockName n := by
    have hmem : (⟨d.blockName m, Text.join newline inner⟩ : MarkedBlock) ∈
        marked d xs ++ marked d ys := by
      rw [← hlist]
      simp
    rcases List.mem_append.1 hmem with hmem | hmem
    · exact hx _ hmem
    · exact hy _ hmem
  have hmoved := MarkedBlock.moveIn_some (b := b) hx hy hne hlist.symm hu hv
  rw [move_some h.not_mem_sides.1 hmn, hput, Option.getD_some, marked_append, marked_block,
    marked_block, marked_append, marked_block]
  exact hmoved.symm

theorem marked_move (h : WellFormed d (xs ++ .block n body :: ys)) {after : Option Text}
    (hafter : ∀ m ∈ after, m ∈ names (xs ++ .block n body :: ys)) :
    marked d (move n after (xs ++ .block n body :: ys)) =
      MarkedBlock.moveIn (d.blockName n) (after.map d.blockName)
        (marked d (xs ++ .block n body :: ys)) := by
  cases after with
  | none => exact marked_move_front h
  | some m =>
    by_cases hmn : m = n
    · subst hmn
      rw [move_self h.not_mem_sides.1, Option.map_some, MarkedBlock.moveIn]
      simp
    · exact marked_move_behind h hmn (hafter m rfl)

end Document

end TemplateBlocks
