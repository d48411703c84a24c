import Mathlib
import TemplateBlocks.Proofs.OrderHazards

/-!
# Names that not everyone knows

A name that is missing from one of two orders, or that no block has, is passed over by the check of
a new order, but keeps its place. Without such names the same blocks and variables are reported, and
the very same hazards when no other name changes the direction in which it moves
(`checkReorder_knownNames`). It can change it, and then a hazard is seen from one side only
(`checkReorder_unknownName_shifts`).
-/

namespace TemplateBlocks

/-! ### Places in a filtered list -/

section Filter

variable {α β : Type} {p : α → Bool} {l : List α}

/-- Elements without a value can be left out before the values are taken. -/
theorem filterMap_filter_eq {f g : α → Option β} (hin : ∀ x ∈ l, p x = true → f x = g x)
    (hout : ∀ x ∈ l, p x = false → f x = none) : l.filterMap f = (l.filter p).filterMap g := by
  rw [List.filterMap_filter]
  refine List.filterMap_congr fun x hx => ?_
  cases hp : p x with
  | false => simpa [hp] using hout x hx hp
  | true => simpa [hp] using hin x hx hp

theorem flatMap_filter_eq {f g : α → List β} (hin : ∀ x ∈ l, p x = true → f x = g x)
    (hout : ∀ x ∈ l, p x = false → f x = []) : l.flatMap f = (l.filter p).flatMap g := by
  induction l with
  | nil => rfl
  | cons x l ih =>
    have htail := ih (fun y hy => hin y (List.mem_cons_of_mem x hy))
      fun y hy => hout y (List.mem_cons_of_mem x hy)
    by_cases hx : p x = true
    · rw [List.filter_cons_of_pos hx, List.flatMap_cons, List.flatMap_cons, htail,
        hin x (List.mem_cons_self ..) hx]
    · rw [List.filter_cons_of_neg hx, List.flatMap_cons, htail,
        hout x (List.mem_cons_self ..) (by simpa using hx), List.nil_append]

variable [BEq α] [LawfulBEq α] {a b : α}

theorem idxOf_filter_lt_idxOf (ha : p a = true) (hb : p b = true) :
    (l.filter p).idxOf a < (l.filter p).idxOf b ↔ l.idxOf a < l.idxOf b := by
  induction l with
  | nil => simp
  | cons x l ih =>
    by_cases hx : p x = true
    · rw [List.filter_cons_of_pos hx]
      by_cases hxa : x = a
      · subst hxa
        by_cases hxb : x = b
        · simp [hxb]
        · simp [hxb]
      · by_cases hxb : x = b
        · simp [hxb]
        · simp [hxa, hxb, ih]
    · have hxa : x ≠ a := fun h => hx (h ▸ ha)
      have hxb : x ≠ b := fun h => hx (h ▸ hb)
      rw [List.filter_cons_of_neg hx, ih]
      simp [hxa, hxb]

theorem filter_take_idxOf (ha : p a = true) :
    (l.take (l.idxOf a)).filter p = (l.filter p).take ((l.filter p).idxOf a) := by
  induction l with
  | nil => rfl
  | cons x l ih =>
    by_cases hxa : x = a
    · simp [hxa, ha]
    · by_cases hx : p x = true
      · simp [hxa, hx, ih]
      · simp [hxa, hx, ih]

theorem filter_drop_idxOf (ha : p a = true) :
    (l.drop (l.idxOf a + 1)).filter p = (l.filter p).drop ((l.filter p).idxOf a + 1) := by
  induction l with
  | nil => rfl
  | cons x l ih =>
    by_cases hxa : x = a
    · simp [hxa, ha]
    · by_cases hx : p x = true
      · simp [hxa, hx, ih]
      · simp [hxa, hx, ih]

theorem zipIdx_eq_map_idxOf (hl : l.Nodup) : l.zipIdx = l.map fun x => (x, l.idxOf x) := by
  refine List.ext_getElem (by simp) fun i hi _ => ?_
  have hlt : i < l.length := by simpa using hi
  simp [hl.idxOf_getElem i hlt]

end Filter

/-! ### Known names -/

/-- Whether a name stands in both orders and belongs to a block. -/
def isKnown (blocks : List BlockFlow) (original new : List Text) (name : Text) : Bool :=
  original.contains name && new.contains name && (blocks.map BlockFlow.name).contains name

/-- The direction in which a name moves from one order to another. -/
def moveOf (original new : List Text) (name : Text) : Ordering :=
  compare (original.idxOf name) (new.idxOf name)

section KnownNames

variable {blocks : List BlockFlow} {original new : List Text} {name : Text}

theorem lastIndex?_of_nodup (ho : original.Nodup) (hmem : name ∈ original) :
    lastIndex? original name = some (original.idxOf name) := by
  rw [lastIndex?_eq_some_iff]
  refine ⟨List.getElem?_idxOf hmem, rfl, fun j n hj hn => ?_⟩
  obtain ⟨hlt, rfl⟩ := List.getElem?_eq_some_iff.1 hj
  rw [← hn, ho.idxOf_getElem j hlt]

/-- A known name has a place in the old order and one in the known part of it, with one block. -/
theorem exists_placed_of_isKnown (ho : original.Nodup)
    (h : isKnown blocks original new name = true) : ∃ b,
      placed? blocks original name = some ⟨b, original.idxOf name⟩ ∧
      placed? blocks (original.filter (isKnown blocks original new)) name =
        some ⟨b, (original.filter (isKnown blocks original new)).idxOf name⟩ := by
  have hparts := h
  simp only [isKnown, Bool.and_eq_true, List.contains_iff_mem] at hparts
  obtain ⟨⟨hmem, _⟩, hblock⟩ := hparts
  have hkept : name ∈ original.filter (isKnown blocks original new) := List.mem_filter.2 ⟨hmem, h⟩
  have hfound : (blocks.reverse.find? fun b => b.name == name).isSome = true := by
    rw [List.find?_isSome]
    simpa using hblock
  obtain ⟨b, hb⟩ := Option.isSome_iff_exists.1 hfound
  refine ⟨b, ?_, ?_⟩
  · rw [placed?, hb, lastIndex?_of_nodup ho hmem]
    rfl
  · rw [placed?, hb, lastIndex?_of_nodup (ho.filter _) hkept]
    rfl

theorem placed?_eq_none_of_unknown (hmem : name ∈ new)
    (h : isKnown blocks original new name = false) : placed? blocks original name = none := by
  refine Option.eq_none_iff_forall_ne_some.2 fun p hp => ?_
  obtain ⟨⟨i, hi, hname, _⟩, hold⟩ := placed?_eq_some_iff.1 hp
  have horiginal : name ∈ original := List.mem_of_getElem? hold.1
  have hblock : name ∈ blocks.map BlockFlow.name :=
    List.mem_map.2 ⟨p.block, List.mem_of_getElem? hi, hname⟩
  rw [isKnown, List.contains_iff_mem.2 horiginal, List.contains_iff_mem.2 hmem,
    List.contains_iff_mem.2 hblock] at h
  exact absurd h (by decide)

/-! ### Inverted pairs without unknown names -/

theorem orderInverted_iff_placed {producer consumer : BlockFlow} :
    OrderInverted blocks original new producer consumer ↔
      ∃ c p oldC oldP, Precedes new c p ∧ placed? blocks original c = some ⟨consumer, oldC⟩ ∧
        placed? blocks original p = some ⟨producer, oldP⟩ ∧ oldP < oldC := by
  simp only [OrderInverted, precedes_iff_getElem?, placed?_eq_some_iff]
  constructor
  · intro h
    obtain ⟨k, l, c, p, oldC, oldP, hkl, hc, hp, htc, htp, hold⟩ := h
    exact ⟨c, p, oldC, oldP, ⟨k, l, hkl, hc, hp⟩, htc, htp, hold⟩
  · intro h
    obtain ⟨c, p, oldC, oldP, ⟨k, l, hkl, hc, hp⟩, htc, htp, hold⟩ := h
    exact ⟨k, l, c, p, oldC, oldP, hkl, hc, hp, htc, htp, hold⟩

/-- Only known names make inverted pairs, and they make the same pairs alone. -/
theorem orderInverted_filter {producer consumer : BlockFlow} (ho : original.Nodup) :
    OrderInverted blocks original new producer consumer ↔
      OrderInverted blocks (original.filter (isKnown blocks original new))
        (new.filter (isKnown blocks original new)) producer consumer := by
  rw [orderInverted_iff_placed, orderInverted_iff_placed]
  constructor
  · intro h
    obtain ⟨c, p, oldC, oldP, hcp, hc, hp, hold⟩ := h
    have hknown : ∀ {m q}, m ∈ new → placed? blocks original m = some q →
        isKnown blocks original new m = true := by
      intro m q hmem hq
      by_contra hm
      rw [placed?_eq_none_of_unknown hmem (by simpa using hm)] at hq
      exact absurd hq (by simp)
    have hkc := hknown hcp.mem.1 hc
    have hkp := hknown hcp.mem.2 hp
    obtain ⟨b, hb, hb'⟩ := exists_placed_of_isKnown ho hkc
    obtain ⟨b', hp₁, hp₂⟩ := exists_placed_of_isKnown ho hkp
    obtain ⟨rfl, rfl⟩ := Placed.mk.inj (Option.some.inj (hc.symm.trans hb))
    obtain ⟨rfl, rfl⟩ := Placed.mk.inj (Option.some.inj (hp.symm.trans hp₁))
    exact ⟨c, p, _, _, (precedes_filter_iff hkc hkp).2 hcp, hb', hp₂,
      (idxOf_filter_lt_idxOf hkp hkc).2 hold⟩
  · intro h
    obtain ⟨c, p, oldC, oldP, hcp, hc, hp, hold⟩ := h
    have hkc := (List.mem_filter.1 hcp.mem.1).2
    have hkp := (List.mem_filter.1 hcp.mem.2).2
    obtain ⟨b, hb, hb'⟩ := exists_placed_of_isKnown ho hkc
    obtain ⟨b', hp₁, hp₂⟩ := exists_placed_of_isKnown ho hkp
    obtain ⟨rfl, rfl⟩ := Placed.mk.inj (Option.some.inj (hc.symm.trans hb'))
    obtain ⟨rfl, rfl⟩ := Placed.mk.inj (Option.some.inj (hp.symm.trans hp₂))
    exact ⟨c, p, _, _, (precedes_filter_iff hkc hkp).1 hcp, hb, hp₁,
      (idxOf_filter_lt_idxOf hkp hkc).1 hold⟩

/-! ### Hazards without unknown names -/

/-- Of the names that a name lets pass, the known ones alone have a block. -/
theorem passed_filter {ls : List Text} (name : Text) (before : Nat → Nat → Bool)
    (f : BlockFlow → Option Hazard) (ho : original.Nodup) (hls : ls ⊆ new)
    (hbefore : ∀ m, isKnown blocks original new m = true →
      before (original.idxOf name) (original.idxOf m) =
        before ((original.filter (isKnown blocks original new)).idxOf name)
          ((original.filter (isKnown blocks original new)).idxOf m)) :
    ((ls.filterMap (placed? blocks original)).filter fun q =>
        before (original.idxOf name) q.old).filterMap (fun q => f q.block) =
      (((ls.filter (isKnown blocks original new)).filterMap
        (placed? blocks (original.filter (isKnown blocks original new)))).filter fun q =>
          before ((original.filter (isKnown blocks original new)).idxOf name) q.old).filterMap
            fun q => f q.block := by
  rw [List.filterMap_filter, List.filterMap_filterMap, List.filterMap_filter,
    List.filterMap_filterMap]
  refine filterMap_filter_eq (fun m _ hm => ?_) fun m hmem hm => ?_
  · obtain ⟨b, hb, hb'⟩ := exists_placed_of_isKnown ho hm
    rw [hb, hb', Option.bind_some, Option.bind_some, hbefore m hm]
  · rw [placed?_eq_none_of_unknown (hls hmem) hm, Option.bind_none]

/-- The hazards seen from the place of a name in the new order. -/
def hazardsFrom (blocks : List BlockFlow) (original new : List Text) (name : Text) : List Hazard :=
  match placed? blocks original name with
  | none => []
  | some p =>
    placeHazards ((new.take (new.idxOf name)).filterMap (placed? blocks original))
      ((new.drop (new.idxOf name + 1)).filterMap (placed? blocks original)) (new.idxOf name) p

theorem orderHazards_eq_flatMap (hn : new.Nodup) :
    orderHazards blocks original new = new.flatMap (hazardsFrom blocks original new) := by
  rw [orderHazards, zipIdx_eq_map_idxOf hn, List.flatMap_map]
  rfl

theorem hazardsFrom_filter (ho : original.Nodup)
    (hname : isKnown blocks original new name = true)
    (hmove : moveOf original new name = moveOf (original.filter (isKnown blocks original new))
      (new.filter (isKnown blocks original new)) name) :
    hazardsFrom blocks original new name =
      hazardsFrom blocks (original.filter (isKnown blocks original new))
        (new.filter (isKnown blocks original new)) name := by
  obtain ⟨b, hb, hb'⟩ := exists_placed_of_isKnown ho hname
  have hdown := congrArg (· = Ordering.lt) hmove
  have hup := congrArg (· = Ordering.gt) hmove
  simp only [moveOf, Nat.compare_eq_lt, Nat.compare_eq_gt, eq_iff_iff] at hdown hup
  have hbehind := passed_filter name (fun i j => decide (i < j)) b.missedBy ho
    (List.take_subset (new.idxOf name) new)
    fun m hm => decide_eq_decide.2 (idxOf_filter_lt_idxOf hname hm).symm
  have hahead := passed_filter name (fun i j => decide (j < i)) b.misses ho
    (List.drop_subset (new.idxOf name + 1) new)
    fun m hm => decide_eq_decide.2 (idxOf_filter_lt_idxOf hm hname).symm
  rw [filter_take_idxOf hname] at hbehind
  rw [filter_drop_idxOf hname] at hahead
  simp only [hazardsFrom, hb, hb', placeHazards, hdown, hup, hbehind, hahead]

theorem orderHazards_filter (ho : original.Nodup) (hn : new.Nodup)
    (hmove : ∀ name, isKnown blocks original new name = true →
      moveOf original new name = moveOf (original.filter (isKnown blocks original new))
        (new.filter (isKnown blocks original new)) name) :
    orderHazards blocks original new =
      orderHazards blocks (original.filter (isKnown blocks original new))
        (new.filter (isKnown blocks original new)) := by
  rw [orderHazards_eq_flatMap hn, orderHazards_eq_flatMap (hn.filter _)]
  refine flatMap_filter_eq (fun name _ hname => hazardsFrom_filter ho hname (hmove name hname))
    fun name hmem hname => ?_
  rw [hazardsFrom, placed?_eq_none_of_unknown hmem hname]

end KnownNames

/-- Without the names that are missing from an order or from the text, the check of a new order
reports the same blocks and variables. It reports the same hazards, in the same order and with the
same directions, when each of the other names moves in the same direction as before. -/
theorem checkReorder_knownNames (s : Text) {original new : List Text} (ho : original.Nodup)
    (hn : new.Nodup) :
    let known := isKnown (BlockFlow.ofText s) original new
    (∀ block names,
      (∃ d, (⟨block, names, d⟩ : Hazard) ∈ checkReorder s original new) ↔
        ∃ d, (⟨block, names, d⟩ : Hazard) ∈
          checkReorder s (original.filter known) (new.filter known)) ∧
    ((∀ name, known name = true →
        moveOf original new name = moveOf (original.filter known) (new.filter known) name) →
      checkReorder s original new = checkReorder s (original.filter known) (new.filter known)) := by
  intro known
  constructor
  · intro block names
    rw [exists_mem_checkReorder_iff, exists_mem_checkReorder_iff]
    simp only [orderInverted_filter ho, known]
  · intro hmove
    rw [checkReorder_eq, checkReorder_eq, orderHazards_filter ho hn hmove]

def greeting : Text :=
  "<!-- @block:a -->$x = 1;<!-- @endblock:a -->\n".toList ++
  "<!-- @block:b -->$x;<!-- @endblock:b -->".toList

theorem isKnown_greeting (original new : List Text) :
    isKnown (BlockFlow.ofText greeting) original new = fun name =>
      original.contains name && new.contains name && ["a".toList, "b".toList].contains name := by
  have hnames : (BlockFlow.ofText greeting).map BlockFlow.name = ["a".toList, "b".toList] := by cbv
  funext name
  rw [isKnown, hnames]

/-- The name of no block stands between the blocks in the new order. -/
theorem checkReorder_knownNames_between :
    let original := ["c".toList, "a".toList, "b".toList]
    let new := ["b".toList, "c".toList, "a".toList]
    let known := isKnown (BlockFlow.ofText greeting) original new
    original.Nodup ∧ new.Nodup ∧
    (∀ name, known name = true →
      moveOf original new name = moveOf (original.filter known) (new.filter known) name) ∧
    checkReorder greeting original new =
      checkReorder greeting (original.filter known) (new.filter known) := by
  intro original new known
  have ho : original.Nodup := by decide
  have hn : new.Nodup := by decide
  have hmove : ∀ name, known name = true →
      moveOf original new name = moveOf (original.filter known) (new.filter known) name := by
    have hnames : ∀ name ∈ original, known name = true →
        moveOf original new name = moveOf (original.filter known) (new.filter known) name := by
      simp only [known, isKnown_greeting]
      decide
    intro name hname
    refine hnames name ?_ hname
    rw [← List.contains_iff_mem]
    exact (Bool.and_eq_true_iff.1 (Bool.and_eq_true_iff.1 hname).1).1
  exact ⟨ho, hn, hmove, (checkReorder_knownNames greeting ho hn).2 hmove⟩

/-- An unknown name in front of both blocks in the old order hides that the first one moves behind
the second, so that the hazard is seen from the second one only. -/
theorem checkReorder_unknownName_shifts :
    let original := ["c".toList, "a".toList, "b".toList]
    let new := ["b".toList, "a".toList]
    let known := isKnown (BlockFlow.ofText greeting) original new
    original.Nodup ∧ new.Nodup ∧
    checkReorder greeting original new = [⟨"b".toList, ["x".toList], .providesDefinitions⟩] ∧
    checkReorder greeting (original.filter known) (new.filter known) =
      [⟨"b".toList, ["x".toList], .providesDefinitions⟩,
        ⟨"b".toList, ["x".toList], .losesDefinitions⟩] := by
  intro original new known
  have hkept : original.filter known = ["a".toList, "b".toList] ∧
      new.filter known = ["b".toList, "a".toList] := by
    simp only [known, isKnown_greeting]
    decide
  rw [hkept.1, hkept.2]
  exact ⟨by decide, by decide, by cbv, by cbv⟩

end TemplateBlocks
