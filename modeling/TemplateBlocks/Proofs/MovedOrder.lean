import Mathlib
import TemplateBlocks.Proofs.MoveHazards
import TemplateBlocks.Proofs.OrderHazards

/-!
# A move as a new order

A move gives the names of the blocks a new order (`movedNames`). The check of the move and the
check of that order find the same blocks and variables, when no two blocks share a name
(`checkMove_agrees_checkReorder`): both report the pairs of blocks that change places.
-/

namespace TemplateBlocks

/-! ### One element before another -/

section Positions

variable {α β : Type}

/-- A map that keeps two elements apart from all others keeps their order. -/
theorem precedes_map_iff {f : α → β} {l : List α} {a b : α} (ha : ∀ x ∈ l, f x = f a → x = a)
    (hb : ∀ x ∈ l, f x = f b → x = b) : Precedes (l.map f) (f a) (f b) ↔ Precedes l a b := by
  induction l with
  | nil => simp
  | cons x l ih =>
    obtain ⟨hax, hal⟩ := List.forall_mem_cons.1 ha
    obtain ⟨_, hbl⟩ := List.forall_mem_cons.1 hb
    have hhead : f a = f x ↔ a = x := ⟨fun h => (hax h.symm).symm, fun h => h ▸ rfl⟩
    have hmem : f b ∈ l.map f ↔ b ∈ l := by
      rw [List.mem_map]
      constructor
      · intro h
        obtain ⟨y, hy, heq⟩ := h
        exact hbl y hy heq ▸ hy
      · intro h
        exact ⟨b, h, rfl⟩
    rw [List.map_cons, precedes_cons, precedes_cons, ih hal hbl, hhead, hmem]

end Positions

/-! ### The names after a move -/

/-- The names with `moved` taken out and put back right behind `after`, or at the head when `after`
is empty. A name that is put behind itself stays where it is. -/
def movedNames (moved after : Text) (names : List Text) : List Text :=
  let others := names.filter (· ≠ moved)
  if after = moved then names
  else if after = [] then moved :: others
  else others.flatMap fun n => if n = after then [n, moved] else [n]

theorem flatMap_behind_of_not_mem {moved after : Text} {names : List Text} (h : after ∉ names) :
    (names.flatMap fun n => if n = after then [n, moved] else [n]) = names := by
  induction names with
  | nil => rfl
  | cons n names ih =>
    rw [List.mem_cons, not_or] at h
    have hn : n ≠ after := fun heq => h.1 heq.symm
    rw [List.flatMap_cons, if_neg hn, ih h.2, List.singleton_append]

/-- The names before the gap and the names behind it keep their order around the moved one. -/
theorem movedNames_eq_append {moved after : Text} {names : List Text} {t : Nat}
    (hnodup : names.Nodup) (hne : after ≠ moved)
    (ht : (after = [] ∧ t = 0) ∨ (after ≠ [] ∧ ∃ j, names[j]? = some after ∧ t = j + 1)) :
    movedNames moved after names =
      (names.take t).filter (· ≠ moved) ++ moved :: (names.drop t).filter (· ≠ moved) := by
  rw [movedNames, if_neg hne]
  rcases ht with ⟨hempty, rfl⟩ | ⟨hsome, j, hj, rfl⟩
  · simp [hempty]
  · obtain ⟨hlt, hget⟩ := List.getElem?_eq_some_iff.1 hj
    have hsplit : names = names.take j ++ after :: names.drop (j + 1) := by
      rw [← hget, List.getElem_cons_drop hlt, List.take_append_drop]
    have htake : names.take (j + 1) = names.take j ++ [after] := by
      rw [List.take_succ_eq_append_getElem hlt, hget]
    have hapart := hnodup
    rw [hsplit, List.nodup_middle, List.nodup_cons, List.mem_append, not_or] at hapart
    have hbefore : after ∉ (names.take j).filter (· ≠ moved) := fun h =>
      hapart.1.1 (List.mem_of_mem_filter h)
    have hbehind : after ∉ (names.drop (j + 1)).filter (· ≠ moved) := fun h =>
      hapart.1.2 (List.mem_of_mem_filter h)
    have hothers : names.filter (· ≠ moved) = (names.take j).filter (· ≠ moved) ++
        after :: (names.drop (j + 1)).filter (· ≠ moved) := by
      conv_lhs => rw [hsplit]
      simp [hne]
    rw [if_neg hsome, hothers, List.flatMap_append, List.flatMap_cons, if_pos rfl,
      flatMap_behind_of_not_mem hbefore, flatMap_behind_of_not_mem hbehind, htake,
      List.filter_append]
    simp [hne]

/-- The names after a move stand in the order that the move gives to their indices. -/
theorem map_movedOrder {moved after : Text} {names : List Text} {i t : Nat}
    (hnodup : names.Nodup) (hi : names[i]? = some moved) (hle : t ≤ names.length)
    (hne : after ≠ moved)
    (ht : (after = [] ∧ t = 0) ∨ (after ≠ [] ∧ ∃ j, names[j]? = some after ∧ t = j + 1)) :
    (movedOrder names.length i t).map (fun j => names[j]?.getD []) =
      movedNames moved after names := by
  obtain ⟨hilt, hget⟩ := List.getElem?_eq_some_iff.1 hi
  have hmoved : ∀ j < names.length, names[j]?.getD [] ≠ moved ↔ j ≠ i := by
    intro j hj
    rw [List.getElem?_eq_getElem hj, Option.getD_some, ← hget, ne_eq, hnodup.getElem_inj_iff]
  have htake : (List.range t).map (fun j => names[j]?.getD []) = names.take t := by
    refine List.ext_getElem (by simp [hle]) fun k hk _ => ?_
    have hkt : k < names.length := by
      simp only [List.length_map, List.length_range] at hk
      omega
    simp [List.getElem?_eq_getElem hkt]
  have hdrop : (List.range' t (names.length - t)).map (fun j => names[j]?.getD []) =
      names.drop t := by
    refine List.ext_getElem (by simp) fun k hk _ => ?_
    have hkt : t + k < names.length := by
      simp only [List.length_map, List.length_range'] at hk
      omega
    simp [List.getElem?_eq_getElem hkt]
  have hfilter : ∀ is : List Nat, (∀ j ∈ is, j < names.length) →
      (is.filter (· ≠ i)).map (fun j => names[j]?.getD []) =
        (is.map fun j => names[j]?.getD []).filter (· ≠ moved) := by
    intro is his
    rw [List.filter_map]
    congr 1
    refine List.filter_congr fun j hj => ?_
    simp only [Function.comp_apply, decide_eq_decide]
    exact (hmoved j (his j hj)).symm
  rw [movedNames_eq_append hnodup hne ht, movedOrder, List.map_append, List.map_cons,
    hfilter _ fun j hj => by rw [List.mem_range] at hj; omega,
    hfilter _ fun j hj => by rw [List.mem_range'_1] at hj; omega, htake, hdrop, hi]
  rfl

/-! ### Inverted names and inverted indices -/

section Distinct

variable {blocks : List BlockFlow} {producer consumer : BlockFlow}

theorem getElem?_map_name {i : Nat} {b : BlockFlow} (h : blocks[i]? = some b) :
    (blocks.map BlockFlow.name)[i]? = some b.name := by
  rw [List.getElem?_map, h, Option.map_some]

theorem index_eq_of_getElem? {names : List Text} (hnodup : names.Nodup) {i j : Nat} {n : Text}
    (hi : names[i]? = some n) (hj : names[j]? = some n) : i = j :=
  (List.getElem?_inj (List.getElem?_eq_some_iff.1 hi).1 hnodup).1 (hi.trans hj.symm)

theorem index_eq_of_name (hnodup : (blocks.map BlockFlow.name).Nodup) {i j : Nat}
    {a b : BlockFlow} (hi : blocks[i]? = some a) (hj : blocks[j]? = some b)
    (hname : a.name = b.name) : i = j :=
  index_eq_of_getElem? hnodup (getElem?_map_name hi) (hname ▸ getElem?_map_name hj)

/-- Among distinct names, a name is tracked to the one block that has it. -/
theorem tracked_iff_of_nodup (hnodup : (blocks.map BlockFlow.name).Nodup) {name : Text}
    {b : BlockFlow} {old : Nat} :
    Tracked blocks (blocks.map BlockFlow.name) name b old ↔
      blocks[old]? = some b ∧ b.name = name := by
  constructor
  · intro h
    obtain ⟨⟨i, hi, hname, _⟩, hold, _, _⟩ := h
    have hio : i = old := index_eq_of_getElem? hnodup (hname ▸ getElem?_map_name hi) hold
    exact ⟨hio ▸ hi, hname⟩
  · intro h
    obtain ⟨hold, rfl⟩ := h
    refine ⟨⟨old, hold, rfl, fun j a hj ha => ?_⟩, getElem?_map_name hold, rfl, fun j n hj hn => ?_⟩
    · exact Nat.le_of_eq (index_eq_of_name hnodup hj hold ha)
    · obtain ⟨a, ha, rfl⟩ := Option.map_eq_some_iff.1 (List.getElem?_map .. ▸ hj)
      exact Nat.le_of_eq (index_eq_of_name hnodup ha hold hn)

theorem orderInverted_iff_of_nodup (hnodup : (blocks.map BlockFlow.name).Nodup)
    {new : List Text} :
    OrderInverted blocks (blocks.map BlockFlow.name) new producer consumer ↔
      ∃ p c : Nat, blocks[p]? = some producer ∧ blocks[c]? = some consumer ∧ p < c ∧
        Precedes new consumer.name producer.name := by
  simp only [OrderInverted, tracked_iff_of_nodup hnodup, precedes_iff_getElem?]
  constructor
  · intro h
    obtain ⟨k, l, _, _, oldC, oldP, hkl, hk, hl, ⟨hc, rfl⟩, ⟨hp, rfl⟩, hold⟩ := h
    exact ⟨oldP, oldC, hp, hc, hold, k, l, hkl, hk, hl⟩
  · intro h
    obtain ⟨p, c, hp, hc, hpc, k, l, hkl, hk, hl⟩ := h
    exact ⟨k, l, _, _, c, p, hkl, hk, hl, ⟨hc, rfl⟩, ⟨hp, rfl⟩, hpc⟩

/-- The order in which the blocks stand inverts no pair of them. -/
theorem not_orderInverted_self (hnodup : (blocks.map BlockFlow.name).Nodup) :
    ¬ OrderInverted blocks (blocks.map BlockFlow.name) (blocks.map BlockFlow.name) producer
      consumer := by
  rw [orderInverted_iff_of_nodup hnodup]
  intro h
  obtain ⟨p, c, hp, hc, hpc, hprec⟩ := h
  obtain ⟨k, l, hkl, hk, hl⟩ := precedes_iff_getElem?.1 hprec
  have hck := index_eq_of_getElem? hnodup hk (getElem?_map_name hc)
  have hpl := index_eq_of_getElem? hnodup hl (getElem?_map_name hp)
  omega

theorem inverted_iff_orderInverted (hnodup : (blocks.map BlockFlow.name).Nodup) {i t : Nat}
    {new : List Text} (hi : i < blocks.length) (ht : t ≤ blocks.length)
    (hnew : (movedOrder blocks.length i t).map
      (fun j => (blocks.map BlockFlow.name)[j]?.getD []) = new) :
    Inverted blocks (movedOrder blocks.length i t) producer consumer ↔
      OrderInverted blocks (blocks.map BlockFlow.name) new producer consumer := by
  have hlt : ∀ x ∈ movedOrder blocks.length i t, x < blocks.length := by
    intro x hx
    simp only [movedOrder, List.mem_append, List.mem_cons, List.mem_filter, List.mem_range,
      List.mem_range'_1] at hx
    omega
  have hinj : ∀ {a : Nat} {b : BlockFlow}, blocks[a]? = some b →
      (blocks.map BlockFlow.name)[a]?.getD [] = b.name ∧
        ∀ x ∈ movedOrder blocks.length i t, (blocks.map BlockFlow.name)[x]?.getD [] =
          (blocks.map BlockFlow.name)[a]?.getD [] → x = a := by
    intro a b ha
    refine ⟨by rw [getElem?_map_name ha, Option.getD_some], fun x hx heq => ?_⟩
    have hxb := List.getElem?_eq_getElem (hlt x hx)
    rw [getElem?_map_name ha, getElem?_map_name hxb, Option.getD_some, Option.getD_some] at heq
    exact index_eq_of_name hnodup hxb ha heq
  rw [orderInverted_iff_of_nodup hnodup, Inverted, ← hnew]
  refine exists_congr fun p => exists_congr fun c => and_congr_right fun hp =>
    and_congr_right fun hc => and_congr_right fun _ => ?_
  rw [← (hinj hp).1, ← (hinj hc).1, precedes_map_iff (hinj hc).2 (hinj hp).2]

end Distinct

/-! ### The two checks -/

/-- The check of a move and the check of the order that the move gives to the names report the same
blocks and variables, when the names of the blocks are distinct. -/
theorem checkMove_agrees_checkReorder {s moved after : Text}
    (hnodup : ((BlockFlow.ofText s).map BlockFlow.name).Nodup)
    (hmoved : moved ∈ (BlockFlow.ofText s).map BlockFlow.name)
    (hafter : after = [] ∨ after ∈ (BlockFlow.ofText s).map BlockFlow.name)
    (block : Text) (names : List Text) :
    (∃ d, (⟨block, names, d⟩ : Hazard) ∈ checkMove s moved after) ↔
      ∃ d, (⟨block, names, d⟩ : Hazard) ∈ checkReorder s
        ((BlockFlow.ofText s).map BlockFlow.name)
        (movedNames moved after ((BlockFlow.ofText s).map BlockFlow.name)) := by
  rw [exists_mem_checkReorder_iff]
  by_cases hne : after = moved
  · rw [checkMove_eq_nil (.inr (.inr (.inr hne))), movedNames, if_pos hne]
    constructor
    · intro h
      obtain ⟨d, hd⟩ := h
      exact absurd hd List.not_mem_nil
    · intro h
      obtain ⟨producer, consumer, hinv, _⟩ := h
      exact absurd hinv (not_orderInverted_self hnodup)
  · have hfirst : ∀ {name}, name ∈ (BlockFlow.ofText s).map BlockFlow.name →
        ∃ j b, FirstAt (·.name = name) (BlockFlow.ofText s) j b := by
      intro name h
      obtain ⟨b, hb, rfl⟩ := List.mem_map.1 h
      obtain ⟨j, hj⟩ := List.mem_iff_getElem?.1 hb
      exact ⟨j, b, hj, rfl, fun k a hk ha => Nat.le_of_eq (index_eq_of_name hnodup hj hk ha.symm)⟩
    obtain ⟨i, mover, hi⟩ := hfirst hmoved
    have hfrom : MovesFrom (BlockFlow.ofText s) moved i := ⟨mover, hi⟩
    obtain ⟨t, hto⟩ : ∃ t, MovesTo (BlockFlow.ofText s) after t := by
      rcases hafter with hempty | hmem
      · exact ⟨0, .inl ⟨hempty, rfl⟩⟩
      · by_cases hempty : after = []
        · exact ⟨0, .inl ⟨hempty, rfl⟩⟩
        · obtain ⟨j, b, hj⟩ := hfirst hmem
          exact ⟨j + 1, .inr ⟨hempty, j, b, hj, rfl⟩⟩
    have hgap : (after = [] ∧ t = 0) ∨ (after ≠ [] ∧
        ∃ j, ((BlockFlow.ofText s).map BlockFlow.name)[j]? = some after ∧ t = j + 1) := by
      refine hto.imp_right fun ⟨hsome, j, b, hj, ht⟩ => ⟨hsome, j, ?_, ht⟩
      rw [getElem?_map_name hj.1, hj.2.1]
    have hget : ((BlockFlow.ofText s).map BlockFlow.name)[i]? = some moved := by
      rw [getElem?_map_name hi.1, hi.2.1]
    have horder := map_movedOrder hnodup hget (by simpa using hto.le_length) hne hgap
    rw [List.length_map] at horder
    simp only [checkMove_eq_of_moves hfrom hto hne, List.mem_eraseDups]
    rw [exists_mem_moveHazards_iff hi.1]
    simp only [inverted_iff_orderInverted hnodup hfrom.lt_length hto.le_length horder]

def chainOfUses : Text :=
  "<!-- @block:a -->$x = 1;<!-- @endblock:a -->\n".toList ++
  "<!-- @block:b -->$y = $x;<!-- @endblock:b -->\n".toList ++
  "<!-- @block:c -->$x + $y;<!-- @endblock:c -->".toList

set_option maxRecDepth 1000 in
/-- The last block goes to the front, and crosses both blocks that it depends on. -/
theorem checkMove_agrees_checkReorder_front :
    ((BlockFlow.ofText chainOfUses).map BlockFlow.name).Nodup ∧
    "c".toList ∈ (BlockFlow.ofText chainOfUses).map BlockFlow.name ∧
    ∃ d, (⟨"c".toList, ["y".toList], d⟩ : Hazard) ∈ checkReorder chainOfUses
      ["a".toList, "b".toList, "c".toList] ["c".toList, "a".toList, "b".toList] := by
  have hnames : (BlockFlow.ofText chainOfUses).map BlockFlow.name =
      ["a".toList, "b".toList, "c".toList] := by cbv
  have hmove : checkMove chainOfUses "c".toList [] =
      [⟨"c".toList, ["x".toList], .providesDefinitions⟩,
        ⟨"c".toList, ["y".toList], .providesDefinitions⟩] := by cbv
  have hnodup : ((BlockFlow.ofText chainOfUses).map BlockFlow.name).Nodup := by
    rw [hnames]
    decide
  have hmem : "c".toList ∈ (BlockFlow.ofText chainOfUses).map BlockFlow.name := by
    rw [hnames]
    decide
  have hagree := (checkMove_agrees_checkReorder hnodup hmem (.inl rfl) "c".toList
    ["y".toList]).1 ⟨.providesDefinitions, by rw [hmove]; simp⟩
  rw [hnames] at hagree
  exact ⟨hnodup, hmem, hagree⟩

end TemplateBlocks
