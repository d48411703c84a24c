import TemplateBlocks.Proofs.Inversion

/-!
# The hazards of a new order

A new order is reported exactly by its inverted pairs: two names of which the later one in
the new order had the smaller index in the old one. The check looks at each name from its
own place, and only when its index has changed. Every inverted pair is seen from one of its
two sides at least, because two names that keep or exceed their indices on the wrong side of
each other would need more places than there are between them.
-/

namespace TemplateBlocks

/-! ### Names that both orders and the text know -/

/-- The name belongs to a block of the text, the last with the name, and `old` is its last
index in the old order. -/
def Tracked (blocks : List BlockFlow) (original : List Text) (name : Text) (block : BlockFlow)
    (old : Nat) : Prop :=
  (∃ i, LastAt (·.name = name) blocks i block) ∧ LastAt (· = name) original old name

theorem Tracked.name_eq {blocks : List BlockFlow} {original : List Text} {name : Text}
    {block : BlockFlow} {old : Nat} (h : Tracked blocks original name block old) :
    block.name = name := by
  obtain ⟨⟨i, hi⟩, _⟩ := h
  exact hi.2.1

theorem Tracked.old_unique {blocks : List BlockFlow} {original : List Text} {name : Text}
    {block block' : BlockFlow} {old old' : Nat} (h : Tracked blocks original name block old)
    (h' : Tracked blocks original name block' old') : old = old' := by
  have hle := h'.2.2.2 old name h.2.1 rfl
  have hge := h.2.2.2 old' name h'.2.1 rfl
  omega

theorem lastAt_zipIdx_iff {order : List Text} {name : Text} {j : Nat} {e : Text × Nat} :
    LastAt (·.1 = name) order.zipIdx j e ↔ LastAt (· = name) order j name ∧ e = (name, j) := by
  have hget (k : Nat) (n : Text) (m : Nat) :
      order.zipIdx[k]? = some (n, m) ↔ order[k]? = some n ∧ m = k := by
    simp [List.getElem?_zipIdx, eq_comm]
  obtain ⟨n, m⟩ := e
  constructor
  · intro h
    obtain ⟨hj, rfl, hlast⟩ := h
    obtain ⟨hn, rfl⟩ := (hget j n m).1 hj
    refine ⟨⟨hn, rfl, fun k b hk hb => ?_⟩, rfl⟩
    exact hlast k (b, k) ((hget k b k).2 ⟨hk, rfl⟩) hb
  · intro h
    obtain ⟨⟨hj, _, hlast⟩, heq⟩ := h
    obtain ⟨rfl, rfl⟩ := Prod.mk.injEq .. ▸ heq
    refine ⟨(hget m n m).2 ⟨hj, rfl⟩, rfl, fun k e hk he => ?_⟩
    exact hlast k e.1 ((hget k e.1 e.2).1 hk).1 he

theorem lastIndex?_eq_some_iff {order : List Text} {name : Text} {i : Nat} :
    lastIndex? order name = some i ↔ LastAt (· = name) order i name := by
  unfold lastIndex?
  rw [Option.map_eq_some_iff]
  simp only [find?_reverse_eq_some_iff_lastAt, beq_iff_eq, lastAt_zipIdx_iff]
  constructor
  · intro h
    obtain ⟨e, ⟨j, hj, rfl⟩, rfl⟩ := h
    exact hj
  · intro h
    exact ⟨(name, i), ⟨i, h, rfl⟩, rfl⟩

theorem placed?_eq_some_iff {blocks : List BlockFlow} {original : List Text} {name : Text}
    {p : Placed} :
    placed? blocks original name = some p ↔ Tracked blocks original name p.block p.old := by
  have hblock (b : BlockFlow) : (blocks.reverse.find? fun b => b.name == name) = some b ↔
      ∃ i, LastAt (·.name = name) blocks i b := by
    rw [find?_reverse_eq_some_iff_lastAt]
    simp only [beq_iff_eq]
  constructor
  · intro h
    obtain ⟨b, hb, h⟩ := Option.bind_eq_some_iff.1 h
    obtain ⟨old, hold, h⟩ := Option.bind_eq_some_iff.1 h
    simp only [Option.pure_def, Option.some.injEq] at h
    subst h
    exact ⟨(hblock b).1 hb, lastIndex?_eq_some_iff.1 hold⟩
  · intro h
    obtain ⟨hb, hold⟩ := h
    simp [placed?, (hblock p.block).2 hb, lastIndex?_eq_some_iff.2 hold]

/-! ### The hazards seen from one place -/

def PlacedAt (place : Text → Option Placed) (new : List Text) (k : Nat) (p : Placed) : Prop :=
  ∃ name, new[k]? = some name ∧ place name = some p

theorem mem_filterMap_take_iff {place : Text → Option Placed} {new : List Text} {k : Nat}
    {q : Placed} :
    q ∈ (new.take k).filterMap place ↔ ∃ j, j < k ∧ PlacedAt place new j q := by
  rw [List.mem_filterMap]
  constructor
  · intro h
    obtain ⟨name, hname, hq⟩ := h
    obtain ⟨j, hj, hjk⟩ := mem_take_iff.1 hname
    exact ⟨j, hjk, name, hj, hq⟩
  · intro h
    obtain ⟨j, hjk, name, hj, hq⟩ := h
    exact ⟨name, mem_take_iff.2 ⟨j, hj, hjk⟩, hq⟩

theorem mem_filterMap_drop_iff {place : Text → Option Placed} {new : List Text} {k : Nat}
    {q : Placed} :
    q ∈ (new.drop k).filterMap place ↔ ∃ j, k ≤ j ∧ PlacedAt place new j q := by
  rw [List.mem_filterMap]
  constructor
  · intro h
    obtain ⟨name, hname, hq⟩ := h
    obtain ⟨j, hj, hkj⟩ := mem_drop_iff.1 hname
    exact ⟨j, hkj, name, hj, hq⟩
  · intro h
    obtain ⟨j, hkj, name, hj, hq⟩ := h
    exact ⟨name, mem_drop_iff.2 ⟨j, hj, hkj⟩, hq⟩

theorem mem_placeHazards_iff {before behind : List Placed} {k : Nat} {p : Placed} {h : Hazard} :
    h ∈ placeHazards before behind k p ↔
      (p.old < k ∧ ∃ q ∈ before, p.old < q.old ∧ p.block.missedBy q.block = some h) ∨
        (k < p.old ∧ ∃ q ∈ behind, q.old < p.old ∧ p.block.misses q.block = some h) := by
  unfold placeHazards
  by_cases hdown : p.old < k
  · have hup : ¬ k < p.old := by omega
    simp [hdown, hup, and_assoc]
  · by_cases hup : k < p.old
    · simp [hdown, hup, and_assoc]
    · simp [hdown, hup]

/-! ### Inverted pairs -/

/-- The producer stands behind the consumer in the new order, at some pair of places, and stood
before it in the old one. -/
def OrderInverted (blocks : List BlockFlow) (original new : List Text)
    (producer consumer : BlockFlow) : Prop :=
  ∃ (k l : Nat) (c p : Text) (oldC oldP : Nat), k < l ∧ new[k]? = some c ∧ new[l]? = some p ∧
    Tracked blocks original c consumer oldC ∧ Tracked blocks original p producer oldP ∧ oldP < oldC

theorem orderInverted_iff {blocks : List BlockFlow} {original new : List Text}
    {producer consumer : BlockFlow} :
    OrderInverted blocks original new producer consumer ↔
      ∃ k l oldC oldP, k < l ∧ PlacedAt (placed? blocks original) new k ⟨consumer, oldC⟩ ∧
        PlacedAt (placed? blocks original) new l ⟨producer, oldP⟩ ∧ oldP < oldC := by
  simp only [PlacedAt, placed?_eq_some_iff]
  constructor
  · intro h
    obtain ⟨k, l, c, p, oldC, oldP, hkl, hc, hp, htc, htp, hold⟩ := h
    exact ⟨k, l, oldC, oldP, hkl, ⟨c, hc, htc⟩, ⟨p, hp, htp⟩, hold⟩
  · intro h
    obtain ⟨k, l, oldC, oldP, hkl, ⟨c, hc, htc⟩, ⟨p, hp, htp⟩, hold⟩ := h
    exact ⟨k, l, c, p, oldC, oldP, hkl, hc, hp, htc, htp, hold⟩

theorem OrderInverted.two_le_length {blocks : List BlockFlow} {original new : List Text}
    {producer consumer : BlockFlow} (h : OrderInverted blocks original new producer consumer) :
    2 ≤ blocks.length := by
  obtain ⟨k, l, c, p, oldC, oldP, _, _, _, htc, htp, hold⟩ := h
  obtain ⟨i, hi⟩ := htc.1
  obtain ⟨j, hj⟩ := htp.1
  have hne : i ≠ j := by
    intro heq
    subst heq
    obtain rfl : consumer = producer := Option.some.inj (hi.1.symm.trans hj.1)
    obtain rfl : c = p := htc.name_eq.symm.trans htp.name_eq
    have heq := htc.old_unique htp
    omega
  have hilt := (List.getElem?_eq_some_iff.1 hi.1).1
  have hjlt := (List.getElem?_eq_some_iff.1 hj.1).1
  omega

def orderHazards (blocks : List BlockFlow) (original new : List Text) : List Hazard :=
  new.zipIdx.flatMap fun (name, k) =>
    match placed? blocks original name with
    | none => []
    | some p =>
      placeHazards ((new.take k).filterMap (placed? blocks original))
        ((new.drop (k + 1)).filterMap (placed? blocks original)) k p

theorem checkReorder_eq (s : Text) (original new : List Text) :
    checkReorder s original new =
      if (BlockFlow.ofText s).length < 2 then []
      else (orderHazards (BlockFlow.ofText s) original new).eraseDups := rfl

theorem mem_orderHazards_iff {blocks : List BlockFlow} {original new : List Text} {h : Hazard} :
    h ∈ orderHazards blocks original new ↔
      ∃ k p, PlacedAt (placed? blocks original) new k p ∧
        h ∈ placeHazards ((new.take k).filterMap (placed? blocks original))
          ((new.drop (k + 1)).filterMap (placed? blocks original)) k p := by
  unfold orderHazards PlacedAt
  rw [List.mem_flatMap]
  constructor
  · intro h
    obtain ⟨⟨name, k⟩, hmem, hh⟩ := h
    have hname := List.mem_zipIdx_iff_getElem?.1 hmem
    cases hp : placed? blocks original name with
    | none => simp [hp] at hh
    | some p =>
      simp only [hp] at hh
      exact ⟨k, p, ⟨name, hname, hp⟩, hh⟩
  · intro h
    obtain ⟨k, p, ⟨name, hname, hp⟩, hh⟩ := h
    refine ⟨(name, k), List.mem_zipIdx_iff_getElem?.2 hname, ?_⟩
    simp only [hp]
    exact hh

theorem exists_mem_orderHazards_iff {blocks : List BlockFlow} {original new : List Text}
    {block : Text} {names : List Text} :
    (∃ d, (⟨block, names, d⟩ : Hazard) ∈ orderHazards blocks original new) ↔
      ∃ producer consumer, OrderInverted blocks original new producer consumer ∧
        block = consumer.name ∧ names = producer.supplies consumer ∧ names ≠ [] := by
  simp only [mem_orderHazards_iff, mem_placeHazards_iff, mem_filterMap_take_iff,
    mem_filterMap_drop_iff, orderInverted_iff]
  constructor
  · intro h
    obtain ⟨d, k, p, hp, ⟨_, q, ⟨j, hjk, hq⟩, hold, hh⟩ | ⟨_, q, ⟨j, hkj, hq⟩, hold, hh⟩⟩ := h
    · obtain ⟨hne, heq⟩ := BlockFlow.missedBy_eq_some_iff.1 hh
      cases heq
      exact ⟨p.block, q.block, ⟨j, k, q.old, p.old, hjk, hq, hp, hold⟩, rfl, rfl, hne⟩
    · obtain ⟨hne, heq⟩ := BlockFlow.misses_eq_some_iff.1 hh
      cases heq
      exact ⟨q.block, p.block, ⟨k, j, p.old, q.old, by omega, hp, hq, hold⟩, rfl, rfl, hne⟩
  · intro h
    obtain ⟨producer, consumer, ⟨k, l, oldC, oldP, hkl, hc, hp, hold⟩, rfl, rfl, hne⟩ := h
    -- if neither side has changed its index towards the other, then l ≤ oldP < oldC ≤ k
    by_cases hdown : oldP < l
    · refine ⟨.losesDefinitions, l, ⟨producer, oldP⟩, hp, .inl ⟨hdown, ?_⟩⟩
      exact ⟨⟨consumer, oldC⟩, ⟨k, hkl, hc⟩, hold, BlockFlow.missedBy_eq_some_iff.2 ⟨hne, rfl⟩⟩
    · have hup : k < oldC := by omega
      refine ⟨.providesDefinitions, k, ⟨consumer, oldC⟩, hc, .inr ⟨hup, ?_⟩⟩
      exact ⟨⟨producer, oldP⟩, ⟨l, hkl, hp⟩, hold, BlockFlow.misses_eq_some_iff.2 ⟨hne, rfl⟩⟩

theorem checkReorder_nodup (s : Text) (original new : List Text) :
    (checkReorder s original new).Nodup := by
  rw [checkReorder_eq]
  split
  · exact List.nodup_nil
  · exact nodup_eraseDups _

theorem exists_mem_checkReorder_iff {s : Text} {original new : List Text} {block : Text}
    {names : List Text} :
    (∃ d, (⟨block, names, d⟩ : Hazard) ∈ checkReorder s original new) ↔
      ∃ producer consumer,
        OrderInverted (BlockFlow.ofText s) original new producer consumer ∧
        block = consumer.name ∧ names = producer.supplies consumer ∧ names ≠ [] := by
  rw [← exists_mem_orderHazards_iff, checkReorder_eq]
  split
  · rename_i hlen
    refine ⟨fun ⟨d, hd⟩ => absurd hd (List.not_mem_nil), fun h => ?_⟩
    obtain ⟨producer, consumer, hinv, _⟩ := exists_mem_orderHazards_iff.1 h
    have htwo := hinv.two_le_length
    omega
  · simp only [List.mem_eraseDups]

/-- The check of a new order is sound and complete, whatever the two orders hold: the blocks and
variables that it names are those of the inverted pairs, none is repeated, and it is silent
exactly when no inverted pair shares a variable. -/
theorem checkReorder_sound_complete (s : Text) (original new : List Text) :
    (∀ block names,
      (∃ d, (⟨block, names, d⟩ : Hazard) ∈ checkReorder s original new) ↔
        ∃ producer consumer,
          OrderInverted (BlockFlow.ofText s) original new producer consumer ∧
          block = consumer.name ∧ names = producer.supplies consumer ∧ names ≠ []) ∧
    (checkReorder s original new).Nodup ∧
    (checkReorder s original new = [] ↔
      ∀ producer consumer, OrderInverted (BlockFlow.ofText s) original new producer consumer →
        producer.supplies consumer = []) := by
  refine ⟨fun block names => exists_mem_checkReorder_iff, checkReorder_nodup s original new, ?_⟩
  constructor
  · intro hnil producer consumer hinv
    by_contra hne
    obtain ⟨d, hd⟩ := exists_mem_checkReorder_iff.2 ⟨producer, consumer, hinv, rfl, rfl, hne⟩
    rw [hnil] at hd
    exact absurd hd List.not_mem_nil
  · intro hnone
    refine List.eq_nil_iff_forall_not_mem.2 fun h hh => ?_
    obtain ⟨producer, consumer, hinv, _, hnames, hne⟩ := exists_mem_checkReorder_iff.1 ⟨_, hh⟩
    exact hne (hnames.trans (hnone producer consumer hinv))

end TemplateBlocks
