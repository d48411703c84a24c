import TemplateBlocks.Proofs.Inversion

/-!
# The hazards of a move

A move of one block is reported exactly by the pairs of blocks that it inverts: the block
that misses variables, and the variables, which are those that the other block assigns.
-/

namespace TemplateBlocks

/-! ### The two ends of a move -/

def MovesFrom (blocks : List BlockFlow) (moved : Text) (i : Nat) : Prop :=
  ∃ b, FirstAt (·.name = moved) blocks i b

/-- The block goes to the gap before index `t`: the front when `after` is empty, and else the
gap behind the first block called `after`. -/
def MovesTo (blocks : List BlockFlow) (after : Text) (t : Nat) : Prop :=
  (after = [] ∧ t = 0) ∨ (after ≠ [] ∧ ∃ j b, FirstAt (·.name = after) blocks j b ∧ t = j + 1)

theorem MovesFrom.lt_length {blocks : List BlockFlow} {moved : Text} {i : Nat}
    (h : MovesFrom blocks moved i) : i < blocks.length := by
  obtain ⟨b, hb⟩ := h
  exact hb.lt_length

theorem MovesTo.le_length {blocks : List BlockFlow} {after : Text} {t : Nat}
    (h : MovesTo blocks after t) : t ≤ blocks.length := by
  rcases h with ⟨_, rfl⟩ | ⟨_, j, b, hj, rfl⟩
  · exact Nat.zero_le _
  · exact hj.lt_length

theorem findIdx?_name_eq_some_iff {blocks : List BlockFlow} {name : Text} {i : Nat} :
    (blocks.findIdx? fun b => b.name == name) = some i ↔
      ∃ b, FirstAt (·.name = name) blocks i b := by
  rw [findIdx?_eq_some_iff_firstAt]
  simp only [beq_iff_eq]

theorem findIdx?_name_eq_none_iff {blocks : List BlockFlow} {name : Text} :
    (blocks.findIdx? fun b => b.name == name) = none ↔ ∀ b ∈ blocks, b.name ≠ name := by
  rw [List.findIdx?_eq_none_iff]
  simp

theorem gapAfter?_eq_some_iff {blocks : List BlockFlow} {after : Text} {t : Nat} :
    gapAfter? blocks after = some t ↔ MovesTo blocks after t := by
  unfold gapAfter? MovesTo
  cases after with
  | nil => simp [eq_comm]
  | cons c after =>
    simp only [List.isEmpty_cons, Bool.false_eq_true, if_false, Option.map_eq_some_iff,
      findIdx?_name_eq_some_iff, reduceCtorEq, false_and, false_or, ne_eq, not_false_eq_true,
      true_and]
    constructor
    · intro h
      obtain ⟨j, ⟨b, hb⟩, rfl⟩ := h
      exact ⟨j, b, hb, rfl⟩
    · intro h
      obtain ⟨j, b, hb, rfl⟩ := h
      exact ⟨j, ⟨b, hb⟩, rfl⟩

theorem gapAfter?_eq_none_iff {blocks : List BlockFlow} {after : Text} :
    gapAfter? blocks after = none ↔ after ≠ [] ∧ ∀ b ∈ blocks, b.name ≠ after := by
  unfold gapAfter?
  cases after with
  | nil => simp
  | cons c after => simp

/-! ### The blocks that a move crosses -/

/-- A hazard of a move comes from a pair of blocks that the move inverts: a block that the moved
one passes on its way down, or one that it passes on its way up. -/
theorem mem_moveHazards_iff {blocks : List BlockFlow} {i t : Nat} {moved : BlockFlow} {h : Hazard}
    (hmoved : blocks[i]? = some moved) :
    h ∈ moveHazards blocks i t ↔
      (∃ c other, blocks[c]? = some other ∧ i < c ∧ c < t ∧ moved.missedBy other = some h) ∨
        (∃ p other, blocks[p]? = some other ∧ t ≤ p ∧ p < i ∧ moved.misses other = some h) := by
  simp only [moveHazards, hmoved]
  by_cases hit : i < t
  · rw [if_pos hit, List.mem_filterMap]
    constructor
    · intro h
      obtain ⟨other, hmem, hh⟩ := h
      obtain ⟨c, hc, hic, hct⟩ := mem_drop_take_iff.1 hmem
      exact .inl ⟨c, other, hc, hic, hct, hh⟩
    · intro h
      rcases h with ⟨c, other, hc, hic, hct, hh⟩ | ⟨p, other, hp, htp, hpi, hh⟩
      · exact ⟨other, mem_drop_take_iff.2 ⟨c, hc, hic, hct⟩, hh⟩
      · omega
  · rw [if_neg hit, List.mem_filterMap]
    constructor
    · intro h
      obtain ⟨other, hmem, hh⟩ := h
      obtain ⟨p, hp, htp, hpi⟩ := mem_drop_take_iff.1 hmem
      exact .inr ⟨p, other, hp, htp, hpi, hh⟩
    · intro h
      rcases h with ⟨c, other, hc, hic, hct, hh⟩ | ⟨p, other, hp, htp, hpi, hh⟩
      · omega
      · exact ⟨other, mem_drop_take_iff.2 ⟨p, hp, htp, hpi⟩, hh⟩

theorem direction_of_mem_moveHazards {blocks : List BlockFlow} {i t : Nat} {moved : BlockFlow}
    {h : Hazard} (hmoved : blocks[i]? = some moved) (hh : h ∈ moveHazards blocks i t) :
    (i < t → h.direction = .losesDefinitions) ∧ (t < i → h.direction = .providesDefinitions) := by
  rcases (mem_moveHazards_iff hmoved).1 hh with ⟨c, other, _, hic, hct, hsome⟩ |
    ⟨p, other, _, htp, hpi, hsome⟩
  · obtain ⟨_, rfl⟩ := BlockFlow.missedBy_eq_some_iff.1 hsome
    exact ⟨fun _ => rfl, fun hti => by omega⟩
  · obtain ⟨_, rfl⟩ := BlockFlow.misses_eq_some_iff.1 hsome
    exact ⟨fun hit => by omega, fun _ => rfl⟩

theorem exists_mem_moveHazards_iff {blocks : List BlockFlow} {i t : Nat} {moved : BlockFlow}
    {block : Text} {names : List Text} (hmoved : blocks[i]? = some moved) :
    (∃ d, (⟨block, names, d⟩ : Hazard) ∈ moveHazards blocks i t) ↔
      ∃ producer consumer, Inverted blocks (movedOrder blocks.length i t) producer consumer ∧
        block = consumer.name ∧ names = producer.supplies consumer ∧ names ≠ [] := by
  constructor
  · intro h
    obtain ⟨d, hmem⟩ := h
    rcases (mem_moveHazards_iff hmoved).1 hmem with ⟨c, other, hc, hic, hct, hsome⟩ |
      ⟨p, other, hp, htp, hpi, hsome⟩
    · obtain ⟨hne, heq⟩ := BlockFlow.missedBy_eq_some_iff.1 hsome
      cases heq
      have hlen : c < blocks.length := (List.getElem?_eq_some_iff.1 hc).1
      have hprec := (precedes_movedOrder_iff hic hlen).2 (.inl ⟨rfl, hct⟩)
      exact ⟨moved, other, ⟨i, c, hmoved, hc, hic, hprec⟩, rfl, rfl, hne⟩
    · obtain ⟨hne, heq⟩ := BlockFlow.misses_eq_some_iff.1 hsome
      cases heq
      have hlen : i < blocks.length := (List.getElem?_eq_some_iff.1 hmoved).1
      have hprec := (precedes_movedOrder_iff hpi hlen).2 (.inr ⟨rfl, htp⟩)
      exact ⟨other, moved, ⟨p, i, hp, hmoved, hpi, hprec⟩, rfl, rfl, hne⟩
  · intro h
    obtain ⟨producer, consumer, ⟨p, c, hp, hc, hpc, hprec⟩, rfl, rfl, hne⟩ := h
    have hlen : c < blocks.length := (List.getElem?_eq_some_iff.1 hc).1
    rcases (precedes_movedOrder_iff hpc hlen).1 hprec with ⟨rfl, hct⟩ | ⟨rfl, htp⟩
    · obtain rfl : moved = producer := Option.some.inj (hmoved.symm.trans hp)
      exact ⟨.losesDefinitions, (mem_moveHazards_iff hmoved).2
        (.inl ⟨c, consumer, hc, hpc, hct, BlockFlow.missedBy_eq_some_iff.2 ⟨hne, rfl⟩⟩)⟩
    · obtain rfl : moved = consumer := Option.some.inj (hmoved.symm.trans hc)
      exact ⟨.providesDefinitions, (mem_moveHazards_iff hmoved).2
        (.inr ⟨p, producer, hp, htp, hpc, BlockFlow.misses_eq_some_iff.2 ⟨hne, rfl⟩⟩)⟩

/-! ### The answer -/

/-- A block that goes to the gap on either side of it crosses nothing. -/
theorem moveHazards_eq_nil {blocks : List BlockFlow} {i t : Nat} (h : t = i ∨ t = i + 1) :
    moveHazards blocks i t = [] := by
  unfold moveHazards
  cases blocks[i]? with
  | none => rfl
  | some moved =>
    rcases h with rfl | rfl
    · simp [List.drop_eq_nil_of_le]
    · simp [List.drop_eq_nil_of_le]

theorem checkMove_eq_of_moves {s moved after : Text} {i t : Nat}
    (hi : MovesFrom (BlockFlow.ofText s) moved i) (ht : MovesTo (BlockFlow.ofText s) after t)
    (hne : after ≠ moved) :
    checkMove s moved after = (moveHazards (BlockFlow.ofText s) i t).eraseDups := by
  have hfrom := findIdx?_name_eq_some_iff.2 hi
  have hto := gapAfter?_eq_some_iff.2 ht
  have hilt := hi.lt_length
  have htle := ht.le_length
  by_cases hlen : (BlockFlow.ofText s).length < 2
  · rw [moveHazards_eq_nil (by omega)]
    simp [checkMove, hlen]
  · by_cases hit : i = t
    · rw [moveHazards_eq_nil (.inl hit.symm)]
      simp [checkMove, hfrom, hto, hit]
    · simp [checkMove, hlen, hfrom, hto, hit, hne]

theorem checkMove_eq_nil {s moved after : Text}
    (h : (BlockFlow.ofText s).length < 2 ∨ (∀ b ∈ BlockFlow.ofText s, b.name ≠ moved) ∨
      (after ≠ [] ∧ ∀ b ∈ BlockFlow.ofText s, b.name ≠ after) ∨ after = moved) :
    checkMove s moved after = [] := by
  rcases h with hlen | hmoved | hafter | heq
  · simp [checkMove, hlen]
  · simp [checkMove, findIdx?_name_eq_none_iff.2 hmoved]
  · simp [checkMove, gapAfter?_eq_none_iff.2 hafter]
  · unfold checkMove
    simp only [heq, or_true, if_true]
    split
    · rfl
    · split <;> rfl

theorem checkMove_nodup (s moved after : Text) : (checkMove s moved after).Nodup := by
  unfold checkMove
  dsimp only
  split
  · exact List.nodup_nil
  · split
    · split
      · exact List.nodup_nil
      · exact nodup_eraseDups _
    · exact List.nodup_nil

/-- The check of a move is sound and complete. It is silent when there is nothing to move or no
place to go. Otherwise the blocks and variables that it names are those of the pairs which the
move inverts, every hazard points the way the block moves, and none is repeated. -/
theorem checkMove_sound_complete (s moved after : Text) :
    (((BlockFlow.ofText s).length < 2 ∨ (∀ b ∈ BlockFlow.ofText s, b.name ≠ moved) ∨
        (after ≠ [] ∧ ∀ b ∈ BlockFlow.ofText s, b.name ≠ after) ∨ after = moved ∨
        ∃ i, MovesFrom (BlockFlow.ofText s) moved i ∧ MovesTo (BlockFlow.ofText s) after i) →
      checkMove s moved after = []) ∧
    (∀ i t, MovesFrom (BlockFlow.ofText s) moved i → MovesTo (BlockFlow.ofText s) after t →
      after ≠ moved →
      (∀ block names,
        (∃ d, (⟨block, names, d⟩ : Hazard) ∈ checkMove s moved after) ↔
          ∃ producer consumer,
            Inverted (BlockFlow.ofText s) (movedOrder (BlockFlow.ofText s).length i t)
              producer consumer ∧
            block = consumer.name ∧ names = producer.supplies consumer ∧ names ≠ []) ∧
      ∀ h ∈ checkMove s moved after,
        (i < t → h.direction = .losesDefinitions) ∧
        (t < i → h.direction = .providesDefinitions)) ∧
    (checkMove s moved after).Nodup := by
  refine ⟨fun hnone => ?_, fun i t hi ht hne => ?_, checkMove_nodup s moved after⟩
  · rcases hnone with hlen | hmoved | hafter | heq | ⟨i, hi, ht⟩
    · exact checkMove_eq_nil (.inl hlen)
    · exact checkMove_eq_nil (.inr (.inl hmoved))
    · exact checkMove_eq_nil (.inr (.inr (.inl hafter)))
    · exact checkMove_eq_nil (.inr (.inr (.inr heq)))
    · by_cases hne : after = moved
      · exact checkMove_eq_nil (.inr (.inr (.inr hne)))
      · rw [checkMove_eq_of_moves hi ht hne, moveHazards_eq_nil (.inl rfl), List.eraseDups_nil]
  · obtain ⟨mover, hmover, _⟩ := id hi
    simp only [checkMove_eq_of_moves hi ht hne, List.mem_eraseDups]
    refine ⟨fun block names => exists_mem_moveHazards_iff hmover, fun h hh => ?_⟩
    exact direction_of_mem_moveHazards hmover hh

end TemplateBlocks
