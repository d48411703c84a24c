import TemplateBlocks.Proofs.ScanOrder

/-!
# Maximal blocks

Blocks are compared only with the last block that was kept. When they come in the order of their
first lines this is enough: the last kept block ends behind all blocks before it, so a block within
any of them lies within the last one as well. What is kept are the maximal blocks
(`outermost_maximal`).
-/

namespace TemplateBlocks

namespace Block

/-- No other block of the list contains the block. -/
def MaximalIn (bs : List Block) (b : Block) : Prop := ∀ o ∈ bs, o.contains b = true → o = b

instance (bs : List Block) (b : Block) : Decidable (b.MaximalIn bs) :=
  inferInstanceAs (Decidable (∀ o ∈ bs, o.contains b = true → o = b))

variable {bs : List Block} {last : Option Block} {b o : Block}

theorem maximalIn_cons : b.MaximalIn (o :: bs) ↔ (o.contains b = true → o = b) ∧ b.MaximalIn bs :=
  List.forall_mem_cons

theorem coveredBy_iff : b.coveredBy last = true ↔ ∃ o ∈ last, o.contains b = true := by
  cases last with
  | none => simp [coveredBy]
  | some o => simp [coveredBy]

theorem contains_trans {a : Block} (hab : a.contains b = true) (hbo : b.contains o = true) :
    a.contains o = true := by
  rw [contains_iff] at hab hbo ⊢
  omega

/-- The first block is maximal when all others start behind it. -/
theorem maximalIn_of_starts (h : ∀ c ∈ bs, b.start < c.start) : b.MaximalIn (b :: bs) := by
  refine maximalIn_cons.2 ⟨fun _ => rfl, fun c hc hcontains => ?_⟩
  have hstart := h c hc
  rw [contains_iff] at hcontains
  omega

/-- A block that starts behind one that is kept lies within the last block only if it lies within
the kept one. -/
theorem not_coveredBy_of_kept {c : Block} (hlast : ∀ o ∈ last, o.start ≤ b.start)
    (hkept : ¬ b.coveredBy last = true) (hbc : b.start < c.start) (hc : ¬ b.contains c = true) :
    ¬ c.coveredBy last = true := by
  rw [coveredBy_iff] at hkept ⊢
  rintro ⟨o, ho, hcontains⟩
  refine hkept ⟨o, ho, ?_⟩
  have hstart := hlast o ho
  rw [contains_iff] at hc hcontains ⊢
  omega

theorem outermostAfter_eq_filter (hbs : bs.Pairwise fun a b => a.start < b.start)
    (hlast : ∀ o ∈ last, ∀ b ∈ bs, o.start ≤ b.start) : outermostAfter last bs =
      bs.filter fun b => ¬ b.coveredBy last = true ∧ b.MaximalIn bs := by
  induction bs generalizing last with
  | nil => rfl
  | cons b bs ih =>
    obtain ⟨hb, hmore⟩ := List.pairwise_cons.1 hbs
    rw [outermostAfter]
    by_cases hcover : b.coveredBy last = true
    · have hrest : ∀ o ∈ last, ∀ c ∈ bs, o.start ≤ c.start := fun o ho c hc =>
        hlast o ho c (List.mem_cons_of_mem b hc)
      rw [if_pos hcover, ih hmore hrest, List.filter_cons_of_neg (by simp [hcover])]
      refine List.filter_congr fun c hc => decide_eq_decide.2 (and_congr_right fun hfree => ?_)
      -- What the covered block contains is covered itself.
      rw [maximalIn_cons, and_iff_right]
      intro hcontains
      obtain ⟨o, ho, hob⟩ := coveredBy_iff.1 hcover
      exact absurd (coveredBy_iff.2 ⟨o, ho, contains_trans hob hcontains⟩) hfree
    · have hrest : ∀ o ∈ some b, ∀ c ∈ bs, o.start ≤ c.start := by
        intro o ho c hc
        obtain rfl := Option.some.inj ho
        exact Nat.le_of_lt (hb c hc)
      have hkept : ¬ b.coveredBy last = true ∧ b.MaximalIn (b :: bs) :=
        ⟨hcover, maximalIn_of_starts hb⟩
      rw [if_neg hcover, ih hmore hrest, List.filter_cons, if_pos (decide_eq_true hkept)]
      refine congrArg (b :: ·) (List.filter_congr fun c hc => decide_eq_decide.2 ?_)
      have hbc := hb c hc
      have hne : b ≠ c := fun heq => Nat.ne_of_lt hbc (congrArg Block.start heq)
      have hsome : c.coveredBy (some b) = b.contains c := rfl
      rw [maximalIn_cons, hsome, ← and_assoc]
      refine and_congr_left fun _ => ⟨fun hfree => ?_, fun hfree hcontains => ?_⟩
      · exact ⟨not_coveredBy_of_kept (fun o ho => hlast o ho b (List.mem_cons_self ..)) hcover hbc
          hfree, fun hcontains => absurd hcontains hfree⟩
      · exact hne (hfree.2 hcontains)

theorem outermost_eq_filter (h : bs.Pairwise fun a b => a.start < b.start) :
    outermost bs = bs.filter fun b => b.MaximalIn bs := by
  have hnone : ∀ b : Block, b.coveredBy none = false := fun _ => rfl
  rw [outermost, outermostAfter_eq_filter h fun o ho => absurd ho (by simp)]
  simp [hnone]

theorem pairwise_outermost_stops (h : bs.Pairwise fun a b => a.start < b.start) :
    (outermost bs).Pairwise fun a b => a.stop < b.stop := by
  have hstarts := h.sublist (outermostAfter_sublist none bs)
  rw [← outermost, outermost_eq_filter h] at hstarts
  rw [outermost_eq_filter h]
  refine hstarts.imp_of_mem fun {a b} ha hb hab => ?_
  obtain ⟨hmem, _⟩ := List.mem_filter.1 ha
  have hmax : b.MaximalIn bs := of_decide_eq_true (List.mem_filter.1 hb).2
  by_contra hstop
  have hcontains : a.contains b = true := (contains_iff a b).2 ⟨Nat.le_of_lt hab, by omega⟩
  exact Nat.ne_of_lt hab (congrArg Block.start (hmax a hmem hcontains))

theorem outermost_outermost (h : bs.Pairwise fun a b => a.start < b.start) :
    outermost (outermost bs) = outermost bs := by
  have hsub : (outermost bs).Sublist bs := outermostAfter_sublist none bs
  rw [outermost_eq_filter (h.sublist hsub), List.filter_eq_self]
  intro b hb
  have hkept := hb
  rw [outermost_eq_filter h] at hkept
  have hmax : b.MaximalIn bs := of_decide_eq_true (List.mem_filter.1 hkept).2
  exact decide_eq_true fun o ho => hmax o (hsub.subset ho)

end Block

/-- The blocks of a scan start on increasing lines, and of such blocks the maximal ones are kept, in
their order. The kept blocks end on increasing lines, and all of them are kept again. -/
theorem outermost_maximal :
    (∀ s, (Scan.ofText s).blocks.Pairwise fun a b => a.start < b.start) ∧
    ∀ bs : List Block, (bs.Pairwise fun a b => a.start < b.start) →
      Block.outermost bs = (bs.filter fun b => b.MaximalIn bs) ∧
      ((Block.outermost bs).Pairwise fun a b => a.stop < b.stop) ∧
      Block.outermost (Block.outermost bs) = Block.outermost bs :=
  ⟨pairwise_scan_starts, fun _ h => ⟨Block.outermost_eq_filter h,
    Block.pairwise_outermost_stops h, Block.outermost_outermost h⟩⟩

def staggeredBlocks : List Block :=
  [{ name := "a".toList, kind := .delimited, start := 1, stop := 5 },
    { name := "b".toList, kind := .delimited, start := 2, stop := 7 },
    { name := "c".toList, kind := .delimited, start := 3, stop := 5 },
    { name := "d".toList, kind := .delimited, start := 8, stop := 8 }]

theorem outermost_maximal_staggered :
    (staggeredBlocks.Pairwise fun a b => a.start < b.start) ∧
    Block.outermost staggeredBlocks = (staggeredBlocks.filter fun b => b.MaximalIn staggeredBlocks) ∧
    (Block.outermost staggeredBlocks).map Block.name = ["a".toList, "b".toList, "d".toList] ∧
    ((Block.outermost staggeredBlocks).Pairwise fun a b => a.stop < b.stop) ∧
    Block.outermost (Block.outermost staggeredBlocks) = Block.outermost staggeredBlocks := by
  have hstarts : staggeredBlocks.Pairwise fun a b => a.start < b.start := by decide
  obtain ⟨hkept, hstops, hagain⟩ := outermost_maximal.2 staggeredBlocks hstarts
  exact ⟨hstarts, hkept, by decide, hstops, hagain⟩

end TemplateBlocks
