import Mathlib.Data.List.Nodup
import Mathlib.Data.Option.Basic
import TemplateBlocks.Detect
import TemplateBlocks.Proofs.ControlDepth

/-!
# What is detected

Conditionals share no line with each other, and a standalone is one line, so it lies within a
conditional or apart from it. Merging therefore loses and repeats nothing: each conditional is
listed once, and each standalone is listed once or lies within one conditional
(`detected_partition`).
-/

namespace TemplateBlocks

namespace Block

/-- The blocks have no line in common. -/
def Apart (a b : Block) : Prop := a.stop < b.start ∨ b.stop < a.start

theorem Apart.symm {a b : Block} (h : Apart a b) : Apart b a := Or.symm h

theorem pairwise_sort {bs : List Block} (hle : ∀ b ∈ bs, b.start ≤ b.stop)
    (h : bs.Pairwise Apart) : (sort bs).Pairwise fun a b => a.stop < b.start := by
  have hapart : (sort bs).Pairwise Apart := ((sort_perm bs).pairwise_iff Apart.symm).2 h
  refine (hapart.and (sort_ordered bs)).imp_of_mem fun {a b} ha hb hab => ?_
  obtain ⟨hlt | hlt, hstarts⟩ := hab
  · exact hlt
  · have ha := hle a (mem_sort.1 ha)
    have hb := hle b (mem_sort.1 hb)
    omega

end Block

theorem filter_eq_singleton {α : Type} {p : α → Bool} {a : α} {l : List α} (ha : a ∈ l)
    (hp : p a = true) (h : l.Pairwise fun x y => ¬ (p x = true ∧ p y = true)) :
    l.filter p = [a] := by
  have hmem : a ∈ l.filter p := List.mem_filter.2 ⟨ha, hp⟩
  have hfalse : (l.filter p).Pairwise fun _ _ => False :=
    (h.filter p).imp_of_mem fun hx hy hxy =>
      hxy ⟨(List.mem_filter.1 hx).2, (List.mem_filter.1 hy).2⟩
  cases hl : l.filter p with
  | nil => simp [hl] at hmem
  | cons x xs =>
    rw [hl] at hmem hfalse
    cases xs with
    | nil => rw [List.mem_singleton.1 hmem]
    | cons y xs => exact ((List.pairwise_cons.1 hfalse).1 y (List.mem_cons_self ..)).elim

namespace Detect

variable {ls : List Text} {line : Text} {k n depth : Nat} {b c s : Block}

/-! ### Conditionals and standalones one by one -/

theorem range_of_mem_conditionals (h : c ∈ conditionals ls) :
    1 ≤ c.start ∧ c.start < c.stop ∧ c.stop ≤ ls.length := by
  have hrange := conditionals_iff_excursion.1 ⟨c, h, rfl, rfl⟩
  exact ⟨hrange.pos, hrange.lt, hrange.le⟩

theorem exists_open_of_mem_conditionals (h : c ∈ conditionals ls) :
    ∃ (o : OpenControl) (n : Nat), c = o.block n := by
  rw [conditionals_eq] at h
  obtain ⟨l, hl, hc⟩ := List.mem_flatMap.1 h
  obtain ⟨k, hk, rfl⟩ := Lines.mem_numbered_iff.1 hl
  rw [Nat.add_sub_cancel, endedBy_behind hk] at hc
  split at hc
  · cases hlast : (stackBehind ls k).getLast? with
    | none => simp [hlast] at hc
    | some o => exact ⟨o, k + 1, by simpa [hlast] using hc⟩
  · exact absurd hc List.not_mem_nil

theorem kind_of_mem_conditionals (h : c ∈ conditionals ls) : c.kind = .conditional := by
  obtain ⟨o, n, rfl⟩ := exists_open_of_mem_conditionals h
  rfl

theorem classify?_kind {name : Text} {kind : Kind} (h : classify? line = some (name, kind)) :
    kind ≠ .conditional := by
  simp only [classify?, Option.orElse_eq_some, Option.map_eq_some_iff, Prod.mk.injEq] at h
  rcases h with ⟨_, _, _, rfl⟩ | ⟨-, ⟨_, _, _, rfl⟩ | ⟨-, ⟨_, _, _, rfl⟩ | ⟨-, _, _, _, rfl⟩⟩⟩
  · decide
  · decide
  · decide
  · decide

theorem of_standalone? (h : standalone? depth line n = some s) :
    s.start = n ∧ s.stop = n ∧ s.kind ≠ .conditional := by
  rw [standalone?] at h
  split at h
  · exact absurd h (by simp)
  · obtain ⟨⟨name, kind⟩, hclass, rfl⟩ := Option.map_eq_some_iff.1 h
    exact ⟨rfl, rfl, classify?_kind hclass⟩

theorem exists_line_of_mem_standalones (h : s ∈ standalones ls) : ∃ k, ∃ hk : k < ls.length,
    standalone? (Control.depthBehind ls (k + 1)) ls[k] (k + 1) = some s := by
  rw [standalones_eq] at h
  obtain ⟨l, hl, hs⟩ := List.mem_flatMap.1 h
  obtain ⟨k, hk, rfl⟩ := Lines.mem_numbered_iff.1 hl
  exact ⟨k, hk, by simpa using hs⟩

theorem range_of_mem_standalones (h : s ∈ standalones ls) :
    1 ≤ s.start ∧ s.stop = s.start ∧ s.stop ≤ ls.length := by
  obtain ⟨k, hk, hs⟩ := exists_line_of_mem_standalones h
  obtain ⟨hstart, hstop, -⟩ := of_standalone? hs
  omega

theorem kind_of_mem_standalones (h : s ∈ standalones ls) : s.kind ≠ .conditional := by
  obtain ⟨k, hk, hs⟩ := exists_line_of_mem_standalones h
  exact (of_standalone? hs).2.2

theorem pairwise_standalones (ls : List Text) :
    (standalones ls).Pairwise fun a b => a.stop < b.start := by
  rw [standalones_eq, List.pairwise_flatMap]
  constructor
  · intro l hl
    cases standalone? (Control.depthBehind ls l.2) l.1 l.2 with
    | none => exact List.Pairwise.nil
    | some s => exact List.pairwise_singleton _ _
  · refine (Lines.pairwise_numbered ls).imp fun {l l'} hlt a ha b hb => ?_
    have ha := of_standalone? (Option.mem_toList.1 ha)
    have hb := of_standalone? (Option.mem_toList.1 hb)
    omega

/-! ### Merging -/

/-- A conditional keeps all but its name, which is that of the only standalone within it. -/
theorem exists_renamed (ss : List Block) (c : Block) :
    ∃ name, renamed ss c = { c with name := name } ∧
      (∀ s, ss.filter c.contains = [s] → name = s.name) ∧
      ((ss.filter c.contains).length ≠ 1 → name = c.name) := by
  rw [renamed]
  split
  · rename_i only heq
    rw [heq]
    exact ⟨only.name, rfl, fun s hs => by rw [(List.cons.inj hs).1], fun hlen => absurd rfl hlen⟩
  · rename_i hne
    exact ⟨c.name, rfl, fun s hs => absurd hs (hne s), fun _ => rfl⟩

theorem range_renamed (ss : List Block) (c : Block) :
    (renamed ss c).start = c.start ∧ (renamed ss c).stop = c.stop ∧
      (renamed ss c).kind = c.kind := by
  obtain ⟨name, hname, -⟩ := exists_renamed ss c
  rw [hname]
  exact ⟨rfl, rfl, rfl⟩

theorem mem_blocks_iff : b ∈ blocks ls ↔
    (∃ c ∈ conditionals ls, renamed (standalones ls) c = b) ∨
      b ∈ standalones ls ∧ ∀ c ∈ conditionals ls, ¬ c.contains b = true := by
  simp only [blocks, Block.mem_sort, merge, List.mem_append, List.mem_map, List.mem_filter,
    Bool.not_eq_true', List.any_eq_false]

theorem range_of_mem_blocks (h : b ∈ blocks ls) :
    1 ≤ b.start ∧ b.start ≤ b.stop ∧ b.stop ≤ ls.length := by
  rcases mem_blocks_iff.1 h with ⟨c, hc, rfl⟩ | ⟨hb, -⟩
  · obtain ⟨hstart, hstop, -⟩ := range_renamed (standalones ls) c
    have := range_of_mem_conditionals hc
    omega
  · have := range_of_mem_standalones hb
    omega

theorem apart_of_not_contains (hs : s ∈ standalones ls) (h : ¬ c.contains s = true) :
    c.Apart s := by
  have hrange := range_of_mem_standalones hs
  rw [Block.contains_iff] at h
  rw [Block.Apart]
  omega

theorem pairwise_merge (ls : List Text) :
    (merge (conditionals ls) (standalones ls)).Pairwise Block.Apart := by
  refine List.pairwise_append.2 ⟨?_, ?_, ?_⟩
  · refine List.pairwise_map.2 ((pairwise_conditionals ls).imp fun {a b} hab => ?_)
    obtain ⟨-, hstop, -⟩ := range_renamed (standalones ls) a
    obtain ⟨hstart, -, -⟩ := range_renamed (standalones ls) b
    exact .inl (by omega)
  · exact ((pairwise_standalones ls).filter _).imp Or.inl
  · intro b hb s hs
    obtain ⟨c, hc, rfl⟩ := List.mem_map.1 hb
    obtain ⟨hs, hout⟩ := List.mem_filter.1 hs
    rw [Bool.not_eq_true', List.any_eq_false] at hout
    obtain ⟨hstart, hstop, -⟩ := range_renamed (standalones ls) c
    have hapart := apart_of_not_contains hs (hout c hc)
    rwa [Block.Apart, ← hstart, ← hstop] at hapart

theorem pairwise_blocks (ls : List Text) :
    (blocks ls).Pairwise fun a b => a.stop < b.start :=
  Block.pairwise_sort (fun _ hb => (range_of_mem_blocks (Block.mem_sort.2 hb)).2.1)
    (pairwise_merge ls)

/-! ### How often a block is listed -/

/-- Only one block is listed with the range of a conditional. -/
theorem filter_blocks (hc : c ∈ conditionals ls) :
    (blocks ls).filter (fun b => b.start = c.start ∧ b.stop = c.stop) =
      [renamed (standalones ls) c] := by
  obtain ⟨hstart, hstop, -⟩ := range_renamed (standalones ls) c
  refine filter_eq_singleton (mem_blocks_iff.2 (.inl ⟨c, hc, rfl⟩)) (by simp [hstart, hstop]) ?_
  refine (pairwise_blocks ls).imp_of_mem fun {a b} ha _ hab hboth => ?_
  simp only [decide_eq_true_eq] at hboth
  have := (range_of_mem_blocks ha).2.1
  omega

/-- A standalone lies within one conditional at most. -/
theorem filter_conditionals (hs : s ∈ standalones ls) (hc : c ∈ conditionals ls)
    (h : c.contains s = true) : (conditionals ls).filter (·.contains s) = [c] := by
  refine filter_eq_singleton hc h ((pairwise_conditionals ls).imp fun {a b} hab hboth => ?_)
  simp only [Block.contains_iff] at hboth
  have := range_of_mem_standalones hs
  omega

theorem nodup_blocks (ls : List Text) : (blocks ls).Nodup := by
  refine (pairwise_blocks ls).imp_of_mem fun {a b} ha _ hab heq => ?_
  have := (range_of_mem_blocks ha).2.1
  rw [heq] at hab this
  omega

/-- A standalone within a conditional is not listed. -/
theorem not_mem_blocks (hs : s ∈ standalones ls) (hc : c ∈ conditionals ls)
    (h : c.contains s = true) : s ∉ blocks ls := by
  intro hmem
  rcases mem_blocks_iff.1 hmem with ⟨c', hc', rfl⟩ | ⟨-, hout⟩
  · have hkind := (range_renamed (standalones ls) c').2.2
    exact kind_of_mem_standalones hs (hkind.trans (kind_of_mem_conditionals hc'))
  · exact hout c hc h

end Detect

/-- What is detected is sorted and has no lines in common, and merging loses and repeats nothing:
every conditional is listed once, under its own name or that of the only standalone within it;
every standalone is listed once as it is, or it lies within one conditional and is not listed. -/
theorem detected_partition (ls : List Text) :
    ((Detect.blocks ls).Pairwise fun a b => a.start < b.start ∧ a.stop < b.start) ∧
    (∀ b ∈ Detect.blocks ls, 1 ≤ b.start ∧ b.start ≤ b.stop ∧ b.stop ≤ ls.length) ∧
    (∀ c ∈ Detect.conditionals ls, ∃ name,
      (Detect.blocks ls).filter (fun b => b.start = c.start ∧ b.stop = c.stop) =
        [{ c with name := name }] ∧
      (∀ s, (Detect.standalones ls).filter c.contains = [s] → name = s.name) ∧
      (((Detect.standalones ls).filter c.contains).length ≠ 1 → name = c.name)) ∧
    (∀ s ∈ Detect.standalones ls,
      (Detect.blocks ls).count s = 1 ∧ (∀ c ∈ Detect.conditionals ls, ¬ c.contains s = true) ∨
      s ∉ Detect.blocks ls ∧ ∃ c, (Detect.conditionals ls).filter (·.contains s) = [c]) ∧
    ∀ b ∈ Detect.blocks ls, b ∈ Detect.standalones ls ∨
      ∃ c ∈ Detect.conditionals ls, b.start = c.start ∧ b.stop = c.stop := by
  refine ⟨?_, fun b hb => Detect.range_of_mem_blocks hb, fun c hc => ?_, fun s hs => ?_,
    fun b hb => ?_⟩
  · refine (Detect.pairwise_blocks ls).imp_of_mem fun ha _ hab => ⟨?_, hab⟩
    exact Nat.lt_of_le_of_lt (Detect.range_of_mem_blocks ha).2.1 hab
  · obtain ⟨name, hname, hname'⟩ := Detect.exists_renamed (Detect.standalones ls) c
    exact ⟨name, by rw [Detect.filter_blocks hc, hname], hname'⟩
  · by_cases hin : ∃ c ∈ Detect.conditionals ls, c.contains s = true
    · obtain ⟨c, hc, hcs⟩ := hin
      exact .inr ⟨Detect.not_mem_blocks hs hc hcs, c, Detect.filter_conditionals hs hc hcs⟩
    · have hout : ∀ c ∈ Detect.conditionals ls, ¬ c.contains s = true :=
        fun c hc hcs => hin ⟨c, hc, hcs⟩
      have hmem : s ∈ Detect.blocks ls := Detect.mem_blocks_iff.2 (.inr ⟨hs, hout⟩)
      exact .inl ⟨List.count_eq_one_of_mem (Detect.nodup_blocks ls) hmem, hout⟩
  · rcases Detect.mem_blocks_iff.1 hb with ⟨c, hc, rfl⟩ | ⟨hs, -⟩
    · obtain ⟨hstart, hstop, -⟩ := Detect.range_renamed (Detect.standalones ls) c
      exact .inr ⟨c, hc, hstart, hstop⟩
    · exact .inl hs

def wrappedCall : List Text := ["<?php if ($a) : ?>".toList,
  "<?php echo $this->loadTemplate('x'); ?>".toList, "<?php endif; ?>".toList]

def wrapper : Block := { name := "a".toList, kind := .conditional, start := 1, stop := 3 }

def call : Block := { name := "Sub: x".toList, kind := .subTemplate, start := 2, stop := 2 }

/-- A conditional around one call goes by the name of the call, which is not listed. -/
theorem wrapper_named_after_call :
    (Detect.blocks wrappedCall).filter (fun b => b.start = 1 ∧ b.stop = 3) =
      [{ wrapper with name := call.name }] ∧ call ∉ Detect.blocks wrappedCall := by
  obtain ⟨-, -, hconditionals, hstandalones, -⟩ := detected_partition wrappedCall
  have hwrapper : wrapper ∈ Detect.conditionals wrappedCall := by decide +kernel
  have hcall : call ∈ Detect.standalones wrappedCall := by decide +kernel
  constructor
  · obtain ⟨name, hfilter, hname, -⟩ := hconditionals wrapper hwrapper
    rw [← hname call (by decide +kernel)]
    exact hfilter
  · rcases hstandalones call hcall with ⟨-, hout⟩ | ⟨hnot, -⟩
    · exact absurd (by decide) (hout wrapper hwrapper)
    · exact hnot

end TemplateBlocks
