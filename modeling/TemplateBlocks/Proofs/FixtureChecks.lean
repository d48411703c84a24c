import Mathlib.Data.List.Forall2
import TemplateBlocks.Fixture

/-!
# When a fixture passes

The checks of a fixture run one after another, and the blocks are compared by their descriptions.
A description can be read from its end, so blocks with one description have the same name, lines and
flag, whatever characters the name holds (`describe_inj`). A fixture therefore passes exactly when
each of its expectations holds of the template itself (`passes_iff`).
-/

namespace TemplateBlocks

namespace Text

/-! ### Numbers -/

theorem ofNat_inj {m n : Nat} : ofNat m = ofNat n ↔ m = n := by
  refine ⟨fun h => ?_, congrArg ofNat⟩
  have hvalue := congrArg (fun digits => Nat.ofDigitChars 10 digits 0) h
  simpa only [ofNat, Nat.ofDigitChars_toDigits (Nat.lt_of_sub_eq_succ rfl) (Nat.le_refl 10)]
    using hvalue

theorem not_mem_ofNat {c : Char} (hc : c.isDigit = false) (n : Nat) : c ∉ ofNat n := by
  intro hmem
  rw [Nat.isDigit_of_mem_toDigits (Nat.succ_pos 9) (Nat.le_refl 10) hmem] at hc
  exact Bool.noConfusion hc

/-! ### The last separator -/

theorem cut_at_last {d : Char} {u v u' v' : Text} (hv : d ∉ v) (hv' : d ∉ v')
    (h : u ++ d :: v = u' ++ d :: v') : u = u' ∧ v = v' := by
  rcases List.append_eq_append_iff.1 h with ⟨w, hu, hw⟩ | ⟨w, hu, hw⟩
  · cases w with
    | nil => exact ⟨by simpa using hu.symm, (List.cons.inj hw).2⟩
    | cons c w =>
      have hmem : d ∈ v := by
        rw [(List.cons.inj hw).2]
        exact List.mem_append_right w (List.mem_cons_self ..)
      exact absurd hmem hv
  · cases w with
    | nil => exact ⟨by simpa using hu, (List.cons.inj hw).2.symm⟩
    | cons c w =>
      have hmem : d ∈ v' := by
        rw [(List.cons.inj hw).2]
        exact List.mem_append_right w (List.mem_cons_self ..)
      exact absurd hmem hv'

end Text

namespace Fixture

/-! ### Descriptions of blocks -/

section Descriptions

variable {name name' : Text} {start stop start' stop' : Nat} {movable movable' : Bool}

def flagWord (movable : Bool) : Text := if movable then "movable".toList else "fixed".toList

theorem flagWord_inj : flagWord movable = flagWord movable' ↔ movable = movable' := by
  cases movable <;> cases movable' <;> decide

theorem space_not_mem_flagWord (movable : Bool) : ' ' ∉ flagWord movable := by
  cases movable <;> decide

theorem describe_eq (name : Text) (start stop : Nat) (movable : Bool) :
    describe name start stop movable = (((name ++ [' ']) ++ 'L' :: Text.ofNat start) ++
      '-' :: Text.ofNat stop) ++ ' ' :: flagWord movable := by
  cases movable <;> simp [describe, flagWord]

/-- The flag stands behind the last space, the last line behind the last hyphen in front of it, and
the first line behind the last `L` in front of that. -/
theorem describe_inj : describe name start stop movable = describe name' start' stop' movable' ↔
    name = name' ∧ start = start' ∧ stop = stop' ∧ movable = movable' := by
  constructor
  · intro h
    rw [describe_eq, describe_eq] at h
    obtain ⟨h, hmovable⟩ :=
      Text.cut_at_last (space_not_mem_flagWord movable) (space_not_mem_flagWord movable') h
    obtain ⟨h, hstop⟩ :=
      Text.cut_at_last (Text.not_mem_ofNat rfl stop) (Text.not_mem_ofNat rfl stop') h
    obtain ⟨h, hstart⟩ :=
      Text.cut_at_last (Text.not_mem_ofNat rfl start) (Text.not_mem_ofNat rfl start') h
    exact ⟨List.append_cancel_right h, Text.ofNat_inj.1 hstart, Text.ofNat_inj.1 hstop,
      flagWord_inj.1 hmovable⟩
  · rintro ⟨rfl, rfl, rfl, rfl⟩
    rfl

/-- A name that looks like a description does not hide the lines behind it. -/
example : describe "a L1-2 movable".toList 3 4 true = "a L1-2 movable L3-4 movable".toList := by
  decide

end Descriptions

/-! ### Checks in a row -/

section Checks

variable {ε α : Type}

theorem seq_eq_ok {x y : Except ε Unit} : (x >>= fun _ => y) = .ok () ↔ x = .ok () ∧ y = .ok () := by
  cases x with
  | error e => simp [bind, Except.bind]
  | ok u => simp [bind, Except.bind]

theorem forM_eq_ok {f : α → Except ε Unit} {as : List α} :
    as.forM f = .ok () ↔ ∀ a ∈ as, f a = .ok () := by
  induction as with
  | nil => simp [List.forM, pure, Except.pure]
  | cons a as ih =>
    have hcons : (a :: as).forM f = (f a >>= fun _ => as.forM f) := rfl
    rw [hcons, seq_eq_ok, ih, List.forall_mem_cons]

theorem ite_eq_ok {p : Prop} [Decidable p] {e : ε} :
    (if p then .ok () else .error e : Except ε Unit) = .ok () ↔ p := by
  by_cases hp : p
  · simp [hp]
  · simp [hp]

end Checks

end Fixture

/-! ### Expectations that hold -/

/-- The block has the name, the lines and the flag that are expected; it ends on its first line when
no last line is given. -/
structure ExpectedBlock.Describes (e : ExpectedBlock) (b : Block) : Prop where
  name : b.name = e.name
  start : b.start = e.start
  stop : b.stop = e.stop.getD e.start
  movable : b.movable = e.movable

/-- What is expected, as far as anything is, holds of the template. -/
structure Expectation.HoldsOf (e : Expectation) (source : Text) : Prop where
  delimited : ∀ d, e.delimited = some d →
    (Outline.ofText (Fixture.translation e.strings) source).delimited = d
  blocks : ∀ bs, e.blocks = some bs → List.Forall₂ ExpectedBlock.Describes bs
    (Outline.ofText (Fixture.translation e.strings) source).blocks
  moves : ∀ m ∈ e.moves, checkMove source m.block m.after = m.hazards
  orders : ∀ r ∈ e.orders, checkReorder source r.original r.new = r.hazards

namespace Fixture

variable {e : Expectation} {o : Outline} {source : Text}

theorem describeExpected_eq_iff {b : Block} {x : ExpectedBlock} :
    describeExpected x = describeActual b ↔ x.Describes b := by
  rw [eq_comm, describeActual, describeExpected, describe_inj]
  exact ⟨fun ⟨hname, hstart, hstop, hmovable⟩ => ⟨hname, hstart, hstop, hmovable⟩,
    fun h => ⟨h.name, h.start, h.stop, h.movable⟩⟩

theorem descriptions_eq_iff {bs : List Block} {xs : List ExpectedBlock} :
    bs.map describeActual = xs.map describeExpected ↔
      List.Forall₂ ExpectedBlock.Describes xs bs := by
  rw [eq_comm, ← List.forall₂_eq_eq_eq, List.forall₂_map_left_iff, List.forall₂_map_right_iff]
  simp only [describeExpected_eq_iff]

theorem checkDelimited_eq_ok_iff :
    checkDelimited e o = .ok () ↔ ∀ d, e.delimited = some d → o.delimited = d := by
  unfold checkDelimited
  cases e.delimited with
  | none => simp
  | some d => simp [eq_comm]

theorem checkBlocks_eq_ok_iff : checkBlocks e o = .ok () ↔
    ∀ bs, e.blocks = some bs → List.Forall₂ ExpectedBlock.Describes bs o.blocks := by
  unfold checkBlocks
  cases e.blocks with
  | none => simp
  | some bs => simp [descriptions_eq_iff]

theorem check_eq_ok_iff (e : Expectation) (source : Text) :
    check e source = .ok () ↔ e.HoldsOf source := by
  unfold check
  simp only [seq_eq_ok, forM_eq_ok, checkDelimited_eq_ok_iff, checkBlocks_eq_ok_iff,
    checkMoveCase, checkOrderCase, ite_eq_ok]
  exact ⟨fun ⟨hdelimited, hblocks, hmoves, horders⟩ => ⟨hdelimited, hblocks, hmoves, horders⟩,
    fun h => ⟨h.delimited, h.blocks, h.moves, h.orders⟩⟩

end Fixture

/-- The checks succeed exactly when every expectation holds, and whatever reads the front matter, a
fixture passes exactly when it can be read and what it expects holds of its template. Blocks are compared by their descriptions, which
differ whenever the name, a line or the flag does. -/
theorem passes_iff :
    (∀ e source, Fixture.check e source = .ok () ↔ e.HoldsOf source) ∧
    (∀ (toml : Toml.Reader) s, (Fixture.runWith toml s).failure = none ↔
      ∃ e source, Fixture.read toml s = .ok (e, source) ∧ e.HoldsOf source) ∧
    ∀ name start stop movable name' start' stop' movable',
      Fixture.describe name start stop movable = Fixture.describe name' start' stop' movable' ↔
        name = name' ∧ start = start' ∧ stop = stop' ∧ movable = movable' := by
  refine ⟨Fixture.check_eq_ok_iff, fun toml s => ?_, fun _ _ _ _ _ _ _ _ => Fixture.describe_inj⟩
  unfold Fixture.runWith
  cases hread : Fixture.read toml s with
  | error p => simp
  | ok r =>
    obtain ⟨e, source⟩ := r
    have hcheck := Fixture.check_eq_ok_iff e source
    cases hresult : Fixture.check e source with
    | error m =>
      rw [hresult] at hcheck
      simpa [hresult] using hcheck
    | ok u =>
      rw [hresult] at hcheck
      simpa [hresult] using hcheck

end TemplateBlocks
