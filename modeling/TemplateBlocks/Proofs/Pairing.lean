import Mathlib.Data.List.Nodup
import TemplateBlocks.Proofs.LineMarkers

/-!
# Pairs of markers

The line scan pairs its events. A pair is made of an event that opens its key and a later one that
closes it (`exists_events_of_mem_pairs`), so both of its markers stand in the text
(`exists_bracketing_of_mem`). No two pairs of a text start on the same line (`start_inj`).
-/

namespace TemplateBlocks

/-! ### The order of events -/

/-- Events come in the order of their lines, and of two events of one line the first opens a block
and the second closes one. -/
def EventOrder (a b : MarkerEvent × Nat) : Prop :=
  a.2 < b.2 ∨ a.2 = b.2 ∧ ∃ k k', a.1 = .opens k ∧ b.1 = .closes k'

theorem EventOrder.le {a b : MarkerEvent × Nat} (h : EventOrder a b) : a.2 ≤ b.2 := by
  rcases h with hlt | ⟨heq, _⟩
  · exact Nat.le_of_lt hlt
  · exact Nat.le_of_eq heq

theorem pairwise_eventsFrom (k : Nat) (ls : List Text) :
    (eventsFrom k ls).Pairwise EventOrder := by
  induction ls generalizing k with
  | nil => exact List.Pairwise.nil
  | cons l ls ih =>
    rw [eventsFrom_cons, List.pairwise_append, List.pairwise_map]
    refine ⟨?_, ih (k + 1), ?_⟩
    · exact (MarkerEvent.lineSpells_ofLine l.trim).pairwise.imp fun h => .inr ⟨rfl, h⟩
    · intro a ha b hb
      obtain ⟨e, _, rfl⟩ := List.mem_map.1 ha
      exact .inl (le_of_mem_eventsFrom hb)

theorem pairwise_events (s : Text) : (MarkerEvent.ofLines s.lines).Pairwise EventOrder :=
  pairwise_eventsFrom 1 s.lines

/-! ### The latest open marker of a key -/

theorem takeOpen_eq_some {key : MarkerKey} {m : OpenMarker} {ms others : List OpenMarker}
    (h : takeOpen key ms = some (m, others)) : ∃ xs ys, ms = xs ++ m :: ys ∧ others = xs ++ ys ∧
      m.key = key ∧ ∀ x ∈ xs, x.key ≠ key := by
  induction ms generalizing others with
  | nil => simp [takeOpen] at h
  | cons a ms ih =>
    by_cases ha : a.key = key
    · simp only [takeOpen, ha, if_true, Option.some.injEq, Prod.mk.injEq] at h
      obtain ⟨rfl, rfl⟩ := h
      exact ⟨[], ms, rfl, rfl, ha, fun x hx => absurd hx List.not_mem_nil⟩
    · simp only [takeOpen, ha, if_false] at h
      obtain ⟨⟨c, rest⟩, hc, heq⟩ := Option.map_eq_some_iff.1 h
      simp only [Prod.mk.injEq] at heq
      obtain ⟨rfl, rfl⟩ := heq
      obtain ⟨xs, ys, rfl, rfl, hkey, hxs⟩ := ih hc
      exact ⟨a :: xs, ys, rfl, rfl, hkey, List.forall_mem_cons.2 ⟨ha, hxs⟩⟩

theorem takeOpen_eq_none {key : MarkerKey} {ms : List OpenMarker}
    (h : takeOpen key ms = none) : ∀ m ∈ ms, m.key ≠ key := by
  intro m hm hk
  obtain ⟨r, hr⟩ := exists_takeOpen hm hk
  rw [h] at hr
  exact absurd hr (by simp)

/-! ### What pairs are made of -/

def Text.markerPairs (s : Text) : List MarkerPair :=
  (pairMarkers (MarkerEvent.ofLines s.lines) []).1

theorem mem_scan_blocks {s : Text} {b : Block} :
    b ∈ (Scan.ofText s).blocks ↔ ∃ p ∈ s.markerPairs, p.block = b := by
  have hblocks : (Scan.ofText s).blocks = Block.sort (s.markerPairs.map MarkerPair.block) := rfl
  rw [hblocks, Block.mem_sort, List.mem_map]

/-- A pair is made of an event that opens its key and a later event that closes it. -/
theorem exists_events_of_mem_pairs {es : List (MarkerEvent × Nat)} {pending : List OpenMarker}
    {p : MarkerPair} (h : p ∈ (pairMarkers es pending).1) :
    ∃ as bs, es = as ++ (.closes p.key, p.stop) :: bs ∧
      ((.opens p.key, p.start) ∈ as ∨ ⟨p.key, p.start⟩ ∈ pending) := by
  induction es generalizing pending with
  | nil => exact absurd h List.not_mem_nil
  | cons e es ih =>
    obtain ⟨event, i⟩ := e
    cases event with
    | opens key =>
      obtain ⟨as, bs, rfl, hopen⟩ := ih h
      refine ⟨_ :: as, bs, rfl, ?_⟩
      rcases hopen with hmem | hmem
      · exact .inl (List.mem_cons_of_mem _ hmem)
      · rcases List.mem_cons.1 hmem with heq | hmem
        · obtain ⟨hkey, hline⟩ := OpenMarker.mk.inj heq
          rw [hkey, hline]
          exact .inl (List.mem_cons_self ..)
        · exact .inr hmem
    | closes key =>
      rw [pairMarkers] at h
      cases htake : takeOpen key pending with
      | none =>
        rw [htake] at h
        obtain ⟨as, bs, rfl, hopen⟩ := ih h
        exact ⟨_ :: as, bs, rfl, hopen.imp_left (List.mem_cons_of_mem _)⟩
      | some r =>
        obtain ⟨m, others⟩ := r
        rw [htake] at h
        obtain ⟨xs, ys, rfl, rfl, hkey, _⟩ := takeOpen_eq_some htake
        rcases List.mem_cons.1 h with rfl | h
        · refine ⟨[], es, rfl, .inr ?_⟩
          rw [← hkey]
          exact List.mem_append_right _ (List.mem_cons_self ..)
        · obtain ⟨as, bs, rfl, hopen⟩ := ih h
          refine ⟨_ :: as, bs, rfl, hopen.imp (List.mem_cons_of_mem _) fun hmem => ?_⟩
          rcases List.mem_append.1 hmem with hx | hy
          · exact List.mem_append_left _ hx
          · exact List.mem_append_right _ (List.mem_cons_of_mem _ hy)

theorem events_of_mem_markerPairs {s : Text} {p : MarkerPair} (h : p ∈ s.markerPairs) :
    (.opens p.key, p.start) ∈ MarkerEvent.ofLines s.lines ∧
      (.closes p.key, p.stop) ∈ MarkerEvent.ofLines s.lines ∧ p.start ≤ p.stop := by
  obtain ⟨as, bs, hevents, hopen⟩ := exists_events_of_mem_pairs h
  have hopen : (.opens p.key, p.start) ∈ as := hopen.resolve_right List.not_mem_nil
  have horder := pairwise_events s
  rw [hevents] at horder ⊢
  exact ⟨List.mem_append_left _ hopen, by simp,
    ((List.pairwise_append.1 horder).2.2 _ hopen _ (List.mem_cons_self ..)).le⟩

/-- Every pair of the line scan stands in the text on its lines. -/
theorem exists_bracketing_of_mem {s : Text} {p : MarkerPair} (h : p ∈ s.markerPairs) :
    ∃ b : Bracketing p.key.dialect p.key.name s,
      b.before.lineNumber = p.start ∧ b.through.lineNumber = p.stop := by
  obtain ⟨hopen, hclose, hle⟩ := events_of_mem_markerPairs h
  exact exists_bracketing_of_events hopen hclose hle

/-- The markers that stay open were opened by events. -/
theorem opens_of_mem_left {es : List (MarkerEvent × Nat)} {pending : List OpenMarker}
    {m : OpenMarker} (h : m ∈ (pairMarkers es pending).2) :
    (.opens m.key, m.line) ∈ es ∨ m ∈ pending := by
  induction es generalizing pending with
  | nil => exact .inr h
  | cons e es ih =>
    obtain ⟨event, i⟩ := e
    cases event with
    | opens key =>
      rcases ih h with hmem | hmem
      · exact .inl (List.mem_cons_of_mem _ hmem)
      · rcases List.mem_cons.1 hmem with rfl | hmem
        · exact .inl (List.mem_cons_self ..)
        · exact .inr hmem
    | closes key =>
      rw [pairMarkers] at h
      cases htake : takeOpen key pending with
      | none =>
        rw [htake] at h
        exact (ih h).imp_left (List.mem_cons_of_mem _)
      | some r =>
        obtain ⟨found, others⟩ := r
        rw [htake] at h
        obtain ⟨xs, ys, rfl, rfl, _, _⟩ := takeOpen_eq_some htake
        refine (ih h).imp (List.mem_cons_of_mem _) fun hmem => ?_
        rcases List.mem_append.1 hmem with hx | hy
        · exact List.mem_append_left _ hx
        · exact List.mem_append_right _ (List.mem_cons_of_mem _ hy)

/-! ### Lines on which pairs start -/

def openLines (es : List (MarkerEvent × Nat)) : List Nat :=
  es.filterMap fun e => match e.1 with
    | .opens _ => some e.2
    | .closes _ => none

/-- Every opening marker is the start of one pair or stays open. -/
theorem starts_perm (es : List (MarkerEvent × Nat)) (pending : List OpenMarker) :
    ((pairMarkers es pending).1.map MarkerPair.start ++
        (pairMarkers es pending).2.map OpenMarker.line).Perm
      (openLines es ++ pending.map OpenMarker.line) := by
  induction es generalizing pending with
  | nil => exact List.Perm.refl _
  | cons e es ih =>
    obtain ⟨event, i⟩ := e
    cases event with
    | opens key =>
      have hlines : openLines ((.opens key, i) :: es) = i :: openLines es := rfl
      rw [hlines]
      exact (ih (⟨key, i⟩ :: pending)).trans List.perm_middle
    | closes key =>
      have hlines : openLines ((.closes key, i) :: es) = openLines es := rfl
      rw [hlines, pairMarkers]
      cases htake : takeOpen key pending with
      | none => exact ih pending
      | some r =>
        obtain ⟨m, others⟩ := r
        obtain ⟨xs, ys, rfl, rfl, _, _⟩ := takeOpen_eq_some htake
        have hothers : ((xs ++ m :: ys).map OpenMarker.line).Perm
            (m.line :: (xs ++ ys).map OpenMarker.line) :=
          (List.perm_middle (a := m)).map OpenMarker.line
        refine ((ih (xs ++ ys)).cons m.line).trans ?_
        exact (List.perm_middle.symm).trans (hothers.symm.append_left _)

theorem pairwise_openLines (s : Text) :
    (openLines (MarkerEvent.ofLines s.lines)).Pairwise (· < ·) := by
  refine (pairwise_events s).filterMap _ fun a b hab i hi j hj => ?_
  obtain ⟨ea, la⟩ := a
  obtain ⟨eb, lb⟩ := b
  cases ea with
  | closes k => simp at hi
  | opens k =>
    cases eb with
    | closes k' => simp at hj
    | opens k' =>
      obtain rfl : la = i := by simpa using hi
      obtain rfl : lb = j := by simpa using hj
      rcases hab with hlt | ⟨_, _, _, _, heq⟩
      · exact hlt
      · exact absurd heq (by simp)

theorem nodup_starts (s : Text) : (s.markerPairs.map MarkerPair.start).Nodup := by
  have hperm := starts_perm (MarkerEvent.ofLines s.lines) []
  have hnodup : (openLines (MarkerEvent.ofLines s.lines)).Nodup :=
    (pairwise_openLines s).imp Nat.ne_of_lt
  rw [List.map_nil, List.append_nil] at hperm
  exact (List.nodup_append.1 (hperm.nodup_iff.2 hnodup)).1

/-- At most one pair starts on a line. -/
theorem start_inj {s : Text} {p q : MarkerPair} (hp : p ∈ s.markerPairs) (hq : q ∈ s.markerPairs)
    (h : p.start = q.start) : p = q :=
  List.inj_on_of_nodup_map (nodup_starts s) hp hq h

end TemplateBlocks
