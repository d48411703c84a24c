import TemplateBlocks.Proofs.Matching

/-!
# The order of scanned blocks

A line opens at most one block and closes at most one, and a closing marker takes the latest open
marker of its key. So no two blocks of a scan start on one line or end on one, and two blocks with
the same markers lie apart or one strictly within the other (`scan_in_order`). The last fact is one
about brackets alone (`Bracket.pairwise_matching`).
-/

namespace TemplateBlocks

/-! ### Matched brackets -/

namespace Bracket

def line : Bracket → Nat
  | opening n => n
  | closing n => n

/-- Brackets stand on increasing lines, but one may be closed on the line that opens it. -/
def Before (a b : Bracket) : Prop := a.line < b.line ∨ ∃ n, a = opening n ∧ b = closing n

variable {a b : Bracket} {bs : List Bracket} {pending : List Nat} {i j n : Nat}

theorem Before.le (h : Before a b) : a.line ≤ b.line := by
  rcases h with hlt | ⟨n, rfl, rfl⟩
  · exact hlt.le
  · exact Nat.le_refl n

theorem Before.lt_of_opening (h : Before a (opening n)) : a.line < n := by
  rcases h with hlt | ⟨m, _, hclose⟩
  · exact hlt
  · exact absurd hclose (by simp)

theorem Before.lt_of_closing (h : Before (closing n) b) : n < b.line := by
  rcases h with hlt | ⟨m, hopen, _⟩
  · exact hlt
  · exact absurd hopen (by simp)

theorem mem_of_mem_matching (h : (i, j) ∈ (matching bs pending).closed) :
    closing j ∈ bs ∧ (opening i ∈ bs ∨ i ∈ pending) := by
  induction bs generalizing pending with
  | nil => exact absurd h List.not_mem_nil
  | cons b bs ih =>
    cases b with
    | opening n =>
      obtain ⟨hclose, hopen⟩ := ih h
      refine ⟨List.mem_cons_of_mem _ hclose, ?_⟩
      rcases hopen with hopen | hi
      · exact .inl (List.mem_cons_of_mem _ hopen)
      · rcases List.mem_cons.1 hi with rfl | hi
        · exact .inl (List.mem_cons_self ..)
        · exact .inr hi
    | closing n =>
      cases pending with
      | nil =>
        obtain ⟨hclose, hopen⟩ := ih h
        exact ⟨List.mem_cons_of_mem _ hclose, hopen.imp_left (List.mem_cons_of_mem _)⟩
      | cons m pending =>
        rcases List.mem_cons.1 h with heq | h
        · obtain ⟨rfl, rfl⟩ := Prod.mk.inj heq
          exact ⟨List.mem_cons_self .., .inr (List.mem_cons_self ..)⟩
        · obtain ⟨hclose, hopen⟩ := ih h
          exact ⟨List.mem_cons_of_mem _ hclose,
            hopen.imp (List.mem_cons_of_mem _) (List.mem_cons_of_mem _)⟩

/-- Of two matched brackets the one that is closed first ends before the other one starts, or lies
strictly within it. The open lines are kept in decreasing order, all of them in front of the
brackets to come. -/
theorem pairwise_matching (hbs : bs.Pairwise Before) (hpending : pending.Pairwise fun m k => k < m)
    (hfront : ∀ m ∈ pending, ∀ n, opening n ∈ bs → m < n) :
    (matching bs pending).closed.Pairwise fun p q => p.2 < q.2 ∧ (p.2 < q.1 ∨ q.1 < p.1) := by
  induction bs generalizing pending with
  | nil => exact List.Pairwise.nil
  | cons b bs ih =>
    obtain ⟨hb, hmore⟩ := List.pairwise_cons.1 hbs
    have hrest : ∀ m ∈ pending, ∀ n, opening n ∈ bs → m < n := fun m hm n hn =>
      hfront m hm n (List.mem_cons_of_mem _ hn)
    cases b with
    | opening n =>
      have hlast : ∀ m ∈ pending, m < n := fun m hm => hfront m hm n (List.mem_cons_self ..)
      refine ih hmore (List.pairwise_cons.2 ⟨hlast, hpending⟩) ?_
      exact List.forall_mem_cons.2 ⟨fun k hk => (hb _ hk).lt_of_opening, hrest⟩
    | closing n =>
      cases pending with
      | nil => exact ih hmore hpending hrest
      | cons m pending =>
        obtain ⟨hm, hpending⟩ := List.pairwise_cons.1 hpending
        refine List.pairwise_cons.2 ⟨fun q hq => ?_,
          ih hmore hpending (List.forall_mem_cons.1 hrest).2⟩
        obtain ⟨hclose, hopen⟩ := mem_of_mem_matching hq
        refine ⟨(hb _ hclose).lt_of_closing, ?_⟩
        rcases hopen with hopen | hq
        · exact .inl (hb _ hopen).lt_of_closing
        · exact .inr (hm _ hq)

end Bracket

/-! ### Lines of events -/

variable {s : Text} {es : List (MarkerEvent × Nat)} {pending : List OpenMarker}

def closeLines (es : List (MarkerEvent × Nat)) : List Nat :=
  es.filterMap fun e => match e.1 with
    | .opens _ => none
    | .closes _ => some e.2

theorem pairwise_closeLines (s : Text) :
    (closeLines (MarkerEvent.ofLines s.lines)).Pairwise (· < ·) := by
  refine (pairwise_events s).filterMap _ fun a b hab i hi j hj => ?_
  obtain ⟨ea, la⟩ := a
  obtain ⟨eb, lb⟩ := b
  cases ea with
  | opens k => simp at hi
  | closes k =>
    cases eb with
    | opens k' => simp at hj
    | closes k' =>
      obtain rfl : la = i := by simpa using hi
      obtain rfl : lb = j := by simpa using hj
      rcases hab with hlt | ⟨_, _, _, heq, _⟩
      · exact hlt
      · exact absurd heq (by simp)

theorem pairwise_brackets (s : Text) (key : MarkerKey) :
    (key.brackets (MarkerEvent.ofLines s.lines)).Pairwise Bracket.Before := by
  refine List.pairwise_map.2 (((pairwise_events s).filter _).imp fun {a b} hab => ?_)
  obtain ⟨ea, la⟩ := a
  obtain ⟨eb, lb⟩ := b
  rcases hab with hlt | ⟨rfl, _, _, rfl, rfl⟩
  · left
    cases ea with
    | opens k => cases eb with
      | opens k' => exact hlt
      | closes k' => exact hlt
    | closes k => cases eb with
      | opens k' => exact hlt
      | closes k' => exact hlt
  · exact .inr ⟨_, rfl, rfl⟩

theorem line_of_mem_events {e : MarkerEvent} {i : Nat}
    (h : (e, i) ∈ MarkerEvent.ofLines s.lines) : 1 ≤ i ∧ i ≤ s.lines.length := by
  obtain ⟨hle, l, hget, _⟩ := mem_eventsFrom_iff.1 h
  obtain ⟨hlt, _⟩ := List.getElem?_eq_some_iff.1 hget
  omega

/-! ### Pairs in order -/

/-- Pairs are listed in the order in which they are closed. -/
theorem stops_sublist (es : List (MarkerEvent × Nat)) (pending : List OpenMarker) :
    ((pairMarkers es pending).1.map MarkerPair.stop).Sublist (closeLines es) := by
  induction es generalizing pending with
  | nil => exact List.Sublist.slnil
  | cons e es ih =>
    obtain ⟨event, i⟩ := e
    cases event with
    | opens key => exact ih _
    | closes key =>
      have hlines : closeLines ((.closes key, i) :: es) = i :: closeLines es := rfl
      rw [hlines, pairMarkers]
      cases takeOpen key pending with
      | none => exact (ih pending).cons i
      | some r => exact (ih r.2).cons_cons i

/-- The markers that stay open are left in the order in which they were opened. -/
theorem left_sublist (es : List (MarkerEvent × Nat)) (pending : List OpenMarker) :
    ((pairMarkers es pending).2.reverse.map OpenMarker.line).Sublist
      (pending.reverse.map OpenMarker.line ++ openLines es) := by
  induction es generalizing pending with
  | nil => simp [pairMarkers, openLines]
  | cons e es ih =>
    obtain ⟨event, i⟩ := e
    cases event with
    | opens key =>
      have hnext := ih (⟨key, i⟩ :: pending)
      rw [List.reverse_cons, List.map_append, List.append_assoc] at hnext
      exact hnext
    | closes key =>
      have hlines : openLines ((.closes key, i) :: es) = openLines es := rfl
      rw [hlines, pairMarkers]
      cases htake : takeOpen key pending with
      | none => exact ih pending
      | some r =>
        obtain ⟨m, others⟩ := r
        obtain ⟨xs, ys, rfl, rfl, _, _⟩ := takeOpen_eq_some htake
        have hothers : (xs ++ ys).Sublist (xs ++ m :: ys) :=
          (List.Sublist.refl xs).append (List.sublist_cons_self m ys)
        exact (ih (xs ++ ys)).trans ((hothers.reverse.map _).append (List.Sublist.refl _))

/-- When they have the same markers, the pairs share no line or one lies strictly within the other. -/
def MarkerPair.Laminar (p q : MarkerPair) : Prop := p.key = q.key →
  p.stop < q.start ∨ q.stop < p.start ∨ (p.start < q.start ∧ q.stop < p.stop) ∨
    (q.start < p.start ∧ p.stop < q.stop)

theorem MarkerPair.Laminar.symm {p q : MarkerPair} (h : p.Laminar q) : q.Laminar p := by
  intro hkey
  have hcases := h hkey.symm
  omega

theorem pairwise_laminar (s : Text) : s.markerPairs.Pairwise MarkerPair.Laminar := by
  refine List.pairwise_iff_forall_sublist.2 fun {p q} hsub hkey => ?_
  have hmatching := Bracket.pairwise_matching (pairwise_brackets s q.key) List.Pairwise.nil
    fun m hm => absurd hm List.not_mem_nil
  rw [pairMarkers_matching_nil] at hmatching
  have hpairs : [(p.start, p.stop), (q.start, q.stop)].Sublist (q.key.pairsIn s.markerPairs) := by
    have hown := (hsub.filter fun r => r.key = q.key).map fun r => (r.start, r.stop)
    simpa [hkey, MarkerKey.pairsIn] using hown
  have hpq := hmatching.sublist hpairs
  rw [List.pairwise_pair] at hpq
  omega

theorem nodup_stops (s : Text) : (s.markerPairs.map MarkerPair.stop).Nodup :=
  ((pairwise_closeLines s).imp Nat.ne_of_lt).sublist (stops_sublist _ [])

theorem range_of_mem_markerPairs {p : MarkerPair} (h : p ∈ s.markerPairs) :
    1 ≤ p.start ∧ p.start ≤ p.stop ∧ p.stop ≤ s.lines.length := by
  obtain ⟨hopen, hclose, hle⟩ := events_of_mem_markerPairs h
  exact ⟨(line_of_mem_events hopen).1, hle, (line_of_mem_events hclose).2⟩

theorem pairwise_unclosed (s : Text) :
    (Scan.ofText s).unclosed.Pairwise fun m n => m.line < n.line := by
  have hleft := left_sublist (MarkerEvent.ofLines s.lines) []
  rw [List.reverse_nil, List.map_nil, List.nil_append] at hleft
  exact List.pairwise_map.1 ((pairwise_openLines s).sublist hleft)

/-- A line that opens a pair has no marker that stays open. -/
theorem start_ne_of_mem_unclosed {p : MarkerPair} {m : OpenMarker} (hp : p ∈ s.markerPairs)
    (hm : m ∈ (Scan.ofText s).unclosed) : p.start ≠ m.line := by
  have hperm := starts_perm (MarkerEvent.ofLines s.lines) []
  rw [List.map_nil, List.append_nil] at hperm
  have hnodup := hperm.nodup_iff.2 ((pairwise_openLines s).imp Nat.ne_of_lt)
  have hleft : m ∈ (pairMarkers (MarkerEvent.ofLines s.lines) []).2 := List.mem_reverse.1 hm
  exact (List.nodup_append.1 hnodup).2.2 _ (List.mem_map_of_mem hp) _ (List.mem_map_of_mem hleft)

/-! ### The scan -/

theorem pairwise_scan_starts (s : Text) :
    (Scan.ofText s).blocks.Pairwise fun a b => a.start < b.start := by
  obtain ⟨pairs, hblocks, _, hsorted⟩ := exists_sorted_pairs s
  rw [hblocks]
  exact List.pairwise_map.2 hsorted

/-- The blocks of a scan start on increasing lines and end on different ones, all of them lines of
the text. The open markers stand on increasing lines too, none of which starts a block. Two blocks
with the same markers share no line, or the later one lies strictly within the earlier one. -/
theorem scan_in_order (s : Text) :
    ((Scan.ofText s).blocks.Pairwise fun a b => a.start < b.start) ∧
    ((Scan.ofText s).blocks.Pairwise fun a b => a.stop ≠ b.stop) ∧
    (∀ b ∈ (Scan.ofText s).blocks, 1 ≤ b.start ∧ b.start ≤ b.stop ∧ b.stop ≤ s.lines.length) ∧
    ((Scan.ofText s).unclosed.Pairwise fun m n => m.line < n.line) ∧
    (∀ m ∈ (Scan.ofText s).unclosed, ∀ b ∈ (Scan.ofText s).blocks, b.start ≠ m.line) ∧
    ∃ pairs : List MarkerPair, (Scan.ofText s).blocks = pairs.map MarkerPair.block ∧
      pairs.Perm s.markerPairs ∧ pairs.Pairwise fun p q => p.key = q.key →
        p.stop < q.start ∨ (p.start < q.start ∧ q.stop < p.stop) := by
  obtain ⟨pairs, hblocks, hperm, hsorted⟩ := exists_sorted_pairs s
  refine ⟨pairwise_scan_starts s, ?_, fun b hb => ?_, pairwise_unclosed s, fun m hm b hb => ?_,
    pairs, hblocks, hperm, ?_⟩
  · rw [hblocks]
    exact List.pairwise_map.2 (List.pairwise_map.1 ((hperm.map _).nodup_iff.2 (nodup_stops s)))
  · obtain ⟨p, hp, rfl⟩ := mem_scan_blocks.1 hb
    exact range_of_mem_markerPairs hp
  · obtain ⟨p, hp, rfl⟩ := mem_scan_blocks.1 hb
    exact start_ne_of_mem_unclosed hp hm
  · have hlaminar := (hperm.pairwise_iff MarkerPair.Laminar.symm).2 (pairwise_laminar s)
    refine (hlaminar.and hsorted).imp_of_mem fun {p q} hp hq hpq hkey => ?_
    have hrange := range_of_mem_markerPairs (hperm.subset hq)
    have hcases := hpq.1 hkey
    omega

end TemplateBlocks
