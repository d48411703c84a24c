import TemplateBlocks.Proofs.Pairing

/-!
# Matching the markers of one key

The markers of all keys are paired on one list of open markers, from which a closing marker takes
the latest one of its key. For every key this is the same as matching its own markers alone, so that
the last one opened is the first one closed (`pairMarkers_matching`). The scan of a text only sorts
the pairs and gives them the names of their blocks (`scan_matches_by_key`).
-/

namespace TemplateBlocks

/-! ### Brackets -/

inductive Bracket
  | opening (line : Nat)
  | closing (line : Nat)
  deriving DecidableEq, Repr

/-- Brackets matched with each other, and the opening brackets that are left, the latest first. -/
structure Matching where
  closed : List (Nat × Nat)
  left : List Nat
  deriving DecidableEq, Repr

namespace Bracket

/-- A closing bracket matches the last opening one that is not matched yet, if there is any. -/
def matching : List Bracket → List Nat → Matching
  | [], pending => ⟨[], pending⟩
  | opening n :: bs, pending => matching bs (n :: pending)
  | closing _ :: bs, [] => matching bs []
  | closing n :: bs, m :: pending =>
    let found := matching bs pending
    ⟨(m, n) :: found.closed, found.left⟩

theorem mem_matching_adjacent (i j : Nat) (as bs : List Bracket) (pending : List Nat) :
    (i, j) ∈ (matching (as ++ opening i :: closing j :: bs) pending).closed := by
  induction as generalizing pending with
  | nil => exact List.mem_cons_self ..
  | cons a as ih =>
    cases a with
    | opening n => exact ih (n :: pending)
    | closing n =>
      cases pending with
      | nil => exact ih []
      | cons m pending => exact List.mem_cons_of_mem _ (ih pending)

end Bracket

/-! ### The markers of one key -/

def MarkerEvent.bracket (n : Nat) : MarkerEvent → Bracket
  | opens _ => .opening n
  | closes _ => .closing n

namespace MarkerKey

/-- The events of one key alone. -/
def brackets (key : MarkerKey) (es : List (MarkerEvent × Nat)) : List Bracket :=
  (es.filter fun e => e.1.key = key).map fun e => e.1.bracket e.2

def pairsIn (key : MarkerKey) (ps : List MarkerPair) : List (Nat × Nat) :=
  (ps.filter fun p => p.key = key).map fun p => (p.start, p.stop)

def linesIn (key : MarkerKey) (ms : List OpenMarker) : List Nat :=
  (ms.filter fun m => m.key = key).map OpenMarker.line

variable {key other : MarkerKey} {ms others : List OpenMarker} {m : OpenMarker}

@[simp] theorem brackets_append (as bs : List (MarkerEvent × Nat)) :
    key.brackets (as ++ bs) = key.brackets as ++ key.brackets bs := by
  simp [brackets]

@[simp] theorem brackets_opens (n : Nat) (es : List (MarkerEvent × Nat)) :
    key.brackets ((.opens other, n) :: es) =
      if other = key then .opening n :: key.brackets es else key.brackets es := by
  by_cases h : other = key
  · simp [brackets, MarkerEvent.key, MarkerEvent.bracket, h]
  · simp [brackets, MarkerEvent.key, h]

@[simp] theorem brackets_closes (n : Nat) (es : List (MarkerEvent × Nat)) :
    key.brackets ((.closes other, n) :: es) =
      if other = key then .closing n :: key.brackets es else key.brackets es := by
  by_cases h : other = key
  · simp [brackets, MarkerEvent.key, MarkerEvent.bracket, h]
  · simp [brackets, MarkerEvent.key, h]

theorem brackets_eq_nil {es : List (MarkerEvent × Nat)} (h : ∀ e ∈ es, e.1.key ≠ key) :
    key.brackets es = [] := by
  rw [brackets, List.filter_eq_nil_iff.2 fun e he => by simpa using h e he]
  rfl

@[simp] theorem pairsIn_cons (p : MarkerPair) (ps : List MarkerPair) : key.pairsIn (p :: ps) =
    if p.key = key then (p.start, p.stop) :: key.pairsIn ps else key.pairsIn ps := by
  by_cases h : p.key = key
  · simp [pairsIn, h]
  · simp [pairsIn, h]

@[simp] theorem linesIn_cons (m : OpenMarker) (ms : List OpenMarker) : key.linesIn (m :: ms) =
    if m.key = key then m.line :: key.linesIn ms else key.linesIn ms := by
  by_cases h : m.key = key
  · simp [linesIn, h]
  · simp [linesIn, h]

theorem linesIn_append (ms others : List OpenMarker) :
    key.linesIn (ms ++ others) = key.linesIn ms ++ key.linesIn others := by
  simp [linesIn]

theorem linesIn_reverse (ms : List OpenMarker) :
    key.linesIn ms.reverse = (key.linesIn ms).reverse := by
  simp [linesIn]

theorem linesIn_eq_nil_iff : key.linesIn ms = [] ↔ ∀ m ∈ ms, m.key ≠ key := by
  simp [linesIn]

theorem mem_pairsIn {ps : List MarkerPair} {i j : Nat} (h : (i, j) ∈ key.pairsIn ps) :
    ⟨key, i, j⟩ ∈ ps := by
  obtain ⟨p, hfiltered, heq⟩ := List.mem_map.1 h
  obtain ⟨hp, hkey⟩ := List.mem_filter.1 hfiltered
  obtain ⟨rfl, rfl⟩ := Prod.mk.inj heq
  obtain rfl : p.key = key := by simpa using hkey
  exact hp

/-- Taking an open marker of one key takes the latest of its lines and leaves the other keys. -/
theorem linesIn_of_takeOpen (h : takeOpen other ms = some (m, others)) : key.linesIn ms =
    if other = key then m.line :: key.linesIn others else key.linesIn others := by
  obtain ⟨xs, ys, rfl, rfl, hkey, hxs⟩ := takeOpen_eq_some h
  rw [linesIn_append, linesIn_append, linesIn_cons, hkey]
  by_cases hother : other = key
  · rw [hother] at hxs
    rw [if_pos hother, if_pos hother, linesIn_eq_nil_iff.2 hxs]
    rfl
  · rw [if_neg hother, if_neg hother]

end MarkerKey

/-! ### Pairing by keys -/

/-- The pairs of a key and its markers that stay open are those of its own events. -/
theorem pairMarkers_matching (key : MarkerKey) (es : List (MarkerEvent × Nat))
    (pending : List OpenMarker) :
    Bracket.matching (key.brackets es) (key.linesIn pending) =
      ⟨key.pairsIn (pairMarkers es pending).1, key.linesIn (pairMarkers es pending).2⟩ := by
  induction es generalizing pending with
  | nil => rfl
  | cons e es ih =>
    obtain ⟨event, i⟩ := e
    cases event with
    | opens other =>
      have hnext := ih (⟨other, i⟩ :: pending)
      rw [MarkerKey.linesIn_cons] at hnext
      rw [MarkerKey.brackets_opens, pairMarkers, ← hnext]
      by_cases hkey : other = key
      · rw [if_pos hkey, if_pos hkey, Bracket.matching]
      · rw [if_neg hkey, if_neg hkey]
    | closes other =>
      rw [MarkerKey.brackets_closes, pairMarkers]
      cases htake : takeOpen other pending with
      | none =>
        have hnone := takeOpen_eq_none htake
        rw [← ih pending]
        by_cases hkey : other = key
        · rw [hkey] at hnone
          rw [if_pos hkey, MarkerKey.linesIn_eq_nil_iff.2 hnone, Bracket.matching]
        · rw [if_neg hkey]
      | some r =>
        obtain ⟨m, others⟩ := r
        have hnext := ih others
        rw [MarkerKey.linesIn_of_takeOpen htake, MarkerKey.pairsIn_cons]
        by_cases hkey : other = key
        · rw [if_pos hkey, if_pos hkey, if_pos hkey, Bracket.matching, hnext]
        · rw [if_neg hkey, if_neg hkey, if_neg hkey, hnext]

theorem pairMarkers_matching_nil (key : MarkerKey) (es : List (MarkerEvent × Nat)) :
    Bracket.matching (key.brackets es) [] =
      ⟨key.pairsIn (pairMarkers es []).1, key.linesIn (pairMarkers es []).2⟩ :=
  pairMarkers_matching key es []

theorem pairMarkers_append (as bs : List (MarkerEvent × Nat)) (pending : List OpenMarker) :
    pairMarkers (as ++ bs) pending =
      ((pairMarkers as pending).1 ++ (pairMarkers bs (pairMarkers as pending).2).1,
        (pairMarkers bs (pairMarkers as pending).2).2) := by
  induction as generalizing pending with
  | nil => rfl
  | cons a as ih =>
    obtain ⟨event, i⟩ := a
    cases event with
    | opens key => exact ih _
    | closes key =>
      rw [List.cons_append, pairMarkers, pairMarkers]
      cases takeOpen key pending with
      | none => exact ih pending
      | some r => simp [ih r.2]

/-- A closing marker of a key that has no open marker changes nothing. -/
theorem pairMarkers_stray {key : MarkerKey} {as : List (MarkerEvent × Nat)}
    (h : (Bracket.matching (key.brackets as) []).left = []) (n : Nat)
    (bs : List (MarkerEvent × Nat)) :
    pairMarkers (as ++ (.closes key, n) :: bs) [] = pairMarkers (as ++ bs) [] := by
  have hleft : key.linesIn (pairMarkers as []).2 = [] := by
    rw [← h, pairMarkers_matching_nil]
  have hnone : takeOpen key (pairMarkers as []).2 = none := by
    refine Option.eq_none_iff_forall_ne_some.2 fun r hr => ?_
    obtain ⟨xs, ys, hms, _, hkey, _⟩ := takeOpen_eq_some hr
    refine MarkerKey.linesIn_eq_nil_iff.1 hleft r.1 ?_ hkey
    rw [hms]
    exact List.mem_append_right _ (List.mem_cons_self ..)
  rw [pairMarkers_append, pairMarkers_append, pairMarkers, hnone]

/-- The pairs of a text in the order of the lines they start on. -/
theorem exists_sorted_pairs (s : Text) : ∃ pairs : List MarkerPair,
    (Scan.ofText s).blocks = pairs.map MarkerPair.block ∧ pairs.Perm s.markerPairs ∧
      pairs.Pairwise fun p q => p.start < q.start := by
  let before : MarkerPair → MarkerPair → Bool := fun p q => p.start ≤ q.start
  let earlier : Block → Block → Bool := fun a b => a.start ≤ b.start
  have hblocks : (Scan.ofText s).blocks =
      (s.markerPairs.mergeSort before).map MarkerPair.block := by
    have hsort : ∀ p ∈ s.markerPairs, ∀ q ∈ s.markerPairs,
        before p q = earlier p.block q.block := fun _ _ _ _ => rfl
    rw [List.map_mergeSort hsort]
    rfl
  have hperm : (s.markerPairs.mergeSort before).Perm s.markerPairs := List.mergeSort_perm ..
  have hsorted : (s.markerPairs.mergeSort before).Pairwise fun p q => before p q = true :=
    List.pairwise_mergeSort (fun p q r => by simpa [before] using Nat.le_trans)
      (fun p q => by simpa [before] using Nat.le_total p.start q.start) _
  have hnodup := (hperm.map MarkerPair.start).nodup_iff.2 (nodup_starts s)
  rw [List.nodup_iff_pairwise_ne, List.pairwise_map] at hnodup
  exact ⟨_, hblocks, hperm, (hsorted.and hnodup).imp fun h =>
    Nat.lt_of_le_of_ne (by simpa [before] using h.1) h.2⟩

/-- The blocks and the open markers of a key are those that matching its own events yields, and
nothing else changes them: no events of other keys, and no closing marker without an open one. -/
theorem scan_matches_by_key (s : Text) :
    (MarkerEvent.ofLines s.lines).Pairwise EventOrder ∧
    (∃ pairs : List MarkerPair, (Scan.ofText s).blocks = pairs.map MarkerPair.block ∧
      (pairs.Pairwise fun p q => p.start < q.start) ∧ ∀ key : MarkerKey, (key.pairsIn pairs).Perm
        (Bracket.matching (key.brackets (MarkerEvent.ofLines s.lines)) []).closed) ∧
    (∀ key : MarkerKey, key.linesIn (Scan.ofText s).unclosed =
      (Bracket.matching (key.brackets (MarkerEvent.ofLines s.lines)) []).left.reverse) ∧
    (∀ (key : MarkerKey) (es : List (MarkerEvent × Nat)),
      key.brackets es = key.brackets (MarkerEvent.ofLines s.lines) →
        key.pairsIn (pairMarkers es []).1 = key.pairsIn s.markerPairs ∧
        key.linesIn (pairMarkers es []).2.reverse = key.linesIn (Scan.ofText s).unclosed) ∧
    ∀ (key : MarkerKey) (as : List (MarkerEvent × Nat)) (n : Nat) (bs : List (MarkerEvent × Nat)),
      MarkerEvent.ofLines s.lines = as ++ (.closes key, n) :: bs →
      (Bracket.matching (key.brackets as) []).left = [] →
        pairMarkers (as ++ bs) [] = pairMarkers (MarkerEvent.ofLines s.lines) [] := by
  have hunclosed : (Scan.ofText s).unclosed =
      (pairMarkers (MarkerEvent.ofLines s.lines) []).2.reverse := rfl
  refine ⟨pairwise_events s, ?_, fun key => ?_, fun key es hes => ?_,
    fun key as n bs hsplit hleft => ?_⟩
  · obtain ⟨pairs, hblocks, hperm, hsorted⟩ := exists_sorted_pairs s
    refine ⟨pairs, hblocks, hsorted, fun key => ?_⟩
    rw [pairMarkers_matching_nil]
    exact (hperm.filter _).map _
  · rw [pairMarkers_matching_nil, hunclosed, MarkerKey.linesIn_reverse]
  · have hmatching := pairMarkers_matching_nil key (MarkerEvent.ofLines s.lines)
    rw [← hes, pairMarkers_matching_nil] at hmatching
    obtain ⟨hpairs, hleft⟩ := Matching.mk.inj hmatching
    rw [hunclosed, MarkerKey.linesIn_reverse, MarkerKey.linesIn_reverse, hleft]
    exact ⟨hpairs, rfl⟩
  · rw [hsplit, pairMarkers_stray hleft]

def interleavedMarkers : Text := Text.join ['\n']
  ["<!-- @block:a -->".toList, "<!-- NAV -->".toList, "<!-- @block:b -->".toList,
    "<!-- @endblock:a -->".toList, "<!-- @endblock:c -->".toList, "<!-- EO NAV -->".toList,
    "<!-- @block:a -->".toList, "<!-- @endblock:b -->".toList]

theorem scan_matches_interleaved :
    let a : MarkerKey := ⟨.directive, "a".toList⟩
    let c : MarkerKey := ⟨.directive, "c".toList⟩
    let nav : MarkerKey := ⟨.banner, "NAV".toList⟩
    let events := MarkerEvent.ofLines interleavedMarkers.lines
    (∃ pairs : List MarkerPair, (Scan.ofText interleavedMarkers).blocks =
        pairs.map MarkerPair.block ∧ (a.pairsIn pairs).Perm [(1, 4)]) ∧
    a.linesIn (Scan.ofText interleavedMarkers).unclosed = [7] ∧
    nav.pairsIn (pairMarkers [(.opens nav, 2), (.closes nav, 6)] []).1 =
      nav.pairsIn interleavedMarkers.markerPairs ∧
    ∃ as bs, events = as ++ (.closes c, 5) :: bs ∧
      pairMarkers (as ++ bs) [] = pairMarkers events [] := by
  intro a c nav events
  let b : MarkerKey := ⟨.directive, "b".toList⟩
  have hevents : events =
      [(.opens a, 1), (.opens nav, 2), (.opens b, 3), (.closes a, 4)] ++ (.closes c, 5) ::
        [(.closes nav, 6), (.opens a, 7), (.closes b, 8)] := by
    decide +kernel
  have hown : Bracket.matching (a.brackets events) [] = ⟨[(1, 4)], [7]⟩ := by
    rw [hevents]
    decide
  have hbanner : nav.brackets [(.opens nav, 2), (.closes nav, 6)] = nav.brackets events := by
    rw [hevents]
    decide
  obtain ⟨_, ⟨pairs, hblocks, _, hpairs⟩, hunclosed, hothers, hstray⟩ :=
    scan_matches_by_key interleavedMarkers
  have hpairs := hpairs a
  have hunclosed := hunclosed a
  rw [hown] at hpairs hunclosed
  exact ⟨⟨pairs, hblocks, hpairs⟩, hunclosed, (hothers nav _ hbanner).1,
    _, _, hevents, hstray c _ 5 _ hevents (by decide)⟩

end TemplateBlocks
