import TemplateBlocks.Proofs.MarkerLine

/-!
# Events of lines and their pairs

The line scan reads the events of each line and pairs them. Events keep the order of their lines
(`exists_append_of_events`), and of the blocks of the pairs each is outermost or lies within one
that is (`Block.mem_outermost_or`).
-/

namespace TemplateBlocks

/-! ### Events of lines -/

def PlainLine (l : Text) : Prop := '\n' ∉ l ∧ ¬ Marker.commentStart <:+: l

instance (l : Text) : Decidable (PlainLine l) :=
  inferInstanceAs (Decidable ('\n' ∉ l ∧ ¬ Marker.commentStart <:+: l))

def eventsFrom (k : Nat) (ls : List Text) : List (MarkerEvent × Nat) :=
  (ls.zipIdx k).flatMap fun (line, n) => (MarkerEvent.ofLine line.trim).map fun e => (e, n)

theorem eventsFrom_cons (k : Nat) (l : Text) (ls : List Text) : eventsFrom k (l :: ls) =
    (MarkerEvent.ofLine l.trim).map (fun e => (e, k)) ++ eventsFrom (k + 1) ls := by
  simp [eventsFrom]

theorem eventsFrom_append (k : Nat) (ls ms : List Text) :
    eventsFrom k (ls ++ ms) = eventsFrom k ls ++ eventsFrom (k + ls.length) ms := by
  induction ls generalizing k with
  | nil => simp [eventsFrom]
  | cons l ls ih =>
    have hk : k + (l :: ls).length = k + 1 + ls.length := by
      rw [List.length_cons]
      omega
    rw [List.cons_append, eventsFrom_cons, eventsFrom_cons, ih, hk, List.append_assoc]

theorem eventsFrom_plain {ls : List Text} (h : ∀ l ∈ ls, PlainLine l) (k : Nat) :
    eventsFrom k ls = [] := by
  induction ls generalizing k with
  | nil => rfl
  | cons l ls ih =>
    have hl := Marker.ofLine_trim_of_plain (h l (List.mem_cons_self ..)).2
    rw [eventsFrom_cons, hl, ih fun x hx => h x (List.mem_cons_of_mem l hx)]
    rfl

/-! ### Events in the order of their lines -/

theorem ofLine_opens_closes {key other : MarkerKey} {l : Text}
    (hopen : .opens key ∈ MarkerEvent.ofLine l) (hclose : .closes other ∈ MarkerEvent.ofLine l) :
    MarkerEvent.ofLine l = [.opens key, .closes other] := by
  unfold MarkerEvent.ofLine at hopen hclose ⊢
  split at hopen
  · rename_i name rest hread
    rw [hread] at hclose
    cases hend : rest.find (Marker.lastDirective Marker.closeWord) with
    | none => simp [hend] at hclose
    | some f =>
      simp only [hend, Option.map_some, Option.toList_some, List.mem_cons, MarkerEvent.opens.injEq,
        reduceCtorEq, List.not_mem_nil, or_false, false_or, MarkerEvent.closes.injEq]
        at hopen hclose
      simp [hopen, hclose]
  · rename_i hnone
    rw [hnone] at hclose
    split at hopen
    · simp at hopen
    · rename_i hclosing
      rw [hclosing] at hclose
      split at hopen
      · rename_i name hbanner
        rw [hbanner] at hclose
        simp only [List.mem_singleton] at hopen hclose
        rw [← hopen] at hclose
        exact absurd hclose (by simp)
      · exact absurd hopen List.not_mem_nil

theorem le_of_mem_eventsFrom {k i : Nat} {e : MarkerEvent} {ls : List Text}
    (h : (e, i) ∈ eventsFrom k ls) : k ≤ i := by
  induction ls generalizing k with
  | nil => exact absurd h List.not_mem_nil
  | cons l ls ih =>
    rw [eventsFrom_cons, List.mem_append] at h
    rcases h with h | h
    · obtain ⟨e', _, heq⟩ := List.mem_map.1 h
      have hi : k = i := (Prod.mk.inj heq).2
      omega
    · have hi := ih h
      omega

/-- Events of increasing lines come in their order, and so do those of one line. -/
theorem exists_append_of_events {key other : MarkerKey} {i j k : Nat} {ls : List Text}
    (hopen : (.opens key, i) ∈ eventsFrom k ls) (hclose : (.closes other, j) ∈ eventsFrom k ls)
    (hij : i ≤ j) :
    ∃ as bs, eventsFrom k ls = as ++ (.opens key, i) :: bs ∧ (.closes other, j) ∈ bs := by
  induction ls generalizing k with
  | nil => exact absurd hopen List.not_mem_nil
  | cons l ls ih =>
    have hline : ∀ {e m}, (e, m) ∈ (MarkerEvent.ofLine l.trim).map (fun e => (e, k)) →
        e ∈ MarkerEvent.ofLine l.trim ∧ m = k := by
      intro e m h
      obtain ⟨e', he', heq⟩ := List.mem_map.1 h
      obtain ⟨rfl, rfl⟩ := Prod.mk.inj heq
      exact ⟨he', rfl⟩
    rw [eventsFrom_cons, List.mem_append] at hopen hclose
    rw [eventsFrom_cons]
    rcases hopen with hopen | hopen
    · obtain ⟨hopen', rfl⟩ := hline hopen
      rcases hclose with hclose | hclose
      · obtain ⟨hclose', rfl⟩ := hline hclose
        rw [ofLine_opens_closes hopen' hclose']
        exact ⟨[], _, rfl, by simp⟩
      · obtain ⟨as, bs, heq⟩ := List.append_of_mem hopen
        exact ⟨as, bs ++ eventsFrom (i + 1) ls, by simp [heq], List.mem_append_right _ hclose⟩
    · rcases hclose with hclose | hclose
      · obtain ⟨_, rfl⟩ := hline hclose
        have hi := le_of_mem_eventsFrom hopen
        omega
      · obtain ⟨as, bs, heq, hmem⟩ := ih hopen hclose
        exact ⟨_ ++ as, bs, by rw [heq, List.append_assoc], hmem⟩

/-! ### Pairs of events -/

theorem exists_takeOpen {key : MarkerKey} {m : OpenMarker} {ms : List OpenMarker} (hm : m ∈ ms)
    (hk : m.key = key) : ∃ r, takeOpen key ms = some r := by
  induction ms with
  | nil => exact absurd hm List.not_mem_nil
  | cons a ms ih =>
    by_cases ha : a.key = key
    · exact ⟨(a, ms), by simp [takeOpen, ha]⟩
    · rcases List.mem_cons.1 hm with rfl | hm
      · exact absurd hk ha
      · obtain ⟨r, hr⟩ := ih hm
        exact ⟨(r.1, a :: r.2), by simp [takeOpen, ha, hr]⟩

theorem pairMarkers_adjacent (key : MarkerKey) (k m : Nat) (es : List (MarkerEvent × Nat))
    (pending : List OpenMarker) :
    pairMarkers ((.opens key, k) :: (.closes key, m) :: es) pending =
      (⟨key, k, m⟩ :: (pairMarkers es pending).1, (pairMarkers es pending).2) := by
  simp [pairMarkers, takeOpen]

/-! ### Blocks of pairs -/

theorem scan_blocks_of_pairs {pairs : List MarkerPair} {left : List OpenMarker}
    {s : Text}
    (h : pairMarkers (MarkerEvent.ofLines s.lines) [] = (pairs, left)) :
    (Scan.ofText s).blocks = Block.sort (pairs.map MarkerPair.block) := by
  simp only [Scan.ofText, Scan.ofLines, h]

namespace Block

theorem mem_outermostAfter_or {b : Block} {bs : List Block} (hb : b ∈ bs) (last : Option Block) :
    b ∈ outermostAfter last bs ∨
      ∃ o, (o ∈ last ∨ o ∈ outermostAfter last bs) ∧ o.contains b = true := by
  induction bs generalizing last with
  | nil => exact absurd hb List.not_mem_nil
  | cons a bs ih =>
    rw [outermostAfter]
    by_cases ha : a.coveredBy last = true
    · rw [if_pos ha]
      rcases List.mem_cons.1 hb with rfl | hb
      · cases last with
        | none => exact absurd ha (by simp [coveredBy])
        | some o => exact .inr ⟨o, .inl rfl, ha⟩
      · exact ih hb last
    · rw [if_neg ha]
      rcases List.mem_cons.1 hb with rfl | hb
      · exact .inl (List.mem_cons_self ..)
      · rcases ih hb (some a) with hmem | ⟨o, ho, hcontains⟩
        · exact .inl (List.mem_cons_of_mem a hmem)
        · refine .inr ⟨o, .inr ?_, hcontains⟩
          rcases ho with ho | ho
          · obtain rfl : a = o := by simpa using ho
            exact List.mem_cons_self ..
          · exact List.mem_cons_of_mem a ho

/-- A block is outermost or lies within the lines of an outermost block. -/
theorem mem_outermost_or {b : Block} {bs : List Block} (hb : b ∈ bs) :
    b ∈ outermost bs ∨ ∃ o ∈ outermost bs, o.contains b = true := by
  rcases mem_outermostAfter_or hb none with hmem | ⟨o, ho, hcontains⟩
  · exact .inl hmem
  · rcases ho with ho | ho
    · exact absurd ho (by simp)
    · exact .inr ⟨o, ho, hcontains⟩

end Block

end TemplateBlocks
