import TemplateBlocks.Proofs.BodyLens

/-!
# Bodies of other blocks

Replacing the body of a block leaves the other blocks alone. The first stretch of a name does not
hang on the text behind it (`FirstStretch.change_rest`), nor on a piece in front of it in which the
name has no markers (`FirstStretch.change_before`). So a stretch apart from the one with the new
body stays the one that is read (`Text.stretch?_replaced`), and so does its body
(`body?_replaceBody_of_apart`).
-/

namespace TemplateBlocks

variable {d : Dialect} {n s : Text} {f g : Text.Found Stretch}

/-! ### Changes behind a stretch and in front of it -/

/-- The first stretch is the same one whatever stands behind it. -/
theorem FirstStretch.change_rest (hn : AngleFree n) (h : FirstStretch d n s g) (rest : Text) :
    FirstStretch d n
      (g.before ++ (g.value.opening ++ (g.value.body ++ (g.value.closing ++ rest))))
      { g with rest := rest } := by
  obtain ⟨a, _, ha⟩ := h.opens.angled hn
  obtain ⟨z, _, hz⟩ := h.closes.angled hn
  refine ⟨h.name_eq, h.matched_eq, rfl, h.opens, h.closes, fun u m t heq hm => ?_,
    fun u m t heq hm => ?_⟩
  · exact h.before_prefix hn ⟨_, by rw [ha, List.cons_append]⟩ heq hm
  · have hseam : Seam g.value.body (g.value.closing ++ rest) :=
      .inl ⟨_, by rw [hz, List.cons_append]⟩
    rcases (hm.angled hn).append_cases hseam heq.symm with ⟨x, hx, _⟩ | ⟨x, hx, _⟩
    · exact h.first u m (x ++ (g.value.closing ++ g.rest)) (by simp [hx]) hm
    · exact ⟨x, hx.symm⟩

/-- The first stretch is the same one when a piece in front of it gives way to one between seams
that has no markers of the name. -/
theorem FirstStretch.change_before {p old new x : Text} (hn : AngleFree n)
    (h : FirstStretch d n s g) (hbefore : g.before = p ++ (old ++ x))
    (hp : Seam p (new ++ (x ++ (g.value.text ++ g.rest))))
    (hq : Seam new (x ++ (g.value.text ++ g.rest)))
    (hfree : ∀ m, Marker.Spells d n m → ¬ m <:+: new) :
    FirstStretch d n (p ++ (new ++ (x ++ (g.value.text ++ g.rest))))
      { g with before := p ++ (new ++ x) } := by
  have hold : s = p ++ (old ++ (x ++ (g.value.text ++ g.rest))) := by
    rw [h.eq_append, hbefore]
    simp [Stretch.text]
  refine ⟨h.name_eq, h.matched_eq, by simp [Stretch.text], h.opens, h.closes,
    fun u m t heq hm => ?_, h.first⟩
  rcases Marker.Spells.append_cases hn (.inl hm) hp hq (hfree m (.inl hm)) heq with
    ⟨z, rfl⟩ | ⟨z, rfl, hz⟩
  · -- The marker would open an earlier stretch of the text as it was.
    have hfirst := h.leftmost u m (z ++ (old ++ (x ++ (g.value.text ++ g.rest))))
      (by rw [hold]; simp) hm
    have hlong := hfirst.length_le
    have hne := List.length_pos_of_ne_nil hm.ne_nil
    rw [hbefore] at hlong
    simp only [List.length_append] at hlong
    omega
  · have hfirst := h.leftmost (p ++ (old ++ z)) m t (by rw [hold, hz]; simp) hm
    rw [hbefore, List.prefix_append_right_inj, List.prefix_append_right_inj] at hfirst
    simpa [List.prefix_append_right_inj] using hfirst

/-! ### Stretches apart from each other -/

/-- The two stretches of one text share no character. -/
def Text.Found.Apart (f g : Text.Found Stretch) : Prop :=
  f.before.length + f.matched.length ≤ g.before.length ∨
    g.before.length + g.matched.length ≤ f.before.length

instance (f g : Text.Found Stretch) : Decidable (f.Apart g) := inferInstanceAs (Decidable (_ ∨ _))

theorem FirstStretch.prefix_of_le (hf : FirstStretch d n s f) {d' : Dialect} {n' : Text}
    (hg : FirstStretch d' n' s g) (hle : f.before.length + f.matched.length ≤ g.before.length) :
    ∃ x, g.before = f.before ++ (f.value.text ++ x) := by
  have hstretch : f.before ++ f.value.text <+: s := ⟨f.rest, by
    rw [hf.eq_append]
    simp [Stretch.text]⟩
  have hlen : (f.before ++ f.value.text).length ≤ g.before.length := by
    rwa [List.length_append, ← hf.matched_eq]
  obtain ⟨x, hx⟩ := List.prefix_of_prefix_length_le hstretch ⟨_, hg.eq_append.symm⟩ hlen
  exact ⟨x, by rw [← hx, List.append_assoc]⟩

/-- A text without the start of a comment has no markers, and newlines around it make none. -/
theorem not_infix_framed (hn : AngleFree n) {body m : Text}
    (hbody : ¬ Marker.commentStart <:+: body) (hm : Marker.Spells d n m) :
    ¬ m <:+: newline ++ body ++ newline := by
  intro hinfix
  obtain ⟨t, ht⟩ : ∃ t, m = Marker.commentStart ++ t := by
    rcases hm with hm | hm
    · exact hm.exists_eq_cons
    · exact hm.exists_eq_cons
  have hstart : Marker.commentStart <:+: m := ⟨[], t, by rw [ht, List.nil_append]⟩
  exact hbody (hstart.trans ((hm.angled hn).infix_of_framed hinfix))

theorem stretch?_eq_none_iff {name : Text} : s.stretch? name = none ↔
    ∀ d : Dialect, IsEmpty (Bracketing d (d.markerName name) s) := by
  constructor
  · intro h d
    rw [Text.stretch?] at h
    split at h
    · exact absurd h (by simp)
    · rename_i hnone
      cases d with
      | directive => exact find_named_eq_none_iff.1 hnone
      | banner => exact find_named_eq_none_iff.1 h
  · intro h
    have hdirective : Stretch.find? .directive name s = none :=
      find_named_eq_none_iff.2 (h .directive)
    rw [Text.stretch?, hdirective]
    exact find_named_eq_none_iff.2 (h .banner)

/-! ### A new body -/

section NewBody

variable {d' : Dialect} {n' body : Text}

/-- A body of a stretch stands between two seams. -/
theorem FirstStretch.seams (hn : AngleFree n) (h : FirstStretch d n s f) :
    (∀ y, Seam (f.before ++ f.value.opening) y) ∧ ∀ x, Seam x (f.value.closing ++ f.rest) := by
  obtain ⟨a, _, ha⟩ := h.opens.angled hn
  obtain ⟨z, _, hz⟩ := h.closes.angled hn
  exact ⟨fun y => .inr ⟨f.before ++ '<' :: a, by simp [ha]⟩,
    fun x => .inl ⟨z ++ ['>'] ++ f.rest, by simp [hz]⟩⟩

theorem Text.Found.append_withBody (f : Text.Found Stretch) (body : Text) :
    f.before ++ ((f.value.withBody body).text ++ f.rest) = (f.before ++ f.value.opening) ++
      ((newline ++ body ++ newline) ++ (f.value.closing ++ f.rest)) := by
  simp [Stretch.text, Stretch.withBody]

/-- A new body without comments makes no markers of a name meet. -/
theorem FirstStretch.isEmpty_withBody (hn : AngleFree n) (hn' : AngleFree n')
    (hf : FirstStretch d n s f) (hbody : ¬ Marker.commentStart <:+: body)
    (h : IsEmpty (Bracketing d' n' s)) :
    IsEmpty (Bracketing d' n' (f.before ++ ((f.value.withBody body).text ++ f.rest))) := by
  obtain ⟨hfront, hbehind⟩ := hf.seams hn
  have hold : s = (f.before ++ f.value.opening) ++
      (f.value.body ++ (f.value.closing ++ f.rest)) := by
    rw [hf.eq_append]
    simp
  rw [f.append_withBody body]
  refine ⟨fun b => ?_⟩
  obtain ⟨old⟩ := b.of_changed_middle f.value.body hn' (hfront _) (hbehind _)
    fun m => not_infix_framed hn' hbody
  exact h.false (hold ▸ old)

/-- Over a new body without comments, a stretch apart from the one with the body stays the first
one of its name. -/
theorem FirstStretch.exists_withBody (hn : AngleFree n) (hn' : AngleFree n')
    (hf : FirstStretch d n s f) (hg : FirstStretch d' n' s g) (hapart : f.Apart g)
    (hbody : ¬ Marker.commentStart <:+: body) :
    ∃ g', FirstStretch d' n' (f.before ++ ((f.value.withBody body).text ++ f.rest)) g' ∧
      g'.value = g.value := by
  rcases hapart with hle | hle
  · -- The new body stands in front of the other stretch.
    obtain ⟨hfront, hbehind⟩ := hf.seams hn
    obtain ⟨x, hx⟩ := hf.prefix_of_le hg hle
    have hrest : f.rest = x ++ (g.value.text ++ g.rest) := by
      have heq := hf.eq_append.symm.trans hg.eq_append
      simpa [hx, Stretch.text] using heq
    have hbefore : g.before =
        (f.before ++ f.value.opening) ++ (f.value.body ++ (f.value.closing ++ x)) := by
      simp [hx, Stretch.text]
    have hseam : Seam (newline ++ body ++ newline)
        (f.value.closing ++ x ++ (g.value.text ++ g.rest)) := by
      rw [List.append_assoc f.value.closing, ← hrest]
      exact hbehind _
    have hchanged := hg.change_before hn' hbefore (hfront _) hseam
      fun m => not_infix_framed hn' hbody
    rw [List.append_assoc f.value.closing, ← hrest, ← f.append_withBody body] at hchanged
    exact ⟨_, hchanged, rfl⟩
  · -- The new body stands behind the other stretch.
    obtain ⟨x, hx⟩ := hg.prefix_of_le hf hle
    have hchanged := hg.change_rest hn' (x ++ ((f.value.withBody body).text ++ f.rest))
    have htext : f.before ++ ((f.value.withBody body).text ++ f.rest) =
        g.before ++ (g.value.opening ++ (g.value.body ++ (g.value.closing ++
          (x ++ ((f.value.withBody body).text ++ f.rest))))) := by
      rw [hx]
      simp [Stretch.text]
    rw [← htext] at hchanged
    exact ⟨_, hchanged, rfl⟩

end NewBody

/-- Over a new body without comments, a name has the same stretch as before when that is apart from
the stretch with the new body. -/
theorem Text.stretch?_replaced {name other body : Text} (hname : AngleFree name)
    (hother : AngleFree other) (hf : s.stretch? name = some f)
    (hapart : ∀ g, s.stretch? other = some g → f.Apart g)
    (hbody : ¬ Marker.commentStart <:+: body) :
    (Text.stretch? (f.before ++ ((f.value.withBody body).text ++ f.rest)) other).map
      Text.Found.value = (s.stretch? other).map Text.Found.value := by
  obtain ⟨e, hfirst, -⟩ := stretch?_eq_some_iff.1 hf
  have hempty : ∀ d, IsEmpty (Bracketing d (d.markerName other) s) →
      IsEmpty (Bracketing d (d.markerName other)
        (f.before ++ ((f.value.withBody body).text ++ f.rest))) := fun d =>
    hfirst.isEmpty_withBody (hname.markerName e) (hother.markerName d) hbody
  cases hg : s.stretch? other with
  | none => rw [stretch?_eq_none_iff.2 fun d => hempty d (stretch?_eq_none_iff.1 hg d)]
  | some g =>
    obtain ⟨d, hstretch, hd⟩ := stretch?_eq_some_iff.1 hg
    obtain ⟨g', hg', hvalue⟩ := hfirst.exists_withBody (hname.markerName e) (hother.markerName d)
      hstretch (hapart g hg) hbody
    rw [stretch?_eq_some_iff.2 ⟨d, hg', fun h => hempty .directive (hd h)⟩]
    exact congrArg some hvalue

/-- Replacing the body of one block keeps the body of every other one whose stretch is apart from
its own, for a new body in which no comment starts. -/
theorem body?_replaceBody_of_apart {name other body : Text} (hname : AngleFree name)
    (hother : AngleFree other) (hf : s.stretch? name = some f)
    (hapart : ∀ g, s.stretch? other = some g → f.Apart g)
    (hbody : ¬ Marker.commentStart <:+: body) :
    ∃ r, replaceBody s name body = .ok r ∧ body? r other = body? s other := by
  refine ⟨_, replaceBody_of_stretch? hf body, ?_⟩
  have hsame := Text.stretch?_replaced hname hother hf hapart hbody
  have hcontent := congrArg (Option.map Stretch.content) hsame
  rw [Option.map_map, Option.map_map] at hcontent
  exact hcontent

def strayMarkers : Text := Text.join newline
  ["<!-- @block:a --><!-- @endblock:TOP --><!-- @block:TOP --><!-- @endblock:a -->".toList,
    "<!-- TOP -->t<!-- EO TOP -->".toList]

/-- The other block is read between banners, before and after. -/
theorem body?_replaceBody_of_apart_strayMarkers :
    ∃ r, replaceBody strayMarkers "a".toList "--> @block:TOP".toList = .ok r ∧
      body? r "TOP".toList = some ['t'] := by
  have hread : body? strayMarkers "TOP".toList = some ['t'] := by decide +kernel
  rw [← hread]
  have hf : (strayMarkers.stretch? "a".toList).isSome := by decide +kernel
  obtain ⟨f, hf⟩ := Option.isSome_iff_exists.1 hf
  refine body?_replaceBody_of_apart (by decide) (by decide) hf ?_ (by decide +kernel)
  have hapart : ∀ f' ∈ strayMarkers.stretch? "a".toList,
      ∀ g ∈ strayMarkers.stretch? "TOP".toList, f'.Apart g := by decide +kernel
  exact fun g => hapart f hf g

end TemplateBlocks
