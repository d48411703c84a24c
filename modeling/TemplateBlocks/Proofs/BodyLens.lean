import TemplateBlocks.Proofs.MarkerSeams

/-!
# Reading and replacing bodies

Reading and replacing the body of a block fit together like a getter and a setter. A body without
markers of the block is read back as it was written, the last of two bodies written is the one that
counts, and nothing outside the markers changes (`replaceBody_lens`). This holds for every text,
because the markers around a new body are still the first ones of the block
(`Text.stretch?_withBody`), and no markers of the other dialect meet over it.
-/

namespace TemplateBlocks

/-! ### Texts without markers of a block -/

/-- No marker of the block called `name` stands in the text, whatever the dialect. -/
def MarkerFree (name t : Text) : Prop :=
  ∀ d m, Marker.Spells d (Dialect.markerName d name) m → ¬ m <:+: t

theorem forall_not_infix_iff {P : Text → Prop} {m : Matcher Unit} {t : Text}
    (hm : ∀ s rest, m s = some ((), rest) ↔ ∃ w, P w ∧ s = w ++ rest) (hne : ∀ w, P w → w ≠ []) :
    (∀ w, P w → ¬ w <:+: t) ↔ t.find m = none := by
  rw [Text.find_eq_none_iff]
  constructor
  · intro h u hu _
    refine Option.eq_none_iff_forall_ne_some.2 fun ⟨_, rest⟩ hread => ?_
    obtain ⟨w, hw, rfl⟩ := (hm u rest).1 hread
    exact h w hw ((List.prefix_append w rest).isInfix.trans hu.isInfix)
  · rintro h w hw ⟨u, v, rfl⟩
    have hread := (hm (w ++ v) v).2 ⟨w, hw, rfl⟩
    rw [h (w ++ v) ⟨u, by simp⟩ (by simp [hne w hw])] at hread
    exact absurd hread (by simp)

theorem markerFree_iff {name t : Text} : MarkerFree name t ↔
    ∀ d ∈ [Dialect.directive, .banner], t.find (Marker.opening d (d.markerName name)) = none ∧
      t.find (Marker.closing d (d.markerName name)) = none := by
  have hboth : ∀ d n, (∀ m, Marker.Spells d n m → ¬ m <:+: t) ↔
      t.find (Marker.opening d n) = none ∧ t.find (Marker.closing d n) = none := fun d n => by
    rw [← forall_not_infix_iff (fun _ _ => Marker.reads_opening_iff) fun _ h => h.ne_nil,
      ← forall_not_infix_iff (fun _ _ => Marker.reads_closing_iff) fun _ h => h.ne_nil]
    simp only [Marker.Spells, or_imp, forall_and]
  simp only [MarkerFree, hboth]
  refine ⟨fun h d _ => h d, fun h d => h d ?_⟩
  cases d with
  | directive => exact List.mem_cons_self ..
  | banner => exact List.mem_cons_of_mem _ (List.mem_cons_self ..)

instance (name t : Text) : Decidable (MarkerFree name t) :=
  decidable_of_iff (∀ d ∈ [Dialect.directive, .banner],
    (t.find (Marker.opening d (d.markerName name))).isNone = true ∧
      (t.find (Marker.closing d (d.markerName name))).isNone = true) (by
    rw [markerFree_iff]
    simp only [Option.isNone_iff_eq_none])

/-! ### The stretch of a block -/

variable {s name : Text} {f : Text.Found Stretch}

/-- The stretch of a block is the first one of its directives, or the first one of its banners when
its directives make none. -/
theorem stretch?_eq_some_iff : s.stretch? name = some f ↔
    ∃ d : Dialect, FirstStretch d (d.markerName name) s f ∧
      (d = .banner → IsEmpty (Bracketing .directive name s)) := by
  constructor
  · intro h
    cases hfind : Stretch.find? .directive name s with
    | some g =>
      rw [Text.stretch?, hfind] at h
      obtain rfl := Option.some.inj h
      exact ⟨.directive, find_named_iff.1 hfind, fun h => absurd h (by simp)⟩
    | none =>
      rw [Text.stretch?, hfind] at h
      exact ⟨.banner, find_named_iff.1 h, fun _ => find_named_eq_none_iff.1 hfind⟩
  · rintro ⟨d, hf, hd⟩
    have hfind : Stretch.find? d name s = some f := find_named_iff.2 hf
    cases d with
    | directive => rw [Text.stretch?, hfind]
    | banner =>
      have hnone : Stretch.find? .directive name s = none := find_named_eq_none_iff.2 (hd rfl)
      rw [Text.stretch?, hnone]
      exact hfind

/-- The directives of a block do not stand in one of its banner stretches with a new body. -/
theorem FirstStretch.not_infix_withBody (hname : AngleFree name)
    (hf : FirstStretch .banner (Dialect.banner.markerName name) s f) {body m : Text}
    (hbody : MarkerFree name body) (hm : Marker.Spells .directive name m) :
    ¬ m <:+: (f.value.withBody body).text := by
  have hn := hname.markerName .banner
  have hopening := hf.opens.angled hn
  have hclosing := hf.closes.angled hn
  have hangled := hm.angled hname
  obtain ⟨a, _, ha⟩ := hf.opens.angled hn
  obtain ⟨z, _, hz⟩ := hf.closes.angled hn
  intro hinfix
  rcases hangled.infix_append (.inl ⟨_, hz⟩) hinfix with hleft | hright
  · rcases hangled.infix_append (.inr ⟨'<' :: a, ha⟩) hleft with hopen | hmiddle
    · exact hm.not_banner (hangled.eq_of_infix hopening hopen ▸ .inl hf.opens)
    · exact hbody .directive m hm (hangled.infix_of_framed hmiddle)
  · exact hm.not_banner (hangled.eq_of_infix hclosing hright ▸ .inr hf.closes)

/-- With a new body without markers of the block, the stretch of the block is the same one. -/
theorem Text.stretch?_withBody (hname : AngleFree name) (hf : s.stretch? name = some f)
    {body : Text} (hbody : MarkerFree name body) :
    Text.stretch? (f.before ++ ((f.value.withBody body).text ++ f.rest)) name =
      some (f.withBody body) := by
  obtain ⟨d, hfirst, hd⟩ := stretch?_eq_some_iff.1 hf
  have hn := hname.markerName d
  refine stretch?_eq_some_iff.2 ⟨d, hfirst.withBody hn fun m hm => hbody d m (.inr hm), ?_⟩
  rintro rfl
  refine ⟨fun b => ?_⟩
  obtain ⟨a, _, ha⟩ := hfirst.opens.angled hn
  obtain ⟨z, _, hz⟩ := hfirst.closes.angled hn
  have hstart : (f.value.withBody body).text = '<' :: (a ++ ['>'] ++ newline ++ body ++ newline ++
      f.value.closing) := by
    simp [Stretch.text, Stretch.withBody, ha]
  have hend : (f.value.withBody body).text = f.value.opening ++ newline ++ body ++ newline ++
      '<' :: z ++ ['>'] := by
    simp [Stretch.text, Stretch.withBody, hz]
  have hfront : Seam f.before ((f.value.withBody body).text ++ f.rest) :=
    .inl ⟨_, by rw [hstart, List.cons_append]⟩
  obtain ⟨old⟩ := b.of_changed_middle f.value.text hname hfront (.inr ⟨_, hend⟩)
    fun m hm => hfirst.not_infix_withBody hname hbody hm
  have heq : s = f.before ++ (f.value.text ++ f.rest) := by
    simpa [Stretch.text] using hfirst.eq_append
  rw [← heq] at old
  exact (hd rfl).false old

/-! ### Reading back and writing again -/

theorem replaceBody_of_stretch? (hf : s.stretch? name = some f) (body : Text) :
    replaceBody s name body = .ok (f.before ++ ((f.value.withBody body).text ++ f.rest)) := by
  rw [replaceBody, hf, ← List.append_assoc]

theorem content_withBody (st : Stretch) (body : Text) : (st.withBody body).content = body := by
  have hstart : (st.withBody body).body.dropStart newline = body ++ newline := by
    simp [Stretch.withBody, Text.dropStart, Text.after?, newline]
  rw [Stretch.content, hstart]
  simp [Text.dropEnd, Text.dropStart, Text.after?, newline]

/-- The text `r` is `s` with `body` between newlines in place of what stands between an opening and
a closing marker of the block. -/
def RewritesBody (s name body r : Text) : Prop :=
  ∃ (d : Dialect) (before opening old closing rest : Text),
    Marker.SpellsOpening d (d.markerName name) opening ∧
    Marker.SpellsClosing d (d.markerName name) closing ∧
    s = before ++ opening ++ old ++ closing ++ rest ∧
    r = before ++ opening ++ newline ++ body ++ newline ++ closing ++ rest

theorem rewritesBody_of_stretch? (hf : s.stretch? name = some f) (body : Text) :
    RewritesBody s name body (f.before ++ ((f.value.withBody body).text ++ f.rest)) := by
  obtain ⟨d, hfirst, _⟩ := stretch?_eq_some_iff.1 hf
  refine ⟨d, f.before, f.value.opening, f.value.body, f.value.closing, f.rest, hfirst.opens,
    hfirst.closes, ?_, ?_⟩
  · simpa using hfirst.eq_append
  · simp [Stretch.text, Stretch.withBody]

/-- Replacing a body fails only for a block that cannot be read, and otherwise it changes nothing
outside the markers, the new body is read back, and of two bodies in turn the last one counts. -/
theorem replaceBody_lens (s : Text) {name : Text} (hname : AngleFree name) :
    (∀ body, replaceBody s name body = .error (.blockNotFound name) ↔ body? s name = none) ∧
    (∀ body, (∃ r, replaceBody s name body = .ok r) ↔ body? s name ≠ none) ∧
    (∀ body r, MarkerFree name body → replaceBody s name body = .ok r →
      RewritesBody s name body r ∧ body? r name = some body) ∧
    ∀ first last, MarkerFree name first →
      (replaceBody s name first >>= fun r => replaceBody r name last) =
        replaceBody s name last := by
  cases hfind : s.stretch? name with
  | none =>
    have hfail : ∀ body, replaceBody s name body = .error (.blockNotFound name) := fun body => by
      rw [replaceBody, hfind]
    have hbody : body? s name = none := by rw [body?, hfind]; rfl
    refine ⟨fun body => by simp [hfail, hbody], fun body => by simp [hfail, hbody],
      fun body r _ hr => ?_, fun first last _ => ?_⟩
    · rw [hfail] at hr
      exact absurd hr (by simp)
    · rw [hfail, hfail]
      rfl
  | some f =>
    have hdone := fun body => replaceBody_of_stretch? hfind body
    have hbody : body? s name ≠ none := by simp [body?, hfind]
    refine ⟨fun body => by simp [hdone, hbody], fun body => by simp [hdone, hbody],
      fun body r hfree hr => ?_, fun first last hfree => ?_⟩
    · rw [hdone] at hr
      obtain rfl := Except.ok.inj hr
      refine ⟨rewritesBody_of_stretch? hfind body, ?_⟩
      rw [body?, Text.stretch?_withBody hname hfind hfree, Option.map_some]
      exact congrArg some (content_withBody f.value body)
    · have hagain := replaceBody_of_stretch? (Text.stretch?_withBody hname hfind hfree) last
      rw [hdone, hdone]
      exact hagain

def bannerAmongDirectives : Text := Text.join newline
  ["<p><!-- @endblock:TOP_PART -->".toList,
    "<!-- TOP PART -->old<!--  EO TOP PART --></p>".toList, "<!-- @block:TOP_PART -->".toList, []]

def nearlyMarked : Text := "\n<!-- @endblock:TOP --> TOP_PART -->\n".toList

/-- The block is read between banners, for its directives stand the wrong way round. -/
theorem replaceBody_lens_bannerAmongDirectives :
    AngleFree "TOP_PART".toList ∧ MarkerFree "TOP_PART".toList nearlyMarked ∧
    ∃ r, replaceBody bannerAmongDirectives "TOP_PART".toList nearlyMarked = .ok r ∧
      body? r "TOP_PART".toList = some nearlyMarked ∧
      replaceBody r "TOP_PART".toList [] =
        replaceBody bannerAmongDirectives "TOP_PART".toList [] := by
  have hname : AngleFree "TOP_PART".toList := by decide
  have hfree : MarkerFree "TOP_PART".toList nearlyMarked := by decide +kernel
  obtain ⟨_, hok, hread, hlast⟩ := replaceBody_lens bannerAmongDirectives hname
  have hbody : body? bannerAmongDirectives "TOP_PART".toList ≠ none := by decide +kernel
  obtain ⟨r, hr⟩ := (hok nearlyMarked).2 hbody
  have hagain := hlast _ [] hfree
  rw [hr] at hagain
  exact ⟨hname, hfree, r, hr, (hread _ r hfree hr).2, hagain⟩

end TemplateBlocks
