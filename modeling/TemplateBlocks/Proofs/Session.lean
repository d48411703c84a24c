import TemplateBlocks.Proofs.BlockList

/-!
# Sessions

A session is a sequence of rewrites of one text, each a replaced body or a moved block. The main
statement `session_observed` follows a session on three levels at once: the text, the document
that the text writes, and the list of blocks with their names and bodies. Every rewrite succeeds,
and after each of them the three readers of a text see the blocks of the list at the lines of the
document.
-/

namespace TemplateBlocks

/-! ### Steps -/

inductive Step
  | replace (name body : Text)
  | move (name : Text) (after : Option Text)
  deriving DecidableEq, Repr

namespace Step

def onText : Step → Text → Except RewriteError Text
  | replace name body, s => replaceBody s name body
  | move name after, s => moveBlock s name after

def onBlocks : Step → List MarkedBlock → List MarkedBlock
  | replace name body, bs => MarkedBlock.replaceIn name body bs
  | move name after, bs => MarkedBlock.moveIn name after bs

def onDocument (d : Dialect) : Step → Document → Document
  | replace name body, doc => doc.replace (d.markerName name) (Text.splitAt '\n' body)
  | move name after, doc => doc.move (d.markerName name) (after.map d.markerName)

/-- A step that calls blocks by reported names and writes no comment. -/
def Fits (reported : List Text) : Step → Prop
  | replace name body => name ∈ reported ∧ ¬ Marker.commentStart <:+: body
  | move name after => name ∈ reported ∧ ∀ target ∈ after, target ∈ reported

instance (reported : List Text) (step : Step) : Decidable (step.Fits reported) :=
  match step with
  | replace name body =>
    inferInstanceAs (Decidable (name ∈ reported ∧ ¬ Marker.commentStart <:+: body))
  | move name after =>
    inferInstanceAs (Decidable (name ∈ reported ∧ ∀ target ∈ after, target ∈ reported))

end Step

def session (steps : List Step) (s : Text) : Except RewriteError Text :=
  steps.foldlM (fun s step => step.onText s) s

def sessionBlocks (steps : List Step) (bs : List MarkedBlock) : List MarkedBlock :=
  steps.foldl (fun bs step => step.onBlocks bs) bs

def sessionDocument (d : Dialect) (steps : List Step) (doc : Document) : Document :=
  steps.foldl (fun doc step => step.onDocument d doc) doc

/-! ### Steps and sessions -/

/-- A step does to the text and to the list of blocks what it does to the document. -/
structure Step.Refines (d : Dialect) (step : Step) (doc doc' : Document) : Prop where
  text : step.onText (doc.text d) = .ok (doc'.text d)
  blocks : doc'.marked d = step.onBlocks (doc.marked d)
  wellFormed : doc'.WellFormed d
  names : (doc'.names).Perm doc.names

namespace Step

variable {d : Dialect} {doc : Document} {step : Step}

theorem refines_replace {name body : Text} (h : doc.WellFormed d)
    (hstep : (replace name body).Fits (doc.names.map d.blockName)) :
    (replace name body).Refines d doc ((replace name body).onDocument d doc) := by
  obtain ⟨hname, hbody⟩ := hstep
  obtain ⟨n, hn, rfl⟩ := List.mem_map.1 hname
  obtain ⟨xs, old, ys, rfl⟩ := Document.exists_append_of_mem_names hn
  have hisName : d.IsName n := Document.isName_of_mem_names h.fits hn
  have hdoc : (replace (d.blockName n) body).onDocument d (xs ++ .block n old :: ys) =
      xs ++ .block n (Text.splitAt '\n' body) :: ys := by
    rw [onDocument, Dialect.markerName_blockName hisName]
    exact Document.replace_append h _
  rw [hdoc]
  refine ⟨Document.replaceBody_text h.fits h.not_mem_sides.1 body, Document.marked_replaced h body,
    Document.wellFormed_replaced h (Document.plain_splitAt hbody), ?_⟩
  simp only [Document.names_append, Document.names_block, List.Perm.refl]

theorem refines_move {name : Text} {after : Option Text} (h : doc.WellFormed d)
    (hstep : (move name after).Fits (doc.names.map d.blockName)) :
    (move name after).Refines d doc ((move name after).onDocument d doc) := by
  obtain ⟨hname, htarget⟩ := hstep
  obtain ⟨n, hn, rfl⟩ := List.mem_map.1 hname
  obtain ⟨marker, rfl, hafter⟩ : ∃ marker : Option Text, after = marker.map d.blockName ∧
      ∀ m ∈ marker, m ∈ doc.names := by
    cases after with
    | none => exact ⟨none, rfl, by simp⟩
    | some target =>
      obtain ⟨m, hm, rfl⟩ := List.mem_map.1 (htarget target rfl)
      exact ⟨some m, rfl, by simpa using hm⟩
  have hmarker : (marker.map d.blockName).map d.markerName = marker := by
    cases marker with
    | none => rfl
    | some m =>
      have hm := Document.isName_of_mem_names h.fits (hafter m rfl)
      exact congrArg some (Dialect.markerName_blockName hm)
  have hdoc : (move (d.blockName n) (marker.map d.blockName)).onDocument d doc =
      doc.move n marker := by
    rw [onDocument, Dialect.markerName_blockName (Document.isName_of_mem_names h.fits hn), hmarker]
  rw [hdoc]
  obtain ⟨xs, body, ys, rfl⟩ := Document.exists_append_of_mem_names hn
  exact ⟨Document.moveBlock_text h.fits h.not_mem_sides.1 hafter, Document.marked_move h hafter,
    Document.wellFormed_move h hafter, Document.names_move_perm h hafter⟩

theorem refines_onDocument (h : doc.WellFormed d)
    (hstep : step.Fits (doc.names.map d.blockName)) :
    step.Refines d doc (step.onDocument d doc) := by
  cases step with
  | replace name body => exact refines_replace h hstep
  | move name after => exact refines_move h hstep

theorem Fits.of_mem_iff {rs ts : List Text} (h : ∀ r, r ∈ rs ↔ r ∈ ts) (hstep : step.Fits rs) :
    step.Fits ts := by
  cases step with
  | replace name body => exact ⟨(h name).1 hstep.1, hstep.2⟩
  | move name after => exact ⟨(h name).1 hstep.1, fun t ht => (h t).1 (hstep.2 t ht)⟩

end Step

variable {d : Dialect} {doc : Document} {steps : List Step}

theorem session_refines (h : doc.WellFormed d)
    (hsteps : ∀ step ∈ steps, step.Fits (doc.names.map d.blockName)) :
    session steps (doc.text d) = .ok ((sessionDocument d steps doc).text d) ∧
      (sessionDocument d steps doc).marked d = sessionBlocks steps (doc.marked d) ∧
      (sessionDocument d steps doc).WellFormed d ∧
      (sessionDocument d steps doc).names.Perm doc.names := by
  induction steps generalizing doc with
  | nil => exact ⟨rfl, rfl, h, List.Perm.refl _⟩
  | cons step steps ih =>
    have hfirst := Step.refines_onDocument h (hsteps step (List.mem_cons_self ..))
    have hmem : ∀ r, r ∈ doc.names.map d.blockName ↔
        r ∈ (step.onDocument d doc).names.map d.blockName :=
      fun r => (hfirst.names.map d.blockName).symm.mem_iff
    obtain ⟨htext, hblocks, hwf, hnames⟩ := ih hfirst.wellFormed fun st hst =>
      (hsteps st (List.mem_cons_of_mem step hst)).of_mem_iff hmem
    refine ⟨?_, ?_, hwf, hnames.trans hfirst.names⟩
    · rw [session, List.foldlM_cons, hfirst.text]
      exact htext
    · rw [sessionBlocks, List.foldl_cons, ← hfirst.blocks]
      exact hblocks

/-- After every step of a session the readers of the text see the document that the steps lead to,
and with it the list of blocks that the steps lead to. -/
theorem session_observed (h : doc.WellFormed d) (hne : doc.names ≠ [])
    (hsteps : ∀ step ∈ steps, step.Fits (doc.names.map d.blockName)) {done : List Step}
    (hdone : done <+: steps) :
    ∃ s, session done (doc.text d) = .ok s ∧ s.Lists (sessionBlocks done (doc.marked d)) ∧
      s = (sessionDocument d done doc).text d ∧ (sessionDocument d done doc).SeenIn d s := by
  have hfits := fun step hstep => hsteps step (hdone.subset hstep)
  obtain ⟨htext, hblocks, hwf, hnames⟩ := session_refines h hfits
  have hnonempty : (sessionDocument d done doc).names ≠ [] := by
    intro hnil
    rw [hnil] at hnames
    exact hne hnames.symm.eq_nil
  have hseen := hwf.seenIn hnonempty
  have hlists := hseen.lists
  rw [hblocks] at hlists
  exact ⟨_, htext, hlists, rfl, hseen⟩

/-- A session of banners. The first move takes the empty first line along, for it stands alone in
front of the moved block. -/
theorem session_observed_banners :
    let doc : Document := [.gap [], .block "HERO".toList ["a".toList], .gap "between".toList,
      .block "SITE FOOTER".toList []]
    let steps : List Step := [.replace "SITE_FOOTER".toList "x\ny".toList,
      .move "HERO".toList (some "SITE_FOOTER".toList), .move "HERO".toList none]
    (doc.WellFormed .banner ∧ doc.names ≠ [] ∧
      ∀ step ∈ steps, step.Fits (doc.names.map Dialect.banner.blockName)) ∧
    ∃ s, session steps (doc.text .banner) = .ok s ∧
      s.Lists (sessionBlocks steps (doc.marked .banner)) ∧
      s = (sessionDocument .banner steps doc).text .banner ∧
      (sessionDocument .banner steps doc).SeenIn .banner s := by
  intro doc steps
  have hwf : doc.WellFormed .banner := by decide +kernel
  have hne : doc.names ≠ [] := by decide
  have hsteps : ∀ step ∈ steps, step.Fits (doc.names.map Dialect.banner.blockName) := by
    decide +kernel
  exact ⟨⟨hwf, hne, hsteps⟩, session_observed hwf hne hsteps (List.prefix_refl steps)⟩

end TemplateBlocks
