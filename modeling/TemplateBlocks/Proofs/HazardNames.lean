import TemplateBlocks.Proofs.MoveHazards
import TemplateBlocks.Proofs.OrderHazards
import TemplateBlocks.Proofs.VariableLists

/-!
# The names in hazards

No reference begins within another one, so the search for references finds all that can be read in
the code (`Code.mem_references_iff`). What defines a variable, an assignment, a binding or a list,
refers to it in this sense. So a flow uses what it defines, ambient names apart, and the names of a
hazard are sorted, not ambient, and there is one at least (`definitions_used`).
-/

namespace TemplateBlocks

namespace Code

variable {n s t rest : Text} {ns : List Text}

/-! ### References in code -/

/-- A reference to the variable is read at some place of the code. -/
def RefersTo (code n : Text) : Prop := ∃ t rest, t <:+ code ∧ reference t = some (n, rest)

theorem RefersTo.of_suffix (h : RefersTo t n) (ht : t <:+ s) : RefersTo s n := by
  obtain ⟨v, rest, hv, hread⟩ := h
  exact ⟨v, rest, hv.trans ht, hread⟩

theorem refersTo_of_reference (h : reference s = some (n, rest)) : RefersTo s n :=
  ⟨s, rest, List.suffix_refl s, h⟩

theorem reference_leavesSuffix : reference.LeavesSuffix := fun _ n _ h =>
  ⟨'$' :: n, (reference_eq_append h).symm⟩

theorem reference_not_covered {listed : List Text} {u v : Text} {r : Text × Text}
    (h : reference v = some r) : ¬ Text.Covered reference listed u v := by
  intro hcover
  obtain ⟨x, y, post, b, hx, hy, rfl, hread⟩ := hcover.exists_split
  obtain ⟨c, x, rfl⟩ := List.exists_cons_of_ne_nil hx
  obtain ⟨d, y, rfl⟩ := List.exists_cons_of_ne_nil hy
  have hsplit : c :: (x ++ d :: y) ++ post = '$' :: b ++ post := by
    simpa using reference_eq_append hread
  have hname : x ++ d :: y = b := (List.cons.inj (List.append_cancel_right hsplit)).2
  have hkey : isKeyChar d = true := isKeyChar_of_mem_reference hread d (by simp [← hname])
  have hd : d ≠ '$' := by
    rintro rfl
    exact absurd hkey (by decide)
  rw [List.cons_append, reference_start hd] at h
  exact absurd h (by simp)

theorem mem_references_iff : n ∈ s.allMatches reference ↔ RefersTo s n := by
  constructor
  · intro h
    obtain ⟨u, v, rest, rfl, hread⟩ := Text.exists_read_of_mem_allMatches reference_leavesSuffix h
    exact ⟨v, rest, List.suffix_append u v, hread⟩
  · rintro ⟨v, rest, ⟨u, rfl⟩, hread⟩
    have hv : v ≠ [] := by
      rw [reference_eq_append hread]
      simp
    have hfound := Text.mem_occurrences_or reference_leavesSuffix (u := u) hv hread none
    exact hfound.resolve_right (reference_not_covered hread)

/-! ### What defines a variable refers to it -/

theorem refersTo_of_assignment (h : assignment s = some (n, rest)) : RefersTo s n := by
  obtain ⟨⟨m, t⟩, href, h⟩ := Option.bind_eq_some_iff.1 h
  obtain ⟨v, _, heq⟩ := Option.bind_eq_some_iff.1 h
  obtain ⟨rfl, rfl⟩ : m = n ∧ v = rest := by simpa using heq
  exact refersTo_of_reference href

theorem boundValue_eq_some (h : boundValue s = some (n, rest)) :
    ∃ t, t <:+ s ∧ reference t = some (n, rest) := by
  obtain ⟨t, harrow, href⟩ := Option.bind_eq_some_iff.1 h
  have ht : t <:+ s := (Text.suffix_of_after? harrow).trans (Text.dropBlanks_suffix s)
  exact ⟨t.dropBlanks, (Text.dropBlanks_suffix t).trans ht, href⟩

theorem binding_reads {before : Option Char} (h : binding before s = some (ns, rest)) :
    rest <:+ s ∧ ∀ n ∈ ns, RefersTo s n := by
  cases hword : wordMayStart before with
  | false => simp [binding_of_inside hword] at h
  | true =>
    rw [binding_eq hword] at h
    obtain ⟨u, hu, h⟩ := Option.bind_eq_some_iff.1 h
    obtain ⟨⟨key, t⟩, hkey, hbound⟩ := Option.map_eq_some_iff.1 h
    obtain ⟨v, has, hgap⟩ := Option.bind_eq_some_iff.1 hu
    have hsuf : u <:+ s := (Text.dropBlanks1?_suffix hgap).trans (Text.suffix_of_after? has)
    have hrefers := (refersTo_of_reference hkey).of_suffix hsuf
    have ht : t <:+ s := (reference_leavesSuffix _ _ _ hkey).trans hsuf
    unfold bound at hbound
    split at hbound
    · rename_i value w hvalue
      obtain ⟨rfl, rfl⟩ := Prod.mk.inj hbound
      obtain ⟨x, hx, href⟩ := boundValue_eq_some hvalue
      refine ⟨(reference_leavesSuffix _ _ _ href).trans (hx.trans ht), ?_⟩
      have hrefers' := (refersTo_of_reference href).of_suffix (hx.trans ht)
      simp [hrefers, hrefers']
    · obtain ⟨rfl, rfl⟩ := Prod.mk.inj hbound
      exact ⟨ht, by simpa using hrefers⟩

theorem refersTo_of_mem_references (s : Text) : ∀ n ∈ (references s).1, RefersTo s n := by
  induction s using references_induction with
  | stop s href => simp [references_of_none href]
  | step s n rest href ih =>
    have hrest : rest.dropWhile isSeparator <:+ s :=
      (List.dropWhile_suffix isSeparator).trans (reference_leavesSuffix _ _ _ href)
    rw [references_of_some href]
    exact List.forall_mem_cons.2
      ⟨refersTo_of_reference href, fun m hm => (ih m hm).of_suffix hrest⟩

theorem refersTo_of_destructuring (h : destructuring s = some (ns, rest)) :
    ∀ n ∈ ns, RefersTo s n := by
  rw [destructuring_eq] at h
  obtain ⟨t, hstart, hitems⟩ := Option.bind_eq_some_iff.1 h
  obtain ⟨o, _, rfl⟩ := listStart?_iff.1 hstart
  rw [listItems?, listed?] at hitems
  split at hitems
  · exact absurd hitems (by simp)
  · obtain ⟨_, _, heq⟩ := Option.map_eq_some_iff.1 hitems
    obtain ⟨rfl, _⟩ := Prod.mk.inj heq
    have ht : t.dropBlanks <:+ o ++ t := (Text.dropBlanks_suffix t).trans (List.suffix_append o t)
    exact fun n hn => (refersTo_of_mem_references _ n hn).of_suffix ht

end Code

/-! ### Definitions and usages -/

namespace Flow

variable {code n : Text}

theorem mem_usages : n ∈ (ofCode code).usages.toList ↔ Code.RefersTo code n ∧ n ∉ ambientNames := by
  simp [ofCode, usagesOf, ← Code.mem_references_iff]

theorem refersTo_of_mem_definitions (h : n ∈ (ofCode code).definitions.toList) :
    Code.RefersTo code n := by
  rcases mem_definitions.1 h with hassign | ⟨ns, hbind, hn⟩ | ⟨ns, hlist, hn⟩
  · obtain ⟨u, v, rest, rfl, hread⟩ :=
      Text.exists_read_of_mem_allMatches Code.assignment_leavesSuffix hassign
    exact (Code.refersTo_of_assignment hread).of_suffix (List.suffix_append u v)
  · obtain ⟨u, v, b, rest, rfl, hread⟩ :=
      Text.exists_read_of_mem_occurrences (fun _ _ _ _ h => (Code.binding_reads h).1) hbind
    exact ((Code.binding_reads hread).2 n hn).of_suffix (List.suffix_append u v)
  · obtain ⟨u, v, rest, rfl, hread⟩ :=
      Text.exists_read_of_mem_allMatches Code.destructuring_leavesSuffix hlist
    exact (Code.refersTo_of_destructuring hread n hn).of_suffix (List.suffix_append u v)

end Flow

/-! ### Hazards -/

structure Hazard.WellNamed (h : Hazard) : Prop where
  ne_nil : h.names ≠ []
  sorted : h.names.Pairwise fun m n => m.before n = true
  not_ambient : ∀ n ∈ h.names, n ∉ ambientNames

theorem BlockFlow.exists_code {s : Text} {b : BlockFlow} (hb : b ∈ ofText s) :
    ∃ code, b.flow = .ofCode code := by
  unfold ofText at hb
  dsimp only at hb
  split at hb
  · obtain ⟨m, _, rfl⟩ := List.mem_map.1 hb
    exact ⟨_, rfl⟩
  · obtain ⟨c, _, rfl⟩ := List.mem_map.1 hb
    exact ⟨_, rfl⟩

/-- The names that one block misses from another one are usages of a flow, and these leave out the
ambient names. -/
theorem Hazard.wellNamed_of_supplies {s : Text} {h : Hazard} {producer consumer : BlockFlow}
    (hconsumer : consumer ∈ BlockFlow.ofText s) (hnames : h.names = producer.supplies consumer)
    (hne : h.names ≠ []) : h.WellNamed := by
  refine ⟨hne, ?_, fun n hn => ?_⟩
  · rw [hnames]
    exact NameSet.pairwise_common _ _
  · rw [hnames] at hn
    obtain ⟨code, hcode⟩ := BlockFlow.exists_code hconsumer
    have hused := (NameSet.mem_common.1 hn).2
    rw [hcode] at hused
    exact (Flow.mem_usages.1 hused).2

theorem exists_supplies_of_mem_checkMove {s moved after : Text} {h : Hazard}
    (hh : h ∈ checkMove s moved after) : ∃ producer consumer : BlockFlow,
      consumer ∈ BlockFlow.ofText s ∧ h.block = consumer.name ∧
        h.names = producer.supplies consumer ∧ h.names ≠ [] := by
  have hsome : ¬ checkMove s moved after = [] := List.ne_nil_of_mem hh
  cases hi : (BlockFlow.ofText s).findIdx? fun b => b.name == moved with
  | none => exact absurd (checkMove_eq_nil (.inr (.inl (findIdx?_name_eq_none_iff.1 hi)))) hsome
  | some i =>
    cases ht : gapAfter? (BlockFlow.ofText s) after with
    | none =>
      exact absurd (checkMove_eq_nil (.inr (.inr (.inl (gapAfter?_eq_none_iff.1 ht))))) hsome
    | some t =>
      have hne : after ≠ moved := fun heq =>
        hsome (checkMove_eq_nil (.inr (.inr (.inr heq))))
      have hfrom := findIdx?_name_eq_some_iff.1 hi
      obtain ⟨mover, hmover⟩ := id hfrom
      rw [checkMove_eq_of_moves hfrom (gapAfter?_eq_some_iff.1 ht) hne, List.mem_eraseDups] at hh
      obtain ⟨producer, consumer, ⟨p, c, hp, hc, _⟩, hblock, hnames, hne⟩ :=
        (exists_mem_moveHazards_iff hmover.1).1 ⟨_, hh⟩
      exact ⟨producer, consumer, List.mem_of_getElem? hc, hblock, hnames, hne⟩

theorem exists_supplies_of_mem_checkReorder {s : Text} {original new : List Text} {h : Hazard}
    (hh : h ∈ checkReorder s original new) : ∃ producer consumer : BlockFlow,
      consumer ∈ BlockFlow.ofText s ∧ h.block = consumer.name ∧
        h.names = producer.supplies consumer ∧ h.names ≠ [] := by
  obtain ⟨producer, consumer, hinv, hblock, hnames, hne⟩ := exists_mem_checkReorder_iff.1 ⟨_, hh⟩
  obtain ⟨k, l, c, p, oldC, oldP, _, _, _, htracked, _⟩ := hinv
  obtain ⟨i, hi⟩ := htracked.1
  exact ⟨producer, consumer, List.mem_of_getElem? hi.1, hblock, hnames, hne⟩

theorem wellNamed_of_mem_checkMove {s moved after : Text} {h : Hazard}
    (hh : h ∈ checkMove s moved after) : h.WellNamed := by
  obtain ⟨_, _, hconsumer, _, hnames, hne⟩ := exists_supplies_of_mem_checkMove hh
  exact Hazard.wellNamed_of_supplies hconsumer hnames hne

theorem wellNamed_of_mem_checkReorder {s : Text} {original new : List Text} {h : Hazard}
    (hh : h ∈ checkReorder s original new) : h.WellNamed := by
  obtain ⟨_, _, hconsumer, _, hnames, hne⟩ := exists_supplies_of_mem_checkReorder hh
  exact Hazard.wellNamed_of_supplies hconsumer hnames hne

/-- Among what a piece of code defines, it uses exactly what is not ambient, and so the names of
every hazard of a move or of a new order are sorted, not ambient, and not missing. -/
theorem definitions_used :
    (∀ code n, n ∈ (Flow.ofCode code).definitions.toList →
      (n ∈ (Flow.ofCode code).usages.toList ↔ n ∉ ambientNames)) ∧
    (∀ s moved after, ∀ h ∈ checkMove s moved after, h.WellNamed) ∧
    ∀ s original new, ∀ h ∈ checkReorder s original new, h.WellNamed := by
  refine ⟨fun code n hn => ?_, fun _ _ _ _ => wellNamed_of_mem_checkMove,
    fun _ _ _ _ => wellNamed_of_mem_checkReorder⟩
  have hrefers := Flow.refersTo_of_mem_definitions hn
  exact Flow.mem_usages.trans (and_iff_right hrefers)

def listedCode : Text := "[$x, $this] = f($_GET);".toList

def listedAhead : Text := Text.join ['\n']
  ["<!-- @block:a -->".toList, listedCode, "<!-- @endblock:a -->".toList,
    "<!-- @block:b -->".toList, "$this->g($x);".toList, "<!-- @endblock:b -->".toList]

set_option maxRecDepth 2000 in
theorem definitions_used_listed :
    (Flow.ofCode listedCode).definitions.toList = ["this".toList, "x".toList] ∧
    "x".toList ∈ (Flow.ofCode listedCode).usages.toList ∧
    "this".toList ∉ (Flow.ofCode listedCode).usages.toList ∧
    (∃ h ∈ checkMove listedAhead "a".toList "b".toList, h.names = ["x".toList] ∧ h.WellNamed) ∧
    ∃ h ∈ checkReorder listedAhead ["a".toList, "b".toList] ["b".toList, "a".toList],
      h.names = ["x".toList] ∧ h.WellNamed := by
  obtain ⟨hused, hmove, hreorder⟩ := definitions_used
  have hdefined : (Flow.ofCode listedCode).definitions.toList = ["this".toList, "x".toList] := by
    cbv
  have hx : "x".toList ∈ (Flow.ofCode listedCode).definitions.toList := by simp [hdefined]
  have hthis : "this".toList ∈ (Flow.ofCode listedCode).definitions.toList := by simp [hdefined]
  have hloses : checkMove listedAhead "a".toList "b".toList =
      [⟨"b".toList, ["x".toList], .losesDefinitions⟩] := by
    cbv
  have hboth : checkReorder listedAhead ["a".toList, "b".toList] ["b".toList, "a".toList] =
      [⟨"b".toList, ["x".toList], .providesDefinitions⟩,
        ⟨"b".toList, ["x".toList], .losesDefinitions⟩] := by
    cbv
  have hfirst := hmove listedAhead "a".toList "b".toList
  have hsecond := hreorder listedAhead ["a".toList, "b".toList] ["b".toList, "a".toList]
  rw [hloses] at hfirst ⊢
  rw [hboth] at hsecond ⊢
  exact ⟨hdefined, (hused _ _ hx).2 (by decide), fun h => (hused _ _ hthis).1 h (by decide),
    ⟨_, List.mem_cons_self, rfl, hfirst _ List.mem_cons_self⟩,
    ⟨_, List.mem_cons_self, rfl, hsecond _ List.mem_cons_self⟩⟩

end TemplateBlocks
