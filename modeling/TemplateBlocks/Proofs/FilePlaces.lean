import Mathlib.Data.List.Nodup
import TemplateBlocks.Fixture.Suite

/-!
# Places in a file tree

Names lead from a directory to what lies below it (`FileTree.At`). Where the directories of a disk
hold proper names, each of them once, a path that is extended by such a name leads to the entry of
this name, if the path is short enough and the directory lets it be looked up
(`Disk.find?_joinPath`). So the names that directories list one after the other are those that lead
to a tree, as long as nothing stands in the way (`Disk.listsAlong_iff`). The operations that
build a disk keep its directories proper (`FileTree.WellFormed.putFile`).
-/

namespace TemplateBlocks

namespace OsText

@[simp] theorem byteLength_append (s t : OsText) :
    byteLength (s ++ t) = byteLength s + byteLength t := by
  simp [byteLength, bytes]

theorem byteLength_replicate (n : Nat) (c : OsChar) :
    byteLength (List.replicate n c) = n * c.bytes.length := by
  rw [byteLength, bytes, List.length_flatMap, List.map_replicate, List.sum_replicate_nat]

theorem text?_eq_some_iff {s : OsText} {t : Text} : s.text? = some t ↔ s = t.os := by
  induction s generalizing t with
  | nil =>
    cases t with
    | nil => simp [text?, Text.os]
    | cons c t => simp [text?, Text.os]
  | cons a s ih =>
    cases a with
    | stray bytes =>
      cases t with
      | nil => simp [text?, Text.os]
      | cons c t => simp [text?, Text.os]
    | char c =>
      cases t with
      | nil => simp [text?, Text.os]
      | cons c' t => simp [text?, Text.os, ih, and_comm]

@[simp] theorem shown_os (t : Text) : t.os.shown = t := by
  rw [shown, Text.os, List.map_map]
  exact List.map_id'' (fun _ => rfl) t

/-- Only the replacement character is shown for what is no character. -/
theorem mem_of_mem_shown {s : OsText} {c : Char} (hc : c ≠ '\uFFFD') (h : c ∈ s.shown) :
    .char c ∈ s := by
  obtain ⟨a, ha, rfl⟩ := List.mem_map.1 h
  cases a with
  | char c => exact ha
  | stray bytes => exact absurd rfl hc

end OsText

namespace FileTree

/-! ### Names and places -/

/-- A name that a directory can hold. -/
structure ProperName (name : OsText) : Prop where
  ne_nil : name ≠ []
  ne_here : name ≠ here
  ne_up : name ≠ up
  slash_free : slash ∉ name
  nul_free : .char '\x00' ∉ name
  length_le : name.byteLength ≤ 255

instance (name : OsText) : Decidable (ProperName name) :=
  decidable_of_iff (name ≠ [] ∧ name ≠ here ∧ name ≠ up ∧ slash ∉ name ∧ .char '\x00' ∉ name ∧
      name.byteLength ≤ 255)
    ⟨fun ⟨h1, h2, h3, h4, h5, h6⟩ => ⟨h1, h2, h3, h4, h5, h6⟩,
      fun h => ⟨h.ne_nil, h.ne_here, h.ne_up, h.slash_free, h.nul_free, h.length_le⟩⟩

/-- Every directory of the tree holds proper names, each of them once. -/
inductive WellFormed : FileTree → Prop
  | file (content : Content) : WellFormed (.file content)
  | directory {access : Access} {entries : List (OsText × FileTree)}
      (proper : ∀ e ∈ entries, ProperName e.1) (nodup : (entries.map Prod.fst).Nodup)
      (below : ∀ e ∈ entries, WellFormed e.2) : WellFormed (.directory access entries)

/-- Names lead from a tree to a tree within it. -/
inductive At : FileTree → List OsText → FileTree → Prop
  | here (t : FileTree) : At t [] t
  | step {access : Access} {entries : List (OsText × FileTree)} {name : OsText} {t u : FileTree}
      {names : List OsText} (mem : (name, t) ∈ entries) (rest : At t names u) :
      At (.directory access entries) (name :: names) u

variable {access : Access} {entries : List (OsText × FileTree)} {name : OsText}
  {names : List OsText} {t u : FileTree}

theorem at_cons_iff :
    At (.directory access entries) (name :: names) u ↔ ∃ t, (name, t) ∈ entries ∧ At t names u := by
  constructor
  · intro h
    cases h with
    | step hmem hrest => exact ⟨_, hmem, hrest⟩
  · rintro ⟨t, hmem, hrest⟩
    exact .step hmem hrest

theorem at_empty_iff :
    At (.directory access []) names u ↔ names = [] ∧ u = .directory access [] := by
  constructor
  · intro h
    cases h with
    | here => exact ⟨rfl, rfl⟩
    | step hmem hrest => exact absurd hmem List.not_mem_nil
  · rintro ⟨rfl, rfl⟩
    exact .here _

theorem At.of_cons {e : OsText × FileTree} (h : At (.directory access (e :: entries)) names u) :
    (names = [] ∧ u = .directory access (e :: entries)) ∨
      (∃ rest, names = e.1 :: rest ∧ At e.2 rest u) ∨ At (.directory access entries) names u := by
  cases h with
  | here => exact .inl ⟨rfl, rfl⟩
  | step hmem hrest =>
    rcases List.mem_cons.1 hmem with rfl | hlater
    · exact .inr (.inl ⟨_, rfl, hrest⟩)
    · exact .inr (.inr (.step hlater hrest))

/-! ### Building trees -/

section Building

variable {f : Option FileTree → FileTree} {o : Option FileTree}

theorem map_fst_change : (change name f entries).map Prod.fst =
    if name ∈ entries.map Prod.fst then entries.map Prod.fst
    else entries.map Prod.fst ++ [name] := by
  induction entries with
  | nil => rfl
  | cons e entries ih =>
    obtain ⟨m, t⟩ := e
    by_cases hm : m = name
    · simp [change, hm]
    · have hname : name ≠ m := fun heq => hm heq.symm
      rw [change, if_neg hm, List.map_cons, List.map_cons, ih]
      by_cases hmem : name ∈ entries.map Prod.fst
      · rw [if_pos hmem, if_pos (List.mem_cons_of_mem m hmem)]
      · rw [if_neg hmem, if_neg (List.not_mem_cons_of_ne_of_not_mem hname hmem), List.cons_append]

/-- The entries stay as they are but for the one that is changed or new. -/
theorem mem_change {e : OsText × FileTree} (h : e ∈ change name f entries) :
    e ∈ entries ∨ e = (name, f none) ∨ ∃ t, (name, t) ∈ entries ∧ e = (name, f (some t)) := by
  induction entries with
  | nil => exact .inr (.inl (List.mem_singleton.1 h))
  | cons a entries ih =>
    obtain ⟨m, t⟩ := a
    by_cases hm : m = name
    · subst hm
      rw [change, if_pos rfl] at h
      rcases List.mem_cons.1 h with rfl | hrest
      · exact .inr (.inr ⟨t, List.mem_cons_self .., rfl⟩)
      · exact .inl (List.mem_cons_of_mem _ hrest)
    · rw [change, if_neg hm] at h
      rcases List.mem_cons.1 h with rfl | hrest
      · exact .inl (List.mem_cons_self ..)
      · rcases ih hrest with hmem | hnew | ⟨u, hu, heq⟩
        · exact .inl (List.mem_cons_of_mem _ hmem)
        · exact .inr (.inl hnew)
        · exact .inr (.inr ⟨u, List.mem_cons_of_mem _ hu, heq⟩)

theorem wellFormed_getD_entries (access : Access) (ho : ∀ t, o = some t → t.WellFormed) :
    WellFormed (.directory access ((o.map FileTree.entries).getD [])) := by
  have hempty : WellFormed (.directory access []) :=
    .directory (fun e he => absurd he List.not_mem_nil) List.nodup_nil
      fun e he => absurd he List.not_mem_nil
  cases o with
  | none => exact hempty
  | some t =>
    cases t with
    | file content => exact hempty
    | directory access' entries =>
      cases ho _ rfl with
      | directory proper nodup below => exact .directory proper nodup below

theorem WellFormed.change (h : WellFormed (.directory access entries)) (hname : ProperName name)
    (hf : ∀ o : Option FileTree, (∀ t, o = some t → t.WellFormed) → (f o).WellFormed) :
    WellFormed (.directory access (change name f entries)) := by
  cases h with
  | directory proper nodup below =>
    have hnew : (f none).WellFormed := hf none fun t ht => absurd ht (by simp)
    have hchanged {t : FileTree} (ht : (name, t) ∈ entries) : (f (some t)).WellFormed :=
      hf (some t) fun u hu => Option.some.inj hu ▸ below _ ht
    refine .directory (fun e he => ?_) ?_ fun e he => ?_
    · rcases mem_change he with hmem | rfl | ⟨t, -, rfl⟩
      · exact proper e hmem
      · exact hname
      · exact hname
    · rw [map_fst_change]
      split
      · exact nodup
      · rename_i hmem
        exact List.nodup_append'.2 ⟨nodup, List.nodup_singleton name, by simpa using hmem⟩
    · rcases mem_change he with hmem | rfl | ⟨t, ht, rfl⟩
      · exact below e hmem
      · exact hnew
      · exact hchanged ht

theorem WellFormed.putFile (content : Content) (hnames : ∀ n ∈ names, ProperName n)
    (ho : ∀ t, o = some t → t.WellFormed) : (putFile content names o).WellFormed := by
  induction names generalizing o with
  | nil => exact .file content
  | cons n names ih =>
    obtain ⟨hn, hrest⟩ := List.forall_mem_cons.1 hnames
    exact (wellFormed_getD_entries _ ho).change hn fun o ho => ih hrest ho

theorem WellFormed.putDirectory (access : Access) (hnames : ∀ n ∈ names, ProperName n)
    (ho : ∀ t, o = some t → t.WellFormed) : (putDirectory access names o).WellFormed := by
  induction names generalizing o with
  | nil => exact wellFormed_getD_entries access ho
  | cons n names ih =>
    obtain ⟨hn, hrest⟩ := List.forall_mem_cons.1 hnames
    exact (wellFormed_getD_entries _ ho).change hn fun o ho => ih hrest ho

end Building

/-! ### Steps -/

/-- A step stays, goes up, or goes to an entry of the directory. -/
theorem step?_eq_ok {place place' : List FileTree} (h : step? place name = .ok place') :
    place' = place ∨ (∃ t, place = t :: place') ∨ ∃ access entries outer t,
      place = .directory access entries :: outer ∧ (name, t) ∈ entries ∧ place' = t :: place := by
  rcases place with _ | ⟨_ | ⟨access, entries⟩, outer⟩
  · cases h
  · cases h
  · simp only [step?] at h
    split at h
    · exact .inl (Except.ok.inj h).symm
    split at h
    · cases h
    split at h
    · exact .inl (Except.ok.inj h).symm
    split at h
    · split at h
      · exact .inl (Except.ok.inj h).symm
      · exact .inr (.inl ⟨.directory access entries, by rw [Except.ok.inj h]⟩)
    split at h
    · cases h
    split at h
    · cases h
    · rename_i t hlookup
      obtain ⟨front, back, rfl, -⟩ := List.lookup_eq_some_iff.1 hlookup
      refine .inr (.inr ⟨_, _, outer, t, rfl, ?_, (Except.ok.inj h).symm⟩)
      exact List.mem_append_right front (List.mem_cons_self ..)

theorem wellFormed_of_mem (h : WellFormed (.directory access entries))
    (hmem : (name, t) ∈ entries) : t.WellFormed := by
  cases h with
  | directory proper nodup below => exact below _ hmem

theorem forall_wellFormed_step? {place place' : List FileTree} (h : step? place name = .ok place')
    (hplace : ∀ t ∈ place, t.WellFormed) : ∀ t ∈ place', t.WellFormed := by
  rcases step?_eq_ok h with rfl | ⟨t, rfl⟩ | ⟨access, entries, outer, t, rfl, hmem, rfl⟩
  · exact hplace
  · exact fun u hu => hplace u (List.mem_cons_of_mem t hu)
  · have ht := wellFormed_of_mem (hplace _ (List.mem_cons_self ..)) hmem
    exact List.forall_mem_cons.2 ⟨ht, hplace⟩

theorem forall_wellFormed_foldlM {names : List OsText} {place place' : List FileTree}
    (h : names.foldlM step? place = .ok place') (hplace : ∀ t ∈ place, t.WellFormed) :
    ∀ t ∈ place', t.WellFormed := by
  induction names generalizing place with
  | nil =>
    cases h
    exact hplace
  | cons n names ih =>
    rw [List.foldlM_cons] at h
    cases hstep : step? place n with
    | error e =>
      rw [hstep] at h
      cases h
    | ok next =>
      rw [hstep] at h
      exact ih h (forall_wellFormed_step? hstep hplace)

theorem forall_wellFormed_enter {place : List FileTree} (hplace : ∀ t ∈ place, t.WellFormed) :
    ∀ t ∈ enter place name, t.WellFormed := by
  have hnone : ∀ t ∈ ([] : List FileTree), t.WellFormed := fun t ht => absurd ht List.not_mem_nil
  rcases place with _ | ⟨t, outer⟩
  · exact hnone
  · simp only [enter]
    cases hlookup : t.entries.lookup name with
    | none => exact hnone
    | some u =>
      obtain ⟨front, back, hentries, -⟩ := List.lookup_eq_some_iff.1 hlookup
      have hmem : (name, u) ∈ t.entries := by simp [hentries]
      refine List.forall_mem_cons.2 ⟨?_, hplace⟩
      cases t with
      | file content => exact absurd hmem List.not_mem_nil
      | directory access entries => exact wellFormed_of_mem (hplace _ (List.mem_cons_self ..)) hmem

theorem lookup_of_mem (hnodup : (entries.map Prod.fst).Nodup) (hmem : (name, t) ∈ entries) :
    entries.lookup name = some t := by
  induction entries with
  | nil => exact absurd hmem List.not_mem_nil
  | cons e entries ih =>
    obtain ⟨m, u⟩ := e
    rw [List.map_cons, List.nodup_cons] at hnodup
    rcases List.mem_cons.1 hmem with heq | hlater
    · cases heq
      exact List.lookup_cons_self
    · have hne : name ≠ m := by
        intro heq
        exact hnodup.1 (heq ▸ List.mem_map.2 ⟨_, hlater, rfl⟩)
      rw [List.lookup_cons, beq_false_of_ne hne]
      exact ih hnodup.2 hlater

theorem step?_of_mem (h : WellFormed (.directory access entries)) (hmem : (name, t) ∈ entries)
    (outer : List FileTree) : step? (.directory access entries :: outer) name =
      if access.searched then .ok (t :: .directory access entries :: outer)
      else .error .denied := by
  cases h with
  | directory proper nodup below =>
    have hname : ProperName name := proper _ hmem
    have hempty : name.isEmpty = false := List.isEmpty_eq_false_iff.2 hname.ne_nil
    have hhere : (name == here) = false := beq_false_of_ne hname.ne_here
    have hup : (name == up) = false := beq_false_of_ne hname.ne_up
    have hshort : ¬ 255 < name.byteLength := Nat.not_lt.2 hname.length_le
    cases hsearched : access.searched with
    | false => simp [step?, hempty, hsearched]
    | true => simp [step?, hempty, hsearched, hhere, hup, hshort, lookup_of_mem nodup hmem]

theorem foldlM_step?_concat (place : List FileTree) (names : List OsText) (name : OsText) :
    (names ++ [name]).foldlM step? place = names.foldlM step? place >>= fun p => step? p name := by
  rw [List.foldlM_append]
  simp

theorem steps_append_slash (path : OsText) (hname : slash ∉ name) :
    steps (path ++ slash :: name) = steps path ++ [name] := by
  rw [steps, List.splitOn_append_cons_self, List.splitOn_eq_singleton hname, steps]

/-- An empty step needs a directory and stays in it. -/
theorem step?_nil_bind (place : List FileTree) (name : OsText) :
    (step? place [] >>= fun p => step? p name) = step? place name := by
  rcases place with _ | ⟨_ | ⟨access, entries⟩, outer⟩
  · rfl
  · rfl
  · rfl

end FileTree

/-! ### Longer paths -/

open FileTree (slash)

theorem exists_joinPath_eq (path name : OsText) : ∃ w, joinPath path name = path ++ w := by
  unfold joinPath
  split
  · exact ⟨name, rfl⟩
  · exact ⟨slash :: name, rfl⟩

/-- A path that ends in a slash is extended without another one. -/
theorem joinPath_cases (path name : OsText) :
    (∃ p, path = p ++ [slash] ∧ joinPath path name = p ++ slash :: name) ∨
      joinPath path name = path ++ slash :: name := by
  unfold joinPath
  split
  · rename_i hend
    obtain ⟨p, rfl⟩ := List.getLast?_eq_some_iff.1 (eq_of_beq hend)
    exact .inl ⟨p, rfl, by simp⟩
  · exact .inr rfl

/-- The path with slashes behind it. -/
def withSlashes (path : OsText) (slashes : Nat) : OsText := path ++ List.replicate slashes slash

theorem withSlashes_succ (path : OsText) (slashes : Nat) :
    withSlashes path (slashes + 1) = withSlashes path slashes ++ [slash] := by
  rw [withSlashes, withSlashes, List.replicate_succ', List.append_assoc]

theorem joinPath_withSlashes (path : OsText) (slashes : Nat) (name : OsText) :
    joinPath (withSlashes path (slashes + 1)) name = withSlashes path (slashes + 1) ++ name := by
  have hend : ((withSlashes path (slashes + 1)).getLast? == some slash) = true := by
    rw [withSlashes_succ, List.getLast?_concat, beq_self_eq_true]
  rw [joinPath, if_pos hend]

/-- The path extended by names, one after the other. -/
def pathTo (path : OsText) (names : List OsText) : OsText := names.foldl joinPath path

/-- Nothing below the path stands in the way: directories can be listed and searched, paths are
short, and the names are texts without backslashes. -/
structure FileTree.Plain (t : FileTree) (path : OsText) : Prop where
  full : ∀ names access entries, t.At names (.directory access entries) → access = .full
  short : ∀ names u, t.At names u → Disk.fits (pathTo path names) = true
  named : ∀ names u, t.At names u → ∀ n ∈ names, (∃ s : Text, n = s.os) ∧ .char '\\' ∉ n

namespace FileTree.Plain

variable {entries : List (OsText × FileTree)} {t : FileTree} {path : OsText}

theorem file {content : Content} (h : Disk.fits path = true) :
    (FileTree.file content).Plain path where
  full names access entries hu := by cases hu
  short names u hu := by
    cases hu
    exact h
  named names u hu := by
    cases hu
    exact fun n hn => absurd hn List.not_mem_nil

theorem empty (h : Disk.fits path = true) : (directory .full []).Plain path where
  full names access entries hu := by
    obtain ⟨-, heq⟩ := at_empty_iff.1 hu
    cases heq
    rfl
  short names u hu := by
    obtain ⟨rfl, -⟩ := at_empty_iff.1 hu
    exact h
  named names u hu := by
    obtain ⟨rfl, -⟩ := at_empty_iff.1 hu
    exact fun n hn => absurd hn List.not_mem_nil

theorem cons {s : Text} (hs : .char '\\' ∉ s.os) (ht : t.Plain (joinPath path s.os))
    (h : (directory .full entries).Plain path) :
    (directory .full ((s.os, t) :: entries)).Plain path where
  full names access found hu := by
    rcases hu.of_cons with ⟨-, heq⟩ | ⟨rest, -, hrest⟩ | hlater
    · cases heq
      rfl
    · exact ht.full rest access found hrest
    · exact h.full names access found hlater
  short names u hu := by
    rcases hu.of_cons with ⟨rfl, -⟩ | ⟨rest, rfl, hrest⟩ | hlater
    · exact h.short [] _ (.here _)
    · exact ht.short rest u hrest
    · exact h.short names u hlater
  named names u hu := by
    rcases hu.of_cons with ⟨rfl, -⟩ | ⟨rest, rfl, hrest⟩ | hlater
    · exact fun n hn => absurd hn List.not_mem_nil
    · exact List.forall_mem_cons.2 ⟨⟨⟨s, rfl⟩, hs⟩, ht.named rest u hrest⟩
    · exact h.named names u hlater

theorem step {access : Access} {name : OsText} (h : (directory access entries).Plain path)
    (hmem : (name, t) ∈ entries) : t.Plain (joinPath path name) where
  full names access entries hu := h.full (name :: names) access entries (.step hmem hu)
  short names u hu := h.short (name :: names) u (.step hmem hu)
  named names u hu n hn :=
    h.named (name :: names) u (.step hmem hu) n (List.mem_cons_of_mem name hn)

end FileTree.Plain

namespace Disk

variable {d : Disk} {path name : OsText} {names : List OsText} {access : Access}
  {entries : List (OsText × FileTree)} {t u : FileTree}

theorem fits_of_append {v : OsText} (h : fits (path ++ v) = true) : fits path = true := by
  simp only [fits, OsText.byteLength_append, decide_eq_true_eq] at h ⊢
  omega

theorem fits_withSlashes (path : OsText) (slashes : Nat) (name : OsText) :
    fits (withSlashes path slashes ++ name) =
      decide (path.byteLength + slashes + name.byteLength < 4096) := by
  have hslash : slash.bytes.length = 1 := rfl
  rw [fits, withSlashes, OsText.byteLength_append, OsText.byteLength_append,
    OsText.byteLength_replicate, hslash, Nat.mul_one]

/-- The trees on the way to a path, the last of them first. -/
def walk (d : Disk) (path : OsText) : Except ReadError (List FileTree) :=
  (FileTree.steps path).foldlM FileTree.step? (d.start path)

/-- A path that has a NUL, is empty or is too long is refused; any other is walked. -/
theorem find?_eq (d : Disk) (path : OsText) : d.find? path =
    if path.contains (.char '\x00') then .error .nulInPath
    else if path.isEmpty then .error .notFound
    else if !fits path then .error .nameTooLong
    else d.walk path >>= fun place => match place with
      | [] => .error .notFound
      | t :: _ => .ok t := by
  unfold find?
  cases path.contains (.char '\x00') with
  | true => rfl
  | false =>
    cases path.isEmpty with
    | true => rfl
    | false =>
      cases fits path with
      | true => rfl
      | false => rfl

theorem find?_eq_ok_iff : d.find? path = .ok t ↔
    .char '\x00' ∉ path ∧ path ≠ [] ∧ fits path = true ∧
      ∃ outer, d.walk path = .ok (t :: outer) := by
  rw [find?_eq]
  by_cases hnul : .char '\x00' ∈ path
  · simp [hnul]
  · by_cases hnil : path = []
    · simp [hnil]
    · cases hfits : fits path with
      | false => simp [hnul, hnil]
      | true =>
        cases hwalk : d.walk path with
        | error e => simp [hnul, hnil, bind, Except.bind]
        | ok place =>
          cases place with
          | nil => simp [hnul, hnil, bind, Except.bind]
          | cons u outer => simp [hnul, hnil, bind, Except.bind]

theorem start_append {v : OsText} (hpath : path ≠ []) : d.start (path ++ v) = d.start path := by
  rw [start, start, FileTree.isAbsolute, FileTree.isAbsolute, List.head?_append_of_ne_nil _ hpath]

theorem walk_joinPath (hpath : path ≠ []) (hname : slash ∉ name) :
    d.walk (joinPath path name) = d.walk path >>= fun place => FileTree.step? place name := by
  have hstart : d.start (joinPath path name) = d.start path := by
    obtain ⟨w, hw⟩ := exists_joinPath_eq path name
    rw [hw, start_append hpath]
  unfold walk
  rw [hstart]
  rcases joinPath_cases path name with ⟨p, rfl, hjoin⟩ | hjoin
  · rw [hjoin, FileTree.steps_append_slash p hname, FileTree.steps_append_slash p List.not_mem_nil,
      FileTree.foldlM_step?_concat, FileTree.foldlM_step?_concat, bind_assoc]
    exact bind_congr fun place => (FileTree.step?_nil_bind place name).symm
  · rw [hjoin, FileTree.steps_append_slash path hname, FileTree.foldlM_step?_concat]

theorem wellFormed_of_find? (hd : d.root.WellFormed) (h : d.find? path = .ok t) : t.WellFormed := by
  obtain ⟨-, -, -, outer, hwalk⟩ := find?_eq_ok_iff.1 h
  have hroot : ∀ t ∈ [d.root], t.WellFormed := by
    simpa using hd
  have hhere (names : List OsText) : ∀ place : List FileTree, (∀ t ∈ place, t.WellFormed) →
      ∀ t ∈ names.foldl FileTree.enter place, t.WellFormed := by
    induction names with
    | nil => exact fun place hplace => hplace
    | cons n names ih => exact fun place hplace => ih _ (FileTree.forall_wellFormed_enter hplace)
  have hstart : ∀ t ∈ d.start path, t.WellFormed := by
    unfold start
    split
    · exact hroot
    · exact hhere _ _ hroot
  exact FileTree.forall_wellFormed_foldlM hwalk hstart t (List.mem_cons_self ..)

/-- What is found behind the path of a directory, at a name that it holds. -/
theorem find?_joinPath (hd : d.root.WellFormed)
    (hpath : d.find? path = .ok (.directory access entries)) (hmem : (name, t) ∈ entries) :
    d.find? (joinPath path name) =
      if fits (joinPath path name) then if access.searched then .ok t else .error .denied
      else .error .nameTooLong := by
  obtain ⟨hnul, hnil, -, outer, hwalk⟩ := find?_eq_ok_iff.1 hpath
  have ht : FileTree.WellFormed (.directory access entries) := wellFormed_of_find? hd hpath
  have hname : FileTree.ProperName name := by
    cases ht with
    | directory proper nodup below => exact proper _ hmem
  have hjoined : (joinPath path name).contains (.char '\x00') = false := by
    have hslash : .char '\x00' ≠ slash := by decide
    rcases joinPath_cases path name with ⟨p, rfl, hjoin⟩ | hjoin
    · have hp : .char '\x00' ∉ p := fun h => hnul (List.mem_append_left _ h)
      simp [hjoin, hp, hname.nul_free, hslash]
    · simp [hjoin, hnul, hname.nul_free, hslash]
  have hne : (joinPath path name).isEmpty = false := by
    obtain ⟨w, hw⟩ := exists_joinPath_eq path name
    rw [hw, List.isEmpty_eq_false_iff]
    exact List.append_ne_nil_of_left_ne_nil hnil w
  rw [find?_eq, hjoined, hne, walk_joinPath hnil hname.slash_free, hwalk]
  cases fits (joinPath path name) with
  | false => rfl
  | true =>
    have hstep := FileTree.step?_of_mem ht hmem outer
    cases hsearched : access.searched with
    | true =>
      rw [hsearched] at hstep
      simp [hstep, bind, Except.bind]
    | false =>
      rw [hsearched] at hstep
      simp [hstep, bind, Except.bind]

/-- Slashes behind the path of a directory do not matter. -/
theorem find?_withSlashes (hpath : d.find? path = .ok (.directory access entries)) {slashes : Nat}
    (hfits : fits (withSlashes path slashes) = true) :
    d.find? (withSlashes path slashes) = .ok (.directory access entries) := by
  induction slashes with
  | zero =>
    rw [withSlashes, List.replicate_zero, List.append_nil]
    exact hpath
  | succ slashes ih =>
    rw [withSlashes_succ] at hfits ⊢
    obtain ⟨hnul, hnil, -, outer, hwalk⟩ := find?_eq_ok_iff.1 (ih (fits_of_append hfits))
    have hslash : .char '\x00' ≠ slash := by decide
    refine find?_eq_ok_iff.2 ⟨by simpa [hslash] using hnul, by simp, hfits, outer, ?_⟩
    unfold walk at hwalk ⊢
    rw [start_append hnil, FileTree.steps_append_slash _ List.not_mem_nil,
      FileTree.foldlM_step?_concat, hwalk]
    rfl

/-! ### Names that directories list -/

theorem list?_eq_ok_iff : d.list? path = .ok entries ↔
    ∃ access, d.find? path = .ok (.directory access entries) ∧ access.listed = true := by
  unfold list?
  cases d.find? path with
  | error e => simp [bind, Except.bind]
  | ok t =>
    cases t with
    | file content => simp [bind, Except.bind, throw, throwThe, MonadExceptOf.throw]
    | directory access found =>
      cases hlisted : access.listed with
      | true => simp [bind, Except.bind, pure, Except.pure, hlisted]
      | false =>
        simp [bind, Except.bind, throw, throwThe, MonadExceptOf.throw, hlisted]

theorem isDirectory_iff : d.isDirectory path = true ↔
    ∃ access entries, d.find? path = .ok (.directory access entries) := by
  unfold isDirectory
  split
  · rename_i access entries hfind
    simp [hfind]
  · rename_i hnone
    simpa using hnone

/-- The directory at the path lists the name. -/
def Lists (d : Disk) (path name : OsText) : Prop :=
  ∃ entries, d.list? path = .ok entries ∧ ∃ t, (name, t) ∈ entries

/-- Each directory on the way, from the one at the path on, lists the next name. -/
def ListsAlong (d : Disk) : OsText → List OsText → Prop
  | _, [] => True
  | path, name :: names => d.Lists path name ∧ d.ListsAlong (joinPath path name) names

/-- Names that directories list are entries of directories. -/
theorem ListsAlong.proper (hd : d.root.WellFormed) (h : d.ListsAlong path names) :
    ∀ n ∈ names, FileTree.ProperName n := by
  induction names generalizing path with
  | nil => exact fun n hn => absurd hn List.not_mem_nil
  | cons name names ih =>
    obtain ⟨⟨entries, hlist, t, hmem⟩, hrest⟩ := h
    obtain ⟨access, hfind, -⟩ := list?_eq_ok_iff.1 hlist
    have hname : FileTree.ProperName name := by
      cases wellFormed_of_find? hd hfind with
      | directory proper nodup below => exact proper _ hmem
    exact List.forall_mem_cons.2 ⟨hname, ih hrest⟩

theorem find?_of_plain (hd : d.root.WellFormed)
    (hpath : d.find? path = .ok (.directory access entries))
    (ht : (FileTree.directory access entries).Plain path) (hmem : (name, t) ∈ entries) :
    d.find? (joinPath path name) = .ok t := by
  have hshort : fits (joinPath path name) = true := ht.short [name] t (.step hmem (.here t))
  obtain rfl : access = .full := ht.full [] _ _ (.here _)
  rw [find?_joinPath hd hpath hmem, if_pos hshort, Access.full]
  rfl

theorem lists_iff (h : d.find? path = .ok (.directory access entries)) :
    d.Lists path name ↔ access.listed = true ∧ ∃ t, (name, t) ∈ entries := by
  simp [Lists, list?_eq_ok_iff, h]

/-- A path extended by the names that lead to a tree leads to this tree. -/
theorem find?_pathTo (hd : d.root.WellFormed) (hpath : d.find? path = .ok t) (ht : t.Plain path)
    (h : t.At names u) : d.find? (pathTo path names) = .ok u := by
  induction h generalizing path with
  | here t => exact hpath
  | step hmem hrest ih => exact ih (find?_of_plain hd hpath ht hmem) (ht.step hmem)

/-- The names that directories list one after the other are those that lead to a tree. -/
theorem listsAlong_iff (hd : d.root.WellFormed) (hpath : d.find? path = .ok t) (ht : t.Plain path) :
    d.ListsAlong path names ↔ ∃ u, t.At names u := by
  induction names generalizing path t with
  | nil => exact ⟨fun _ => ⟨t, .here t⟩, fun _ => trivial⟩
  | cons n names ih =>
    cases t with
    | file content =>
      refine ⟨fun ⟨⟨entries, hlist, _⟩, _⟩ => ?_, fun ⟨u, hu⟩ => by cases hu⟩
      obtain ⟨access, hfind, -⟩ := list?_eq_ok_iff.1 hlist
      rw [hpath] at hfind
      cases hfind
    | directory access entries =>
      obtain rfl : access = .full := ht.full [] _ _ (.here _)
      rw [ListsAlong, lists_iff hpath]
      constructor
      · rintro ⟨⟨-, v, hmem⟩, hrest⟩
        obtain ⟨u, hu⟩ := (ih (find?_of_plain hd hpath ht hmem) (ht.step hmem)).1 hrest
        exact ⟨u, .step hmem hu⟩
      · rintro ⟨u, hu⟩
        obtain ⟨v, hmem, hv⟩ := FileTree.at_cons_iff.1 hu
        exact ⟨⟨rfl, v, hmem⟩, (ih (find?_of_plain hd hpath ht hmem) (ht.step hmem)).2 ⟨u, hv⟩⟩

theorem wellFormed_addFile (hd : d.root.WellFormed) {path : Text} {content : Content}
    (hnames : ∀ n ∈ FileTree.resolve d.workingDirectory path.os, FileTree.ProperName n) :
    (d.addFile path content).root.WellFormed :=
  .putFile content hnames fun _ ht => Option.some.inj ht ▸ hd

theorem wellFormed_addDirectory (hd : d.root.WellFormed) {path : Text} {access : Access}
    (hnames : ∀ n ∈ FileTree.resolve d.workingDirectory path.os, FileTree.ProperName n) :
    (d.addDirectory path access).root.WellFormed :=
  .putDirectory access hnames fun _ ht => Option.some.inj ht ▸ hd

end Disk

end TemplateBlocks
