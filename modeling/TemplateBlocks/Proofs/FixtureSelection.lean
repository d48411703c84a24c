import Mathlib.Data.List.Nodup
import Mathlib.Data.List.Perm.Basic
import Mathlib.Data.List.TakeWhile
import TemplateBlocks.Proofs.FilePlaces
import TemplateBlocks.Proofs.LineText

/-!
# The fixtures that are selected

The fixtures below a path are what directories list on the way down, one name after the other, each
place once (`Disk.mem_fixtures_iff`, `Disk.nodup_steps_fixtures`). A suite groups the fixtures by
category, which loses none and repeats none, and the requests select among them
(`Suite.files_select_perm`). A request means a category by its steps, so a name that only begins
alike is not meant (`FixtureFile.requests_category_iff`); in the names of folders a backslash
separates steps as a slash does.
-/

namespace TemplateBlocks

open FileTree (slash)

namespace FixtureFile

/-! ### Finding fixtures -/

/-- The name is a text and ends as the name of a fixture does. -/
def Named (f : FixtureFile) : Prop := ∃ name : Text, f.name = name.os ∧ extension <:+ name

/-- The directories from the one at `path` on list the names down to the fixture, and no directory
is seen where it lies. -/
structure FoundIn (f : FixtureFile) (d : Disk) (path : OsText) (names : List OsText) : Prop where
  named : f.Named
  path_eq : f.path = pathTo path names
  listed : d.ListsAlong path names
  leaf : d.isDirectory f.path = false

variable {f : FixtureFile} {d : Disk} {folders names : List OsText} {name path : OsText}

theorem mem_ofName_iff : f ∈ ofName folders name path ↔ f.Named ∧ f = ⟨folders, name, path⟩ := by
  have hname : name.text?.any (·.endsWith extension) = true ↔
      ∃ n : Text, name = n.os ∧ extension <:+ n := by
    simp [Option.any_eq_true, OsText.text?_eq_some_iff, Text.endsWith_iff]
  unfold ofName
  split
  · rename_i h
    rw [List.mem_singleton]
    refine ⟨fun hf => ⟨?_, hf⟩, fun hf => hf.2⟩
    rw [hf]
    exact hname.1 h
  · rename_i h
    refine ⟨fun hf => absurd hf List.not_mem_nil, fun ⟨hnamed, hf⟩ => absurd (hname.2 ?_) h⟩
    rw [hf] at hnamed
    exact hnamed

theorem steps_eq_concat_iff :
    f.steps = folders ++ [name] ↔ f.folders = folders ∧ f.name = name := by
  constructor
  · intro h
    obtain ⟨hfolders, hname⟩ := List.append_inj' h rfl
    exact ⟨hfolders, (List.cons.inj hname).1⟩
  · rintro ⟨rfl, rfl⟩
    rfl

theorem foundIn_nil_iff :
    f.FoundIn d path [] ↔ f.Named ∧ f.path = path ∧ d.isDirectory path = false := by
  constructor
  · rintro ⟨hnamed, rfl, -, hleaf⟩
    exact ⟨hnamed, rfl, hleaf⟩
  · rintro ⟨hnamed, rfl, hleaf⟩
    exact ⟨hnamed, rfl, trivial, hleaf⟩

theorem foundIn_cons_iff : f.FoundIn d path (name :: names) ↔
    d.Lists path name ∧ f.FoundIn d (joinPath path name) names := by
  constructor
  · rintro ⟨hnamed, hpath, ⟨hlists, hrest⟩, hleaf⟩
    exact ⟨hlists, hnamed, hpath, hrest, hleaf⟩
  · rintro ⟨hlists, hnamed, hpath, hrest, hleaf⟩
    exact ⟨hnamed, hpath, ⟨hlists, hrest⟩, hleaf⟩

end FixtureFile

namespace Disk

/-- What the path leads to when it may be looked up: the tree, unless the path is too long. -/
def Shows (d : Disk) (searched : Bool) (path : OsText) (t : FileTree) : Prop :=
  ∃ e, d.find? path = if searched && fits path then .ok t else .error e

variable {d : Disk} {f : FixtureFile} {searched : Bool} {folders : List OsText}
  {name path : OsText} {t : FileTree} {access : Access} {entries : List (OsText × FileTree)}

theorem shows_joinPath (hd : d.root.WellFormed)
    (hpath : d.find? path = .ok (.directory access entries)) (hmem : (name, t) ∈ entries) :
    d.Shows access.searched (joinPath path name) t := by
  unfold Shows
  rw [find?_joinPath hd hpath hmem]
  cases fits (joinPath path name) with
  | false => exact ⟨.nameTooLong, by simp⟩
  | true =>
    cases access.searched with
    | false => exact ⟨.denied, rfl⟩
    | true => exact ⟨.denied, rfl⟩

/-- Where no directory is seen, no further names are listed. -/
theorem exists_foundIn_iff_of_leaf (hleaf : d.isDirectory path = false) :
    (∃ names, f.steps = folders ++ name :: names ∧ f.FoundIn d path names) ↔
      f ∈ FixtureFile.ofName folders name path := by
  rw [FixtureFile.mem_ofName_iff]
  constructor
  · rintro ⟨_ | ⟨n, names⟩, hsteps, hfound⟩
    · obtain ⟨rfl, rfl⟩ := FixtureFile.steps_eq_concat_iff.1 hsteps
      obtain ⟨hnamed, rfl, -⟩ := FixtureFile.foundIn_nil_iff.1 hfound
      exact ⟨hnamed, rfl⟩
    · obtain ⟨entries, hlist, -⟩ := (FixtureFile.foundIn_cons_iff.1 hfound).1
      obtain ⟨access, hfind, -⟩ := list?_eq_ok_iff.1 hlist
      rw [isDirectory_iff.2 ⟨access, entries, hfind⟩] at hleaf
      cases hleaf
  · rintro ⟨hnamed, rfl⟩
    exact ⟨[], rfl, FixtureFile.foundIn_nil_iff.2 ⟨hnamed, rfl, hleaf⟩⟩

theorem fixturesIn_eq_flatMap (searched : Bool) (folders : List OsText) (path : OsText)
    (entries : List (OsText × FileTree)) : FileTree.fixturesIn searched folders path entries =
      entries.flatMap fun e => e.2.fixtures searched folders e.1 (joinPath path e.1) := by
  induction entries with
  | nil => rw [FileTree.fixturesIn, List.flatMap_nil]
  | cons e entries ih =>
    obtain ⟨name, t⟩ := e
    rw [FileTree.fixturesIn, ih, List.flatMap_cons]

/-- The fixtures below a directory, when those of each entry are known. -/
theorem mem_fixturesIn_of_entries (hpath : d.find? path = .ok (.directory access entries))
    (h : ∀ e ∈ entries, f ∈ e.2.fixtures access.searched folders e.1 (joinPath path e.1) ↔
      ∃ names, f.steps = folders ++ e.1 :: names ∧ f.FoundIn d (joinPath path e.1) names) :
    (f ∈ if access.listed then FileTree.fixturesIn access.searched folders path entries else []) ↔
      ∃ names, f.steps = folders ++ names ∧ f.FoundIn d path names := by
  have hdir : d.isDirectory path = true := isDirectory_iff.2 ⟨access, entries, hpath⟩
  constructor
  · intro hf
    split at hf
    · rename_i hlisted
      rw [fixturesIn_eq_flatMap, List.mem_flatMap] at hf
      obtain ⟨e, he, hmem⟩ := hf
      obtain ⟨names, hsteps, hfound⟩ := (h e he).1 hmem
      have hlists : d.Lists path e.1 := (lists_iff hpath).2 ⟨hlisted, e.2, he⟩
      exact ⟨e.1 :: names, hsteps, FixtureFile.foundIn_cons_iff.2 ⟨hlists, hfound⟩⟩
    · exact absurd hf List.not_mem_nil
  · rintro ⟨_ | ⟨n, names⟩, hsteps, hfound⟩
    · rw [(FixtureFile.foundIn_nil_iff.1 hfound).2.2] at hdir
      cases hdir
    · obtain ⟨hlists, hrest⟩ := FixtureFile.foundIn_cons_iff.1 hfound
      obtain ⟨hlisted, t, hmem⟩ := (lists_iff hpath).1 hlists
      rw [if_pos hlisted, fixturesIn_eq_flatMap, List.mem_flatMap]
      exact ⟨(n, t), hmem, (h (n, t) hmem).2 ⟨names, hsteps, hrest⟩⟩

/-- What is found from a tree on is what directories list, down to where none is seen. -/
theorem mem_treeFixtures_iff (hd : d.root.WellFormed) (ht : t.WellFormed)
    (hshows : d.Shows searched path t) : f ∈ t.fixtures searched folders name path ↔
      ∃ names, f.steps = folders ++ name :: names ∧ f.FoundIn d path names := by
  induction ht generalizing searched folders name path with
  | file content =>
    obtain ⟨e, hfind⟩ := hshows
    have hleaf : d.isDirectory path = false := by
      rw [isDirectory, hfind]
      cases searched && fits path with
      | false => rfl
      | true => rfl
    rw [FileTree.fixtures, exists_foundIn_iff_of_leaf hleaf]
  | @directory access entries proper nodup below ih =>
    obtain ⟨e, hfind⟩ := hshows
    rw [FileTree.fixtures]
    cases hseen : searched && fits path with
    | false =>
      have hleaf : d.isDirectory path = false := by
        rw [isDirectory, hfind, hseen]
        rfl
      rw [if_neg Bool.false_ne_true, exists_foundIn_iff_of_leaf hleaf]
    | true =>
      rw [hseen, if_pos rfl] at hfind
      rw [if_pos rfl, mem_fixturesIn_of_entries hfind fun e he =>
        ih e he (shows_joinPath hd hfind he)]
      simp only [List.append_assoc, List.singleton_append]

theorem fixtures_eq (hpath : d.find? path = .ok (.directory access entries)) : d.fixtures path =
    if access.listed then FileTree.fixturesIn access.searched [] path entries else [] := by
  simp only [fixtures, hpath]

theorem mem_fixtures_iff (hd : d.root.WellFormed)
    (hpath : d.find? path = .ok (.directory access entries)) :
    f ∈ d.fixtures path ↔ f.FoundIn d path f.steps := by
  have hbelow : ∀ e ∈ entries, e.2.WellFormed := fun e he =>
    FileTree.wellFormed_of_mem (wellFormed_of_find? hd hpath) he
  rw [fixtures_eq hpath, mem_fixturesIn_of_entries hpath fun e he =>
    mem_treeFixtures_iff hd (hbelow e he) (shows_joinPath hd hpath he)]
  exact ⟨fun ⟨names, hsteps, hfound⟩ => hsteps ▸ hfound, fun hfound => ⟨f.steps, rfl, hfound⟩⟩

/-! ### No place twice -/

theorem steps_of_mem_ofName (hf : f ∈ FixtureFile.ofName folders name path) :
    f.steps = folders ++ [name] := by
  rw [(FixtureFile.mem_ofName_iff.1 hf).2]
  rfl

/-- What is found from an entry on lies at its name or below it. -/
theorem exists_steps_eq (ht : t.WellFormed) (hf : f ∈ t.fixtures searched folders name path) :
    ∃ names, f.steps = folders ++ name :: names := by
  induction ht generalizing searched folders name path with
  | file content =>
    rw [FileTree.fixtures] at hf
    exact ⟨[], steps_of_mem_ofName hf⟩
  | @directory access entries proper nodup below ih =>
    rw [FileTree.fixtures] at hf
    split at hf
    · split at hf
      · rw [fixturesIn_eq_flatMap, List.mem_flatMap] at hf
        obtain ⟨e, he, hmem⟩ := hf
        obtain ⟨names, hsteps⟩ := ih e he hmem
        exact ⟨e.1 :: names, by rw [hsteps, List.append_assoc]; rfl⟩
      · exact absurd hf List.not_mem_nil
    · exact ⟨[], steps_of_mem_ofName hf⟩

theorem nodup_steps_fixturesIn_of_entries (nodup : (entries.map Prod.fst).Nodup)
    (below : ∀ e ∈ entries, e.2.WellFormed)
    (hnodup : ∀ e ∈ entries, ((e.2.fixtures searched folders e.1 (joinPath path e.1)).map
      FixtureFile.steps).Nodup) :
    ((FileTree.fixturesIn searched folders path entries).map FixtureFile.steps).Nodup := by
  rw [fixturesIn_eq_flatMap, List.map_flatMap, List.nodup_flatMap]
  refine ⟨hnodup, ?_⟩
  -- the places from two entries on begin with the names of the entries, which differ
  refine (List.pairwise_map.1 nodup).imp_of_mem fun {a b} ha hb hne steps hsa hsb => hne ?_
  obtain ⟨f, hf, rfl⟩ := List.mem_map.1 hsa
  obtain ⟨g, hg, hgf⟩ := List.mem_map.1 hsb
  obtain ⟨names, hsteps⟩ := exists_steps_eq (below a ha) hf
  obtain ⟨names', hsteps'⟩ := exists_steps_eq (below b hb) hg
  rw [hgf, hsteps] at hsteps'
  exact (List.cons.inj (List.append_cancel_left hsteps')).1

theorem nodup_steps_treeFixtures (ht : t.WellFormed) :
    ((t.fixtures searched folders name path).map FixtureFile.steps).Nodup := by
  have hself (folders : List OsText) (name path : OsText) :
      ((FixtureFile.ofName folders name path).map FixtureFile.steps).Nodup := by
    rw [FixtureFile.ofName]
    split
    · exact List.nodup_singleton _
    · exact List.nodup_nil
  induction ht generalizing searched folders name path with
  | file content =>
    rw [FileTree.fixtures]
    exact hself folders name path
  | directory proper nodup below ih =>
    rw [FileTree.fixtures]
    split
    · split
      · exact nodup_steps_fixturesIn_of_entries nodup below fun e he => ih e he
      · exact List.nodup_nil
    · exact hself folders name path

/-- No place is found twice. -/
theorem nodup_steps_fixtures (hd : d.root.WellFormed)
    (hpath : d.find? path = .ok (.directory access entries)) :
    ((d.fixtures path).map FixtureFile.steps).Nodup := by
  rw [fixtures_eq hpath]
  split
  · cases wellFormed_of_find? hd hpath with
    | directory proper nodup below =>
      exact nodup_steps_fixturesIn_of_entries nodup below fun e he =>
        nodup_steps_treeFixtures (below e he)
  · exact List.nodup_nil

end Disk

namespace NameSet

theorem nodup_toList (set : NameSet) : set.toList.Nodup := by
  refine set.sorted.imp fun {m n} hmn heq => ?_
  rw [heq, Text.before_irrefl] at hmn
  exact Bool.noConfusion hmn

end NameSet

/-! ### Grouping by category -/

namespace FixtureFile

theorem sort_perm (fs : List FixtureFile) : (sort fs).Perm fs := List.mergeSort_perm fs _

/-- The groups of some categories hold the fixtures of these categories, each as often as it was
there. -/
theorem flatMap_category_perm {cs : List Text} (hcs : cs.Nodup) (fs : List FixtureFile) :
    (cs.flatMap fun c => fs.filter fun f => f.category == c).Perm
      (fs.filter fun f => cs.contains f.category) := by
  induction cs with
  | nil => simp
  | cons c cs ih =>
    obtain ⟨hc, hcs⟩ := List.nodup_cons.1 hcs
    have hsplit := List.filter_append_perm (fun f : FixtureFile => f.category == c)
      (fs.filter fun f => (c :: cs).contains f.category)
    have hfirst : (fs.filter fun f => (c :: cs).contains f.category).filter
        (fun f => f.category == c) = fs.filter fun f => f.category == c := by
      rw [List.filter_filter]
      refine List.filter_congr fun f _ => ?_
      by_cases hf : f.category = c
      · simp [hf]
      · simp [hf]
    have hrest : (fs.filter fun f => (c :: cs).contains f.category).filter
        (fun f => !(f.category == c)) = fs.filter fun f => cs.contains f.category := by
      rw [List.filter_filter]
      refine List.filter_congr fun f _ => ?_
      by_cases hf : f.category = c
      · simp [hf, hc]
      · simp [hf]
    rw [hfirst, hrest] at hsplit
    rw [List.flatMap_cons]
    exact ((ih hcs).append_left _).trans hsplit

end FixtureFile

namespace Suite

/-- Whether the requests mean a category; no requests mean every one. -/
def wanted (rs : List Text) (c : Text) : Bool :=
  rs.isEmpty || rs.any fun r => requests (trimRequest r) c

theorem select_eq_filter (s : Suite) (rs : List Text) :
    s.select rs = s.filter fun c => wanted rs c.1 := by
  cases rs with
  | nil => simp [select, wanted]
  | cons r rs => simp [select, wanted]

theorem select_ofFiles (fs : List FixtureFile) (rs : List Text) : (ofFiles fs).select rs =
    ((NameSet.ofList (fs.map FixtureFile.category)).toList.filter (wanted rs)).map fun c =>
      (c, FixtureFile.sort (fs.filter fun f => f.category == c)) := by
  rw [select_eq_filter, ofFiles, List.filter_map]
  rfl

/-- The fixtures that are selected are those of the categories that are meant, each once. -/
theorem files_select_perm (fs : List FixtureFile) (rs : List Text) :
    ((ofFiles fs).select rs).files.Perm (fs.filter fun f => wanted rs f.category) := by
  have hnodup := (NameSet.nodup_toList (NameSet.ofList (fs.map FixtureFile.category))).filter
    (wanted rs)
  have hwanted : (fs.filter fun f => ((NameSet.ofList (fs.map FixtureFile.category)).toList.filter
      (wanted rs)).contains f.category) = fs.filter fun f => wanted rs f.category := by
    refine List.filter_congr fun f hf => ?_
    have hmem : f.category ∈ fs.map FixtureFile.category := List.mem_map_of_mem hf
    rw [Bool.eq_iff_iff, List.contains_iff_mem, List.mem_filter, NameSet.mem_ofList]
    exact and_iff_right hmem
  rw [select_ofFiles, files, List.flatMap_map, ← hwanted]
  refine (List.Perm.flatMap_left _ fun c _ => ?_).trans
    (FixtureFile.flatMap_category_perm hnodup fs)
  exact FixtureFile.sort_perm _

/-- A group holds the fixtures of its category, and at least one. -/
theorem mem_select_ofFiles {fs : List FixtureFile} {rs : List Text} {g : Text × List FixtureFile}
    (hg : g ∈ (ofFiles fs).select rs) : g.2 ≠ [] ∧ ∀ f ∈ g.2, f.category = g.1 := by
  rw [select_ofFiles] at hg
  obtain ⟨c, hc, rfl⟩ := List.mem_map.1 hg
  have hmem (f : FixtureFile) : f ∈ FixtureFile.sort (fs.filter fun f => f.category == c) ↔
      f ∈ fs ∧ f.category = c := by
    rw [(FixtureFile.sort_perm _).mem_iff, List.mem_filter, beq_iff_eq]
  refine ⟨?_, fun f hf => ((hmem f).1 hf).2⟩
  obtain ⟨f, hf, hfc⟩ := List.mem_map.1 (NameSet.mem_ofList.1 (List.mem_filter.1 hc).1)
  exact List.ne_nil_of_mem ((hmem f).2 ⟨hf, hfc⟩)

end Suite

/-! ### Requests -/

namespace Text

theorem join_append_of_ne_nil (sep : Text) {as bs : List Text} (has : as ≠ []) (hbs : bs ≠ []) :
    join sep (as ++ bs) = join sep as ++ sep ++ join sep bs := by
  induction as with
  | nil => exact absurd rfl has
  | cons a as ih =>
    by_cases hne : as = []
    · rw [hne, List.singleton_append, join_cons_of_ne_nil sep a hbs]
      rfl
    · rw [List.cons_append, join_cons_of_ne_nil sep a (List.append_ne_nil_of_left_ne_nil hne bs),
        ih hne, join_cons_of_ne_nil sep a hne]
      simp only [List.append_assoc]

/-- Splitting at both of two characters, one inside the pieces of the other. -/
theorem splitAt_replaceChar (old new : Char) (s : Text) :
    splitAt new (replaceChar old new s) = (splitAt new s).flatMap (splitAt old) := by
  induction s with
  | nil => rfl
  | cons c s ih =>
    obtain ⟨piece, pieces, hs⟩ := List.exists_cons_of_ne_nil (splitAt_ne_nil new s)
    have hcons : replaceChar old new (c :: s) =
        (if c = old then new else c) :: replaceChar old new s := rfl
    rw [hcons]
    by_cases hnew : c = new
    · have hc : (if c = old then new else c) = new := by simp [hnew]
      rw [hc, splitAt, if_pos rfl, ih, splitAt, if_pos hnew]
      rfl
    · have hright : splitAt new (c :: s) = (c :: piece) :: pieces := by
        simp only [splitAt, if_neg hnew, hs]
      rw [hs, List.flatMap_cons] at ih
      rw [hright, List.flatMap_cons]
      by_cases hold : c = old
      · rw [if_pos hold, splitAt, if_pos rfl, ih, splitAt, if_pos hold, List.cons_append]
      · obtain ⟨q, qs, hq⟩ := List.exists_cons_of_ne_nil (splitAt_ne_nil old piece)
        rw [hq, List.cons_append] at ih
        simp only [splitAt, if_neg hold, if_neg hnew, ih, hq, List.cons_append]

/-- The pieces of a text begin with those of another one exactly when the text is the other one, or
goes on with a separator behind it. -/
theorem splitAt_prefix_iff {d : Char} {r s : Text} :
    splitAt d r <+: splitAt d s ↔ s = r ∨ r ++ [d] <+: s := by
  constructor
  · rintro ⟨pieces, h⟩
    have hs : s = join [d] (splitAt d r ++ pieces) := by rw [h, join_splitAt]
    by_cases hne : pieces = []
    · rw [hne, List.append_nil, join_splitAt] at hs
      exact .inl hs
    · rw [join_append_of_ne_nil [d] (splitAt_ne_nil d r) hne, join_splitAt] at hs
      exact .inr ⟨_, hs.symm⟩
  · rintro (rfl | ⟨rest, rfl⟩)
    · exact List.prefix_rfl
    · rw [List.append_assoc, List.singleton_append, splitAt_append_separator]
      exact List.prefix_append _ _

end Text

namespace Suite

/-- `r` is the request without the slashes around it. -/
structure Trims (request r : Text) : Prop where
  framed : ∃ m n, request = List.replicate m '/' ++ (r ++ List.replicate n '/')
  head : r.head? ≠ some '/'
  last : r.getLast? ≠ some '/'

/-- Nothing is requested, or one of the requests, without the slashes around it, means what is
asked. -/
def Asks (rs : List Text) (means : Text → Prop) : Prop :=
  rs = [] ∨ ∃ request ∈ rs, ∃ r, Trims request r ∧ means r

theorem dropWhile_slashes (m : Nat) (s : Text) :
    (List.replicate m '/' ++ s).dropWhile (· == '/') = s.dropWhile (· == '/') :=
  List.dropWhile_append_of_pos fun c hc => by simp [List.eq_of_mem_replicate hc]

theorem dropWhile_of_head {s : Text} (h : s.head? ≠ some '/') : s.dropWhile (· == '/') = s := by
  cases s with
  | nil => rfl
  | cons c s =>
    have hc : ¬ (c == '/') = true := by simpa using h
    exact List.dropWhile_cons_of_neg hc

theorem exists_slashes (s : Text) : ∃ m, s = List.replicate m '/' ++ s.dropWhile (· == '/') := by
  refine ⟨(s.takeWhile (· == '/')).length, ?_⟩
  have hslashes : s.takeWhile (· == '/') = List.replicate (s.takeWhile (· == '/')).length '/' :=
    List.eq_replicate_of_mem fun c hc => by simpa using List.mem_takeWhile_imp hc
  rw [← hslashes, List.takeWhile_append_dropWhile]

theorem head?_dropWhile_ne (s : Text) : (s.dropWhile (· == '/')).head? ≠ some '/' := by
  intro h
  have hnot := List.head?_dropWhile_not (· == '/') s
  rw [h] at hnot
  simp at hnot

theorem trimRequest_trims (request : Text) : Trims request (trimRequest request) := by
  obtain ⟨m, hm⟩ := exists_slashes request
  obtain ⟨n, hn⟩ := exists_slashes (request.dropWhile (· == '/')).reverse
  have hbehind : request.dropWhile (· == '/') = trimRequest request ++ List.replicate n '/' := by
    have hreverse := congrArg List.reverse hn
    rwa [List.reverse_reverse, List.reverse_append, List.reverse_replicate] at hreverse
  refine ⟨⟨m, n, by rw [← hbehind]; exact hm⟩, fun h => ?_, fun h => ?_⟩
  · refine head?_dropWhile_ne request ?_
    rw [hbehind, List.head?_append, h]
    rfl
  · rw [trimRequest, Text.dropEndWhile, List.getLast?_reverse] at h
    exact head?_dropWhile_ne _ h

theorem Trims.eq {request r : Text} (h : Trims request r) : trimRequest request = r := by
  obtain ⟨⟨m, n, rfl⟩, hhead, hlast⟩ := h
  rw [trimRequest, Text.dropEndWhile, dropWhile_slashes]
  by_cases hnil : r = []
  · have hslashes := dropWhile_slashes n []
    rw [List.append_nil] at hslashes
    rw [hnil, List.nil_append, hslashes]
    rfl
  · have hfront : (r ++ List.replicate n '/').head? ≠ some '/' := by
      rwa [List.head?_append_of_ne_nil r hnil]
    have hback : r.reverse.head? ≠ some '/' := by rwa [List.head?_reverse]
    rw [dropWhile_of_head hfront, List.reverse_append, List.reverse_replicate, dropWhile_slashes,
      dropWhile_of_head hback, List.reverse_reverse]

end Suite

namespace FixtureFile

/-- The steps of the request lead from the directory of the suite to the folder of the fixture, or
to one above it, by the names of the folders as they are shown; a backslash in them separates steps
as a slash does. -/
def MeantBy (f : FixtureFile) (r : Text) : Prop :=
  r = [] ∧ f.folders = [] ∨ r.splitAt '/' <+: f.folders.flatMap fun n => n.shown.splitAt '\\'

/-- The folder of the fixture is the one that the request names, or lies below it. -/
def IsBelow (f : FixtureFile) (r : Text) : Prop :=
  if r = [] then f.folders = [] else (r.splitAt '/').map Text.os <+: f.folders

variable {f : FixtureFile} {r : Text}

theorem requests_category_iff (hfolders : ∀ n ∈ f.folders, slash ∉ n) :
    Suite.requests r f.category = true ↔ f.MeantBy r := by
  have hrequests : Suite.requests r f.category = true ↔
      r.splitAt '/' <+: f.category.splitAt '/' := by
    rw [Text.splitAt_prefix_iff, ← Text.startsWith_iff, Suite.requests, Bool.or_eq_true,
      beq_iff_eq]
    rfl
  rw [hrequests, category, Text.splitAt_replaceChar, MeantBy]
  by_cases hnil : f.folders = []
  · have hpieces : ((Text.join ['/'] []).splitAt '/').flatMap (Text.splitAt '\\') =
        Text.splitAt '/' [] := rfl
    have hempty : Text.splitAt '/' r <+: Text.splitAt '/' [] ↔ r = [] := by
      rw [Text.splitAt_prefix_iff, List.prefix_nil, or_iff_left (by simp), eq_comm]
    have hnone : ¬ Text.splitAt '/' r <+: [] := by
      rw [List.prefix_nil]
      exact Text.splitAt_ne_nil '/' r
    rw [hnil, List.map_nil, hpieces, hempty, List.flatMap_nil, or_iff_left hnone,
      and_iff_left rfl]
  · have hnames : ∀ t ∈ f.folders.map OsText.shown, '/' ∉ t := by
      intro t ht hslash
      obtain ⟨n, hn, rfl⟩ := List.mem_map.1 ht
      exact hfolders n hn (OsText.mem_of_mem_shown (by decide) hslash)
    rw [Text.splitAt_join (by simpa using hnil) hnames, List.flatMap_map,
      or_iff_right fun h => hnil h.2]

theorem asks_iff (hfolders : ∀ n ∈ f.folders, slash ∉ n) {rs : List Text} :
    Suite.wanted rs f.category = true ↔ Suite.Asks rs f.MeantBy := by
  rw [Suite.wanted, Bool.or_eq_true, List.isEmpty_iff, List.any_eq_true, Suite.Asks]
  refine or_congr_right (exists_congr fun request => and_congr_right fun _ => ?_)
  rw [requests_category_iff hfolders]
  constructor
  · intro h
    exact ⟨_, Suite.trimRequest_trims request, h⟩
  · rintro ⟨r, hr, h⟩
    rwa [hr.eq]

/-- Where the names of folders are texts without backslashes, a request means what lies below it. -/
theorem meantBy_iff_of_plain (hproper : ∀ n ∈ f.folders, n ≠ [])
    (hplain : ∀ n ∈ f.folders, (∃ s : Text, n = s.os) ∧ .char '\\' ∉ n) :
    f.MeantBy r ↔ f.IsBelow r := by
  have hsplit : (f.folders.flatMap fun n => n.shown.splitAt '\\') = f.folders.map OsText.shown := by
    have hsingle : ∀ n ∈ f.folders, n.shown.splitAt '\\' = [n.shown] := fun n hn =>
      Text.splitAt_of_not_mem fun h => (hplain n hn).2 (OsText.mem_of_mem_shown (by decide) h)
    rw [List.flatMap_congr hsingle, ← List.map_eq_flatMap]
  have hos : (f.folders.map OsText.shown).map Text.os = f.folders := by
    rw [List.map_map, List.map_congr_left fun n hn => ?_, List.map_id]
    obtain ⟨s, rfl⟩ := (hplain n hn).1
    exact congrArg Text.os (OsText.shown_os s)
  rw [MeantBy, IsBelow, hsplit]
  split
  · rename_i hr
    subst hr
    have hnone : ¬ Text.splitAt '/' [] <+: f.folders.map OsText.shown := by
      rintro ⟨rest, hrest⟩
      have hmem : [] ∈ f.folders.map OsText.shown := by
        rw [← hrest]
        exact List.mem_cons_self ..
      obtain ⟨n, hn, hshown⟩ := List.mem_map.1 hmem
      exact hproper n hn (List.map_eq_nil_iff.1 hshown)
    simp [hnone]
  · rename_i hr
    rw [or_iff_right fun h => hr h.1]
    constructor
    · intro h
      rw [← hos]
      exact h.map Text.os
    · intro h
      have hback : OsText.shown ∘ Text.os = id := funext OsText.shown_os
      have hshown := h.map OsText.shown
      rwa [List.map_map, hback, List.map_id] at hshown

end FixtureFile

end TemplateBlocks
