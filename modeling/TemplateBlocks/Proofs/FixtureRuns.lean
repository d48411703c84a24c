import Mathlib
import TemplateBlocks.Fixture.Report
import TemplateBlocks.Proofs.FixtureSelection
import TemplateBlocks.Toml.Document

/-!
# Runs of fixtures

A run over a directory reads every fixture that is selected at its own path
(`FixtureFile.passed_ofFile_iff`), prints one line for each of them and counts them
(`Report.summary_eq`). It gives the code 0 exactly when there is something to run and all of it
passes (`run_tells`). Where nothing stands in the way, that is every fixture below the directory
which is requested by its folder. Otherwise a fixture can be passed over, and the code be 0 although
it fails (`run_misses_requested`).
-/

namespace TemplateBlocks

/-! ### Reading fixtures -/

namespace Disk

variable {d : Disk} {path : OsText} {s : Text}

theorem read?_eq_ok_iff : d.read? path = .ok s ↔ d.find? path = .ok (.file (.text s)) := by
  unfold read?
  cases d.find? path with
  | error e => simp [bind, Except.bind]
  | ok t =>
    rcases t with (t | _ | _) | ⟨access, entries⟩
    · simp [bind, Except.bind, pure, Except.pure]
    · simp [bind, Except.bind, throw, throwThe, MonadExceptOf.throw]
    · simp [bind, Except.bind, throw, throwThe, MonadExceptOf.throw]
    · simp [bind, Except.bind, throw, throwThe, MonadExceptOf.throw]

end Disk

namespace FixtureFile

/-- The fixture can be read at its path, and passes. -/
def Passes (f : FixtureFile) (toml : Toml.Reader) (d : Disk) : Prop :=
  ∃ s, d.read? f.path = .ok s ∧ (Fixture.runWith toml s).failure = none

/-- The names of the fixture lead to a file of the tree. -/
structure PlacedIn (f : FixtureFile) (t : FileTree) (path : OsText) : Prop where
  named : f.Named
  path_eq : f.path = pathTo path f.steps
  placed : ∃ content, t.At f.steps (.file content)

variable {f : FixtureFile} {toml : Toml.Reader} {d : Disk} {path : OsText} {t : FileTree}

theorem passed_ofFile_iff : (FixtureRun.ofFile toml d f).passed = true ↔ f.Passes toml d := by
  rw [FixtureRun.passed, Option.isNone_iff_eq_none, FixtureRun.ofFile, Fixture.runAt, Passes]
  cases d.read? f.path with
  | error e => simp
  | ok s => simp

theorem FoundIn.proper (hd : d.root.WellFormed) (hf : f.FoundIn d path f.steps) :
    ∀ n ∈ f.folders, FileTree.ProperName n :=
  fun n hn => hf.listed.proper hd n (List.mem_append_left _ hn)

/-- Where nothing stands in the way, what is found is what lies there. -/
theorem foundIn_iff_placedIn (hd : d.root.WellFormed) (hpath : d.find? path = .ok t)
    (ht : t.Plain path) : f.FoundIn d path f.steps ↔ f.PlacedIn t path := by
  constructor
  · rintro ⟨hnamed, hpathEq, hlisted, hleaf⟩
    obtain ⟨u, hu⟩ := (Disk.listsAlong_iff hd hpath ht).1 hlisted
    have hfind := Disk.find?_pathTo hd hpath ht hu
    refine ⟨hnamed, hpathEq, ?_⟩
    cases u with
    | file content => exact ⟨content, hu⟩
    | directory access entries =>
      rw [hpathEq, Disk.isDirectory_iff.2 ⟨access, entries, hfind⟩] at hleaf
      cases hleaf
  · rintro ⟨hnamed, hpathEq, content, hu⟩
    have hfind := Disk.find?_pathTo hd hpath ht hu
    refine ⟨hnamed, hpathEq, (Disk.listsAlong_iff hd hpath ht).2 ⟨_, hu⟩, ?_⟩
    rw [hpathEq, Disk.isDirectory, hfind]

/-- A fixture that lies there is run on its text. -/
theorem PlacedIn.passes_iff_of_plain (hd : d.root.WellFormed) (hpath : d.find? path = .ok t)
    (ht : t.Plain path) (hf : f.PlacedIn t path) : f.Passes toml d ↔
      ∃ s, t.At f.steps (.file (.text s)) ∧ (Fixture.runWith toml s).failure = none := by
  obtain ⟨content, hu⟩ := hf.placed
  have hfind := Disk.find?_pathTo hd hpath ht hu
  rw [← hf.path_eq] at hfind
  constructor
  · rintro ⟨s, hread, hpass⟩
    rw [Disk.read?_eq_ok_iff, hfind] at hread
    cases hread
    exact ⟨s, hu, hpass⟩
  · rintro ⟨s, hs, hpass⟩
    have hplace := Disk.find?_pathTo hd hpath ht hs
    rw [← hf.path_eq] at hplace
    exact ⟨s, Disk.read?_eq_ok_iff.2 hplace, hpass⟩

end FixtureFile

/-! ### Counting -/

namespace Report

/-- The last line of a report. -/
def tally (color : Bool) (passed failed : Nat) : Text :=
  let word := if failed = 0 then paint color green "ok".toList
    else paint color red "FAILED".toList
  let total := if failed = 0 then []
    else " (of ".toList ++ Text.ofNat (passed + failed) ++ ")".toList
  line ("test result: ".toList ++ word ++ ". ".toList ++ Text.ofNat passed ++ " passed, ".toList ++
    Text.ofNat failed ++ " failed".toList ++ total)

theorem summary_eq (color : Bool) (rs : List FixtureRun) {passed failed : Nat}
    (hpassed : passed = rs.countP FixtureRun.passed) (htotal : passed + failed = rs.length) :
    summary color rs = line [] ++ tally color passed failed := by
  have hfilter : (rs.filter FixtureRun.passed).length = passed := by
    rw [hpassed, List.countP_eq_length_filter]
  have hfailed : rs.length - passed = failed := by omega
  rw [summary, tally, hfilter, hfailed, ← htotal]
  by_cases hzero : failed = 0
  · subst hzero
    have hdigits : " passed, 0 failed".toList =
        " passed, ".toList ++ (Text.ofNat 0 ++ " failed".toList) := rfl
    simp only [if_pos, hdigits, List.append_assoc, List.append_nil]
  · have hwords : " failed (of ".toList = " failed".toList ++ " (of ".toList := rfl
    simp only [if_neg hzero, hwords, List.append_assoc]

theorem exitCode_eq_zero_iff (rs : List FixtureRun) :
    exitCode rs = 0 ↔ ∀ r ∈ rs, r.passed = true := by
  unfold exitCode
  split
  · rename_i h
    simpa using h
  · rename_i h
    simpa using h

theorem exitCode_le_one (rs : List FixtureRun) : exitCode rs ≤ 1 := by
  unfold exitCode
  split
  · exact Nat.zero_le 1
  · exact Nat.le_refl 1

end Report

/-! ### The verdict on a directory -/

/-- What a verdict says of a run of the fixtures, each of them once. -/
structure Verdict.Tells (v : Verdict) (toml : Toml.Reader) (d : Disk) (color : Bool)
    (fs : List FixtureFile) : Prop where
  code_eq_zero_iff : v.code = 0 ↔ fs ≠ [] ∧ ∀ f ∈ fs, f.Passes toml d
  code_le_one : v.code ≤ 1
  /-- A fixture is marked as passed when it passes. -/
  passed_iff : ∀ f ∈ fs, (FixtureRun.ofFile toml d f).passed = true ↔ f.Passes toml d
  /-- Behind what is said about the requests, the fixtures stand in groups with a line for each;
  then come those that failed, and the counts. -/
  output : fs ≠ [] → ∃ (s : Suite) (unmet : List Text) (groups : Suite) (passed failed : Nat),
    groups.files = fs ∧ (∀ g ∈ groups, ∀ f ∈ g.2, f.category = g.1) ∧
    passed = (fs.countP fun f => (FixtureRun.ofFile toml d f).passed) ∧
    passed + failed = fs.length ∧
    v.output = unmet.flatMap (Report.unmetRequest s) ++
      groups.flatMap (Report.categoryLines toml d color) ++
      Report.failures (fs.map (FixtureRun.ofFile toml d)) ++
      (Report.line [] ++ Report.tally color passed failed)
  /-- Without fixtures there are no counts. -/
  idle : fs = [] → (∃ path, v.output = Report.noFixtures path) ∨
    ∃ (s : Suite) (unmet : List Text), v.output = unmet.flatMap (Report.unmetRequest s) ++
      Report.line "no matching categories found".toList

namespace Report

variable {toml : Toml.Reader} {d : Disk} {color : Bool}

theorem tells_nil {output : Text} (h : (∃ path, output = noFixtures path) ∨
    ∃ (s : Suite) (unmet : List Text), output = unmet.flatMap (unmetRequest s) ++
      line "no matching categories found".toList) :
    (Verdict.mk output 1).Tells toml d color [] where
  code_eq_zero_iff := by simp
  code_le_one := Nat.le_refl 1
  passed_iff := fun f hf => absurd hf List.not_mem_nil
  output := fun hne => absurd rfl hne
  idle := fun _ => h

theorem verdict_tells {fs : List FixtureFile} {groups : Suite} (hfiles : groups.files = fs)
    (hne : fs ≠ []) (hgroups : ∀ g ∈ groups, ∀ f ∈ g.2, f.category = g.1) (s : Suite)
    (unmet : List Text) :
    (verdict color (unmet.flatMap (unmetRequest s) ++ groups.flatMap (categoryLines toml d color))
      (fs.map (FixtureRun.ofFile toml d))).Tells toml d color fs := by
  refine ⟨?_, exitCode_le_one _, fun f _ => FixtureFile.passed_ofFile_iff, fun _ => ?_,
    fun h => absurd h hne⟩
  · rw [verdict, exitCode_eq_zero_iff, List.forall_mem_map, and_iff_right hne]
    exact forall₂_congr fun f _ => FixtureFile.passed_ofFile_iff
  · have hle := List.countP_le_length (p := fun f => (FixtureRun.ofFile toml d f).passed) (l := fs)
    have hpassed : (fs.countP fun f => (FixtureRun.ofFile toml d f).passed) =
        (fs.map (FixtureRun.ofFile toml d)).countP FixtureRun.passed := by
      rw [List.countP_map]
      rfl
    obtain ⟨failed, htotal⟩ := Nat.exists_eq_add_of_le hle
    refine ⟨s, unmet, groups, _, failed, hfiles, hgroups, rfl, htotal.symm, ?_⟩
    rw [verdict, summary_eq color _ hpassed (by rw [List.length_map, htotal])]

theorem runSuite_tells (found : List FixtureFile) (rs : List Text) :
    (runSuite toml d color rs (Suite.ofFiles found)).Tells toml d color
      ((Suite.ofFiles found).select rs).files := by
  have hgroups {g : Text × List FixtureFile} (hg : g ∈ (Suite.ofFiles found).select rs) :=
    Suite.mem_select_ofFiles hg
  unfold runSuite
  cases hselected : (Suite.ofFiles found).select rs with
  | nil => exact tells_nil (.inr ⟨_, _, rfl⟩)
  | cons g groups =>
    rw [hselected] at hgroups
    obtain ⟨f, hf⟩ := List.exists_mem_of_ne_nil _ (hgroups (List.mem_cons_self ..)).1
    have hfiles : f ∈ Suite.files (g :: groups) :=
      List.mem_flatMap.2 ⟨g, List.mem_cons_self .., hf⟩
    exact verdict_tells rfl (List.ne_nil_of_mem hfiles) (fun g hg => (hgroups hg).2) _ _

theorem run_tells_of_directory {path : OsText} {access : Access}
    {entries : List (OsText × FileTree)} (hpath : d.find? path = .ok (.directory access entries))
    (rs : List Text) : (run toml d path color rs).Tells toml d color
      ((Suite.ofFiles (d.fixtures path)).select rs).files := by
  have hrun : run toml d path color rs =
      if (Suite.ofFiles (d.fixtures path)).isEmpty then ⟨noFixtures path, 1⟩
      else runSuite toml d color rs (Suite.ofFiles (d.fixtures path)) := by
    rw [run, FixtureTarget.ofPath, hpath]
  rw [hrun]
  split
  · rename_i hempty
    have hnone : ((Suite.ofFiles (d.fixtures path)).select rs).files = [] := by
      rw [List.isEmpty_iff.1 hempty, Suite.select_eq_filter]
      rfl
    rw [hnone]
    exact tells_nil (.inl ⟨path, rfl⟩)
  · exact runSuite_tells _ rs

end Report

/-- A run over a directory reads each fixture below it that is found and requested once, and
nothing else, and its verdict tells how they did. Where nothing stands in the way, the fixtures that
are found are the files below the directory that are named as fixtures, and a request means a
folder with what lies below it. -/
theorem run_tells (toml : Toml.Reader) {d : Disk} (hd : d.root.WellFormed) {path : OsText}
    {access : Access} {entries : List (OsText × FileTree)}
    (hpath : d.find? path = .ok (.directory access entries)) (color : Bool) (rs : List Text) :
    ∃ fs : List FixtureFile, (fs.map FixtureFile.steps).Nodup ∧
      (∀ f, f ∈ fs ↔ f.FoundIn d path f.steps ∧ Suite.Asks rs f.MeantBy) ∧
      (Report.run toml d path color rs).Tells toml d color fs ∧
      ((FileTree.directory access entries).Plain path →
        (∀ f, f ∈ fs ↔ f.PlacedIn (.directory access entries) path ∧ Suite.Asks rs f.IsBelow) ∧
        ∀ f ∈ fs, f.Passes toml d ↔
          ∃ s, (FileTree.directory access entries).At f.steps (.file (.text s)) ∧
            (Fixture.runWith toml s).failure = none) := by
  have hperm := Suite.files_select_perm (d.fixtures path) rs
  have hfound (f : FixtureFile) : f ∈ ((Suite.ofFiles (d.fixtures path)).select rs).files ↔
      f.FoundIn d path f.steps ∧ Suite.Asks rs f.MeantBy := by
    rw [hperm.mem_iff, List.mem_filter, Disk.mem_fixtures_iff hd hpath]
    exact and_congr_right fun hf =>
      FixtureFile.asks_iff fun n hn => (hf.proper hd n hn).slash_free
  refine ⟨((Suite.ofFiles (d.fixtures path)).select rs).files, ?_, hfound,
    Report.run_tells_of_directory hpath rs, fun hplain => ⟨fun f => ?_, fun f hf => ?_⟩⟩
  · rw [(hperm.map _).nodup_iff]
    exact (Disk.nodup_steps_fixtures hd hpath).sublist (List.filter_sublist.map _)
  · rw [hfound, FixtureFile.foundIn_iff_placedIn hd hpath hplain]
    refine and_congr_right fun hf => ?_
    obtain ⟨content, hu⟩ := hf.placed
    have hproper := ((FixtureFile.foundIn_iff_placedIn hd hpath hplain).2 hf).proper hd
    have hnames : ∀ n ∈ f.folders, (∃ s : Text, n = s.os) ∧ .char '\\' ∉ n := fun n hn =>
      hplain.named f.steps _ hu n (List.mem_append_left _ hn)
    rw [Suite.Asks, Suite.Asks]
    simp only [FixtureFile.meantBy_iff_of_plain (fun n hn => (hproper n hn).ne_nil) hnames]
  · have hf := (FixtureFile.foundIn_iff_placedIn hd hpath hplain).1 ((hfound f).1 hf).1
    exact hf.passes_iff_of_plain hd hpath hplain

/-! ### Nested categories and overlapping requests -/

def passingFixture : Text := "---\nexpect_has_delimiters = false\n---\n$x".toList

def failingFixture : Text := "---\nexpect_has_delimiters = true\n---\n$x".toList

theorem run_passingFixture : Fixture.runWith Toml.parse? passingFixture = ⟨none, none⟩ := by
  cbv

theorem run_failingFixture : Fixture.runWith Toml.parse? failingFixture =
    ⟨none, some (.mismatch (.delimited true false))⟩ := by
  cbv

def emptyDisk : Disk := Disk.empty ["work".toList]

theorem wellFormed_emptyDisk : emptyDisk.root.WellFormed :=
  .putDirectory .full (by decide) fun t ht => absurd ht (by simp)

def casesPath : OsText := Text.os "cases".toList

def nestedCases : Disk :=
  (((emptyDisk.addFile "cases/a/b/x.case.php".toList (.text passingFixture)).addFile
    "cases/ab/y.case.php".toList (.text failingFixture)).addFile
    "cases/z.case.php".toList (.text failingFixture)).addFile
    "cases/a/notes.php".toList .binary

def nestedEntries : List (OsText × FileTree) :=
  [(Text.os "a".toList, .directory .full
      [(Text.os "b".toList, .directory .full
          [(Text.os "x.case.php".toList, .file (.text passingFixture))]),
        (Text.os "notes.php".toList, .file .binary)]),
    (Text.os "ab".toList, .directory .full
      [(Text.os "y.case.php".toList, .file (.text failingFixture))]),
    (Text.os "z.case.php".toList, .file (.text failingFixture))]

theorem wellFormed_nestedCases : nestedCases.root.WellFormed :=
  Disk.wellFormed_addFile (Disk.wellFormed_addFile (Disk.wellFormed_addFile
    (Disk.wellFormed_addFile wellFormed_emptyDisk (by decide)) (by decide)) (by decide)) (by decide)

theorem find?_nestedCases :
    nestedCases.find? casesPath = .ok (.directory .full nestedEntries) := rfl

def nestedFixture : FixtureFile :=
  ⟨[Text.os "a".toList, Text.os "b".toList], Text.os "x.case.php".toList,
    Text.os "cases/a/b/x.case.php".toList⟩

theorem fixtures_nestedCases : nestedCases.fixtures casesPath =
    [nestedFixture,
      ⟨[Text.os "ab".toList], Text.os "y.case.php".toList, Text.os "cases/ab/y.case.php".toList⟩,
      ⟨[], Text.os "z.case.php".toList, Text.os "cases/z.case.php".toList⟩] := by
  rw [Disk.fixtures_eq find?_nestedCases]
  simp only [nestedEntries, FileTree.fixturesIn, FileTree.fixtures]
  rfl

theorem ofFile_nestedFixture :
    FixtureRun.ofFile Toml.parse? nestedCases nestedFixture = ⟨nestedFixture, none, none⟩ := by
  have hread : nestedCases.read? nestedFixture.path = .ok passingFixture := rfl
  rw [FixtureRun.ofFile, Fixture.runAt, hread]
  exact congrArg (FixtureRun.mk nestedFixture) run_passingFixture

theorem plain_nestedEntries : (FileTree.directory .full nestedEntries).Plain casesPath :=
  .cons (by decide) (.cons (by decide) (.cons (by decide) (.file (by decide)) (.empty (by decide)))
      (.cons (by decide) (.file (by decide)) (.empty (by decide))))
    (.cons (by decide) (.cons (by decide) (.file (by decide)) (.empty (by decide)))
      (.cons (by decide) (.file (by decide)) (.empty (by decide))))

def overlappingRequests : List Text := ["/a/".toList, "a/b".toList, "a".toList]

theorem run_nestedCases : Report.run Toml.parse? nestedCases casesPath false overlappingRequests =
    ⟨"\na/b\n  PASS  x\n\ntest result: ok. 1 passed, 0 failed\n".toList, 0⟩ := by
  have hsome : (Suite.ofFiles (nestedCases.fixtures casesPath)).isEmpty = false := by
    rw [fixtures_nestedCases]
    decide +kernel
  have hunmet :
      (Suite.ofFiles (nestedCases.fixtures casesPath)).unmet overlappingRequests = [] := by
    rw [fixtures_nestedCases]
    decide +kernel
  have hselected : (Suite.ofFiles (nestedCases.fixtures casesPath)).select overlappingRequests =
      [("a/b".toList, [nestedFixture])] := by
    rw [fixtures_nestedCases]
    decide +kernel
  have hfiles : Suite.files [("a/b".toList, [nestedFixture])] = [nestedFixture] := rfl
  have hruns : [nestedFixture].map (FixtureRun.ofFile Toml.parse? nestedCases) =
      [⟨nestedFixture, none, none⟩] := congrArg (List.cons · []) ofFile_nestedFixture
  rw [Report.run, FixtureTarget.ofPath, find?_nestedCases]
  simp only [hsome, Report.runSuite, hunmet, hselected, hfiles, List.flatMap_cons,
    Report.categoryLines, hruns]
  decide +kernel

/-- The requests overlap and repeat one another, and the category `ab` only begins like `a`. -/
theorem run_tells_overlapping :
    nestedCases.root.WellFormed ∧
    nestedCases.find? casesPath = .ok (.directory .full nestedEntries) ∧
    (FileTree.directory .full nestedEntries).Plain casesPath ∧
    (∃ fs : List FixtureFile, (fs.map FixtureFile.steps).Nodup ∧
      (∀ f, f ∈ fs ↔ f.FoundIn nestedCases casesPath f.steps ∧
        Suite.Asks overlappingRequests f.MeantBy) ∧
      (Report.run Toml.parse? nestedCases casesPath false overlappingRequests).Tells Toml.parse?
        nestedCases false fs ∧
      ((FileTree.directory .full nestedEntries).Plain casesPath →
        (∀ f, f ∈ fs ↔ f.PlacedIn (.directory .full nestedEntries) casesPath ∧
          Suite.Asks overlappingRequests f.IsBelow) ∧
        ∀ f ∈ fs, f.Passes Toml.parse? nestedCases ↔
          ∃ s, (FileTree.directory .full nestedEntries).At f.steps (.file (.text s)) ∧
            (Fixture.runWith Toml.parse? s).failure = none)) ∧
    Report.run Toml.parse? nestedCases casesPath false overlappingRequests =
      ⟨"\na/b\n  PASS  x\n\ntest result: ok. 1 passed, 0 failed\n".toList, 0⟩ := by
  exact ⟨wellFormed_nestedCases, find?_nestedCases, plain_nestedEntries,
    run_tells Toml.parse? wellFormed_nestedCases find?_nestedCases false overlappingRequests,
    run_nestedCases⟩

/-! ### Requested fixtures that are missed -/

def slashedCases : Disk :=
  emptyDisk.addFile "cases/\\a/x.case.php".toList (.text passingFixture)

def slashedFixture : FixtureFile :=
  ⟨[Text.os "\\a".toList], Text.os "x.case.php".toList, Text.os "cases/\\a/x.case.php".toList⟩

/-- The folder may be searched, but its names may not be listed. -/
def closedCases : Disk :=
  ((emptyDisk.addFile "cases/a.case.php".toList (.text passingFixture)).addFile
    "cases/closed/b.case.php".toList (.text failingFixture)).addDirectory
    "cases/closed".toList ⟨false, true⟩

/-- The name ends as that of a fixture does, but it is no text. -/
def unnamedFixture : OsText := .stray [255] :: Text.os ".case.php".toList

def unnamedCases : Disk :=
  let d := emptyDisk.addFile "cases/a.case.php".toList (.text passingFixture)
  let names := [Text.os "work".toList, casesPath, unnamedFixture]
  { d with root := FileTree.putFile (.text failingFixture) names d.root }

def longCases : Disk :=
  (emptyDisk.addFile "cases/a.case.php".toList (.text passingFixture)).addFile
    "cases/navigation-menus/b.case.php".toList (.text failingFixture)

def longEntries : List (OsText × FileTree) :=
  [(Text.os "a.case.php".toList, .file (.text passingFixture)),
    (Text.os "navigation-menus".toList, .directory .full
      [(Text.os "b.case.php".toList, .file (.text failingFixture))])]

/-- The slashes leave room for the name of the fixture, but not for that of the folder. -/
def longPath : OsText := withSlashes casesPath 4080

theorem wellFormed_longCases : longCases.root.WellFormed :=
  Disk.wellFormed_addFile (Disk.wellFormed_addFile wellFormed_emptyDisk (by decide)) (by decide)

theorem wellFormed_unnamedCases : unnamedCases.root.WellFormed :=
  .putFile (.text failingFixture) (by decide) fun _ ht => Option.some.inj ht ▸
    Disk.wellFormed_addFile wellFormed_emptyDisk (by decide)

theorem wellFormed_closedCases : closedCases.root.WellFormed :=
  Disk.wellFormed_addDirectory (Disk.wellFormed_addFile (Disk.wellFormed_addFile
    wellFormed_emptyDisk (by decide)) (by decide)) (by decide)

theorem find?_longPath : longCases.find? longPath = .ok (.directory .full longEntries) := by
  have hcases : longCases.find? casesPath = .ok (.directory .full longEntries) := rfl
  have hfits := Disk.fits_withSlashes casesPath 4080 []
  rw [List.append_nil] at hfits
  exact Disk.find?_withSlashes hcases (hfits.trans (by decide))

theorem joinPath_longPath (name : OsText) : joinPath longPath name = longPath ++ name :=
  joinPath_withSlashes casesPath 4079 name

theorem fixtures_longPath : longCases.fixtures longPath =
    [⟨[], Text.os "a.case.php".toList, longPath ++ Text.os "a.case.php".toList⟩] := by
  have hfits : Disk.fits (longPath ++ Text.os "navigation-menus".toList) = false :=
    (Disk.fits_withSlashes casesPath 4080 _).trans (by decide)
  rw [Disk.fixtures_eq find?_longPath]
  simp only [longEntries, FileTree.fixturesIn, FileTree.fixtures, joinPath_longPath, hfits]
  rfl

theorem passes_longPath : FixtureFile.Passes
    ⟨[], Text.os "a.case.php".toList, longPath ++ Text.os "a.case.php".toList⟩
    Toml.parse? longCases := by
  have hfits : Disk.fits (longPath ++ Text.os "a.case.php".toList) = true :=
    (Disk.fits_withSlashes casesPath 4080 _).trans (by decide)
  have hmem : (Text.os "a.case.php".toList, FileTree.file (.text passingFixture)) ∈ longEntries :=
    List.mem_cons_self ..
  have hfind := Disk.find?_joinPath wellFormed_longCases find?_longPath hmem
  rw [joinPath_longPath, if_pos hfits] at hfind
  refine ⟨passingFixture, Disk.read?_eq_ok_iff.2 hfind, ?_⟩
  rw [run_passingFixture]

theorem run_longPath_code : (Report.run Toml.parse? longCases longPath false []).code = 0 := by
  have htells : (Report.run Toml.parse? longCases longPath false []).Tells Toml.parse? longCases
      false _ := Report.run_tells_of_directory find?_longPath []
  have hperm := Suite.files_select_perm (longCases.fixtures longPath) []
  rw [fixtures_longPath] at htells hperm
  refine htells.code_eq_zero_iff.2 ⟨fun hnil => ?_, fun f hf => ?_⟩
  · rw [hnil] at hperm
    exact List.cons_ne_nil _ _ hperm.nil_eq.symm
  · rw [List.mem_singleton.1 (hperm.mem_iff.1 hf)]
    exact passes_longPath

/-- A folder whose name has a backslash is not selected by its own name, and by the empty one when
it begins with the backslash. A folder that cannot be listed, a file whose name is no text and a
folder whose path is too long are passed over, so that the failure of what they hold does not
show. -/
theorem run_misses_requested :
    (slashedFixture.IsBelow "\\a".toList ∧ ¬ slashedFixture.IsBelow [] ∧
      slashedFixture.Passes Toml.parse? slashedCases ∧
      Report.run Toml.parse? slashedCases casesPath false ["\\a".toList] =
        ⟨"warning: category '\\a' not found (available: /a)\nno matching categories found\n".toList,
          1⟩ ∧
      Report.run Toml.parse? slashedCases casesPath false [[]] =
        ⟨"\n/a\n  PASS  x\n\ntest result: ok. 1 passed, 0 failed\n".toList, 0⟩) ∧
    (Fixture.runWith Toml.parse? failingFixture).failure ≠ none ∧
    (closedCases.root.WellFormed ∧
      closedCases.read? (Text.os "cases/closed/b.case.php".toList) = .ok failingFixture ∧
      Report.run Toml.parse? closedCases casesPath false [] =
        ⟨"\n(root)\n  PASS  a\n\ntest result: ok. 1 passed, 0 failed\n".toList, 0⟩) ∧
    (unnamedCases.root.WellFormed ∧
      unnamedCases.read? (joinPath casesPath unnamedFixture) = .ok failingFixture ∧
      Report.run Toml.parse? unnamedCases casesPath false [] =
        ⟨"\n(root)\n  PASS  a\n\ntest result: ok. 1 passed, 0 failed\n".toList, 0⟩) ∧
    (longCases.root.WellFormed ∧ longCases.find? longPath = .ok (.directory .full longEntries) ∧
      (FileTree.directory .full longEntries).At
        [Text.os "navigation-menus".toList, Text.os "b.case.php".toList]
        (.file (.text failingFixture)) ∧
      (Report.run Toml.parse? longCases longPath false []).code = 0) := by
  refine ⟨⟨?_, ?_, ⟨passingFixture, rfl, ?_⟩, ?_, ?_⟩, ?_, ⟨wellFormed_closedCases, rfl, ?_⟩,
    ⟨wellFormed_unnamedCases, rfl, ?_⟩, wellFormed_longCases, find?_longPath, ?_,
    run_longPath_code⟩
  · unfold FixtureFile.IsBelow
    decide
  · unfold FixtureFile.IsBelow
    decide
  · rw [run_passingFixture]
  · cbv
  · cbv
  · rw [run_failingFixture]
    exact Option.some_ne_none _
  · cbv
  · cbv
  · exact .step (List.mem_cons_of_mem _ (List.mem_cons_self ..))
      (.step (List.mem_cons_self ..) (.here _))

end TemplateBlocks
