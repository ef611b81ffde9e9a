import JobConfig.Proofs.Lists
import JobConfig.Proofs.Storage
import JobConfig.Proofs.Tree.Parents
import JobConfig.Proofs.Write

/-!
# Runs

What a run leaves in the directory of a repository, if it ends well: the planned files that hold
jobs, and no other job file. This takes it that the text of a job set reads back as that set.
-/

namespace JobConfig

/-- Whether the text of a job set reads back as the set. -/
def JobSet.ReadsBack (s : JobSet) : Prop :=
  JobSet.ofContent (Utf8.encode s.text) = .ok s

instance (s : JobSet) : Decidable s.ReadsBack := by
  unfold JobSet.ReadsBack
  infer_instance

/-- Whether organisation and repository are plain names and the job directory does not lead up. -/
structure IsTarget (jobDir : Path) (org repo : String) : Prop where
  org : Path.IsPlain org
  repo : Path.IsPlain repo
  jobDir : .up ∉ jobDir.components

section Target

variable {jobDir : Path} {org repo : String}

theorem IsTarget.isName (h : IsTarget jobDir org repo) : Path.isName (Utf8.encode repo) = true :=
  Path.isName_encode.2 h.repo

theorem IsTarget.up_not_mem (h : IsTarget jobDir org repo) :
    .up ∉ (repoDir jobDir org repo).components := by
  rw [repoDir, Path.ofString, Path.ofString, Path.components_join h.isName,
    Path.components_join (Path.isName_encode.2 h.org)]
  simpa using h.jobDir

end Target

namespace FileTree

/-- A run that ends well on some storage, all of whose files read back. -/
structure Run (scan : Scanner) (jobDir : Path) (org repo : String) (t : FileTree)
    (generated : JobSet) (t' : FileTree) : Prop where
  succeeds : ∃ os disk, t.shardInto jobDir org repo generated false scan disk = (.ok os, t')
  readsBack : ∀ f ∈ t.plan jobDir org repo generated scan, f.jobs.isEmpty = false →
    f.jobs.ReadsBack

/-- Runs one after the other, each with a scan of its own. -/
inductive Runs (jobDir : Path) (org repo : String) : FileTree → List JobSet → FileTree → Prop where
  | nil (t : FileTree) : Runs jobDir org repo t [] t
  | cons {scan : Scanner} {t t₁ t' : FileTree} {generated : JobSet} {rest : List JobSet} :
      Run scan jobDir org repo t generated t₁ → Runs jobDir org repo t₁ rest t' →
        Runs jobDir org repo t (generated :: rest) t'

variable {jobDir : Path} {org repo : String} {t t' : FileTree} {generated : JobSet}
  {scan : Scanner} {disk : Storage}

/-- The outcomes of a run and the tree that it leaves. -/
theorem shardInto_eq {os : List (Outcome × Path)}
    (h : (t.shardInto jobDir org repo generated false scan disk).1.toOption = some os) :
    t.shardInto jobDir org repo generated false scan disk =
      (.ok os, (t.shardInto jobDir org repo generated false scan disk).2) :=
  Prod.ext (toOption_eq_some_iff.1 h) rfl

/-- Where the directory of the repository is there, a run writes what it plans. -/
theorem shardInto_of_isDirectory (ht : t.LinkFree) (h : IsTarget jobDir org repo)
    (hd : t.isDirectory (repoDir jobDir org repo) = true) (generated : JobSet) (dryRun : Bool)
    (scan : Scanner) (disk : Storage) :
    t.shardInto jobDir org repo generated dryRun scan disk =
      writeAll dryRun t (t.plan jobDir org repo generated scan) disk := by
  have hmade : t.makeDirectories (repoDir jobDir org repo) disk = (.ok (), t) :=
    makeDirectories_of_isDirectory ht h.isName hd disk
  rw [shardInto]
  simp only [hmade, ite_self]

/-- A run that ends well makes the directory of the repository and writes what is planned there. -/
theorem exists_writeAll_of_shardInto {os : List (Outcome × Path)}
    (hrun : t.shardInto jobDir org repo generated false scan disk = (.ok os, t')) : ∃ t₁,
      t.makeDirectories (repoDir jobDir org repo) = (.ok (), t₁) ∧
        writeAll false t₁ (t₁.plan jobDir org repo generated scan) = (.ok os, t') := by
  replace hrun := shardInto_sound hrun
  rw [shardInto] at hrun
  simp only [Bool.false_eq_true, if_false] at hrun
  cases hm : t.makeDirectories (repoDir jobDir org repo) with
  | mk made t₁ =>
    rw [hm] at hrun
    cases made with
    | error r => cases hrun
    | ok u => exact ⟨t₁, rfl, hrun⟩

/-! ### The directory of the repository -/

/-- Making a directory does not change what is found there. -/
theorem found_of_extends {dir : Path} (ht : t.LinkFree) (hup : .up ∉ dir.components)
    (hext : t'.Extends t) (hd : t'.isDirectory dir = true)
    (hsame : t.isDirectory dir = true → t' = t) (scan : Scanner) :
    t'.found dir scan = t.found dir scan := by
  by_cases hdt : t.isDirectory dir
  · rw [hsame hdt]
  · -- a file below the directory would have made it one before
    have hnone : ∀ e, e ∉ t'.found dir scan := by
      intro e he
      obtain ⟨-, names, hn, ⟨c, hc, -⟩, -⟩ := (mem_found (hext.linkFree ht)).1 he
      rw [hext.fileAt?, fileAt?_eq_some_iff] at hc
      obtain ⟨hb, -⟩ := (isDirectory_iff_walk (hext.linkFree ht)).1 hd
      exact hdt (isDirectory_of_get? ht hup hb (directory_of_get?_append hc hn).2.2)
    rw [List.eq_nil_iff_forall_not_mem.2 hnone, found, if_neg hdt]

theorem plan_congr
    (h : t'.found (repoDir jobDir org repo) scan = t.found (repoDir jobDir org repo) scan) :
    t'.plan jobDir org repo generated scan = t.plan jobDir org repo generated scan := by
  rw [plan, plan, h]

/-- What it means that the directory of a repository is made: the tree has no more than directories
on the way to it, so that nothing is found there that was not found before. -/
structure Prepared (jobDir : Path) (org repo : String) (t t₁ : FileTree) : Prop where
  adds : t₁.Extends t
  elsewhere : ∀ l, ¬l <+: (repoDir jobDir org repo).place → t₁.get? l = t.get? l
  isDirectory : t₁.isDirectory (repoDir jobDir org repo) = true
  found : ∀ scan,
    t₁.found (repoDir jobDir org repo) scan = t.found (repoDir jobDir org repo) scan

theorem Prepared.mem_plan {t₁ : FileTree} (hp : Prepared jobDir org repo t t₁) {f : Planned}
    (hf : f ∈ t.plan jobDir org repo generated scan) :
    f ∈ t₁.plan jobDir org repo generated scan := by
  rwa [plan_congr (hp.found scan)]

theorem prepared_of_makeDirectories {t₁ : FileTree} (ht : t.LinkFree) (h : IsTarget jobDir org repo)
    (hm : t.makeDirectories (repoDir jobDir org repo) = (.ok (), t₁)) :
    Prepared jobDir org repo t t₁ := by
  have hext : t₁.Extends t := extends_of_makeDirectories hm
  have hd := makeDirectories_ok h.isName hm
  refine ⟨hext, fun l hl => ?_, hd, found_of_extends ht h.up_not_mem hext hd fun hdt => ?_⟩
  · have hget := makeDirectories_get? ht h.up_not_mem hl .sound
    rwa [hm] at hget
  · have hno : t.makeDirectories (repoDir jobDir org repo) = (.ok (), t) :=
      makeDirectories_of_isDirectory ht h.isName hdt .sound
    rw [hno, Prod.mk.injEq] at hm
    exact hm.2.symm

/-- A run cannot make the directory of the repository, or writes its plan there. -/
theorem shardInto_cases (ht : t.LinkFree) (h : IsTarget jobDir org repo) (generated : JobSet)
    (scan : Scanner) (disk : Storage) :
    (∃ e t₁, t₁.Extends t ∧
      (∀ l, ¬l <+: (repoDir jobDir org repo).place → t₁.get? l = t.get? l) ∧
      t.shardInto jobDir org repo generated false scan disk = (.error e, t₁)) ∨
    ∃ t₁, Prepared jobDir org repo t t₁ ∧
      t.shardInto jobDir org repo generated false scan disk =
        writeAll false t₁ (t.plan jobDir org repo generated scan) disk := by
  have hext := makeDirectories_extends t (repoDir jobDir org repo) disk
  have hget : ∀ l, ¬l <+: (repoDir jobDir org repo).place →
      (t.makeDirectories (repoDir jobDir org repo) disk).2.get? l = t.get? l :=
    fun l hl => makeDirectories_get? ht h.up_not_mem hl disk
  rw [shardInto]
  simp only [Bool.false_eq_true, if_false]
  cases hm : t.makeDirectories (repoDir jobDir org repo) disk with
  | mk made t₁ =>
    rw [hm] at hext hget
    cases made with
    | error r => exact .inl ⟨_, t₁, hext, hget, rfl⟩
    | ok u =>
      have hp := prepared_of_makeDirectories ht h (makeDirectories_sound hm)
      exact .inr ⟨t₁, hp, by rw [plan_congr (hp.found scan)]⟩

/-- A run that ends well makes the directory and then writes the planned files. -/
theorem shardInto_ok (ht : t.LinkFree) (h : IsTarget jobDir org repo)
    {os : List (Outcome × Path)}
    (hrun : t.shardInto jobDir org repo generated false scan disk = (.ok os, t')) :
    ∃ t₁, Prepared jobDir org repo t t₁ ∧
      writeAll false t₁ (t.plan jobDir org repo generated scan) = (.ok os, t') := by
  obtain ⟨e, t₁, -, -, herr⟩ | ⟨t₁, hp, hw⟩ := shardInto_cases ht h generated scan disk
  · rw [hrun] at herr
    cases herr
  · exact ⟨t₁, hp, writeAll_sound (hw ▸ hrun)⟩

/-! ### What a run leaves -/

/-- What a file holds is the job set that was written to it. -/
theorem loads_iff_of_readsBack {l : Location} {jobs s : JobSet}
    (hl : t.fileAt? l = contentOfJobs? jobs)
    (hback : jobs.isEmpty = false → jobs.ReadsBack) :
    t.Loads l s ↔ jobs.isEmpty = false ∧ jobs = s := by
  rw [Loads, hl, contentOfJobs?]
  cases hemp : jobs.isEmpty with
  | true => simp
  | false =>
    have hread : JobSet.ofContent (Utf8.encode jobs.text) = .ok jobs := hback hemp
    simp [hread]

section Planned

variable {os : List (Outcome × Path)} {f : Planned} (ht : t.LinkFree)
  (h : IsTarget jobDir org repo) (hd : t.isDirectory (repoDir jobDir org repo) = true)
  (hw : writeAll false t (t.plan jobDir org repo generated scan) = (.ok os, t'))

include ht h hd in
theorem place_ne_besides (hf : f ∈ t.plan jobDir org repo generated scan) (p : Path) :
    f.path.place ≠ (besides p).place := by
  obtain ⟨-, -, -, -, hr, i, hi⟩ := path_of_mem_plan ht h.org h.repo hd hf
  exact (place_besides_ne (Identity.file_of_ofJobFile? hi).2 hr p).symm

include ht h hd hw in
/-- Every planned file is left with its text. -/
theorem fileAt?_planned (hf : f ∈ t.plan jobDir org repo generated scan) :
    t'.fileAt? f.path.place = contentOfJobs? f.jobs := by
  refine fileAt?_place_writeAll ht hw (fun g hg => ?_)
    (fun f hf g hg => eq_of_mem_plan ht h.org h.repo hf hg)
    (fun f hf g _ => place_ne_besides ht h hd hf g.path) hf
  obtain ⟨-, -, -, -, hr, -⟩ := path_of_mem_plan ht h.org h.repo hd hg
  exact hr

include ht hd hw in
/-- A job file that holds jobs after a run was planned: had it been there before, it would have been
found. -/
theorem planned_of_loads {names : Location} {s : JobSet} {i : Identity} (hn : names ≠ [])
    (hload : t'.Loads ((repoDir jobDir org repo).place ++ names) s)
    (hi : Identity.ofJobFile? (under (repoDir jobDir org repo) names) = some i) :
    ∃ f ∈ t.plan jobDir org repo generated scan,
      f.path.place = (repoDir jobDir org repo).place ++ names := by
  by_contra hno
  simp only [not_exists, not_and] at hno
  have hnames := hload.named hn
  obtain ⟨c, hc, hs⟩ := hload
  have hold : t.fileAt? ((repoDir jobDir org repo).place ++ names) = some c := by
    rw [fileAt?_writeAll ht hw fun f hf hl => hno f hf hl.symm] at hc
    split at hc
    · cases hc
    · exact hc
  have hfound : (i, s) ∈ t.found (repoDir jobDir org repo) scan :=
    (mem_found ht).2 ⟨hd, names, hn, ⟨c, hold, hs⟩, hi⟩
  refine hno _ (mem_plan_of_mem_found hfound generated) ?_
  rw [(Identity.file_of_ofJobFile? hi).1, place_under hnames]

include ht h hd hw in
/-- The planned files that hold jobs are just the ones found when they are written. -/
theorem mem_found_writeAll
    (hback : ∀ f ∈ t.plan jobDir org repo generated scan, f.jobs.isEmpty = false → f.jobs.ReadsBack)
    {e : Identity × JobSet} : e ∈ t'.found (repoDir jobDir org repo) ↔
      ∃ f ∈ t.plan jobDir org repo generated scan, f.jobs.isEmpty = false ∧
        Identity.ofJobFile? f.path = some e.1 ∧ f.jobs = e.2 := by
  obtain ⟨ht', hk⟩ := writeAll_linkFree ht hw
  rw [mem_found ht', and_iff_right (isDirectory_mono ht ht' hk hd)]
  constructor
  · rintro ⟨names, hn, hload, hi⟩
    have hnames := hload.named hn
    obtain ⟨f, hf, hfp⟩ := planned_of_loads ht hd hw hn hload hi
    obtain ⟨names', -, hnames', hfile, -⟩ := path_of_mem_plan ht h.org h.repo hd hf
    rw [← hfp, loads_iff_of_readsBack (fileAt?_planned ht h hd hw hf) (hback f hf)] at hload
    rw [hfile, place_under hnames', List.append_cancel_left_eq] at hfp
    exact ⟨f, hf, hload.1, by rw [hfile, hfp, hi], hload.2⟩
  · rintro ⟨f, hf, hemp, hi, hs⟩
    obtain ⟨names, hn, hnames, hfile, -⟩ := path_of_mem_plan ht h.org h.repo hd hf
    refine ⟨names, hn, ?_, hfile ▸ hi⟩
    rw [← place_under hnames, ← hfile]
    exact (loads_iff_of_readsBack (fileAt?_planned ht h hd hw hf) (hback f hf)).2 ⟨hemp, hs⟩

end Planned

/-- A run that ends well starts from all the job files that a walk finds. -/
theorem Run.found_eq (hrun : Run scan jobDir org repo t generated t') (ht : t.LinkFree)
    (h : IsTarget jobDir org repo) :
    t.found (repoDir jobDir org repo) = t.loaded (repoDir jobDir org repo) := by
  obtain ⟨os, disk, hos⟩ := hrun.succeeds
  obtain ⟨t₁, ⟨hext, -, hd, -⟩, -⟩ := shardInto_ok ht h hos
  rw [found]
  split
  · rfl
  · -- it can only be made a directory where nothing is, and then a walk meets nothing
    rename_i hno
    have hlookup : ∀ l e, t.lookup false (repoDir jobDir org repo) ≠ .ok (l, e) := by
      intro l e hl
      obtain ⟨rfl, hg⟩ := lookup_ok ht hl
      have hg' := get?_of_isDirectory (hext.linkFree ht) hd
      have he : e = .directory := by
        rcases hext (repoDir jobDir org repo).place with heq | ⟨hnone, -⟩
        · rw [heq, hg, Option.some.injEq] at hg'
          exact hg'
        · rw [hnone] at hg
          cases hg
      refine hno ((isDirectory_iff_resolve ht false).2 ?_)
      rw [lookup] at hl
      split at hl
      · rename_i hr
        cases hl
        rw [hr, he]
      · cases hl
      · cases hl
    have hfiles : t.files (repoDir jobDir org repo) = [] := by
      rw [files]
      split
      · exact absurd (by assumption) (hlookup _ _)
      · exact absurd (by assumption) (hlookup _ _)
      · rfl
    rw [loaded, identities, hfiles]
    rfl

section Leaves

variable (hrun : Run scan jobDir org repo t generated t') (ht : t.LinkFree)
  (h : IsTarget jobDir org repo)

include hrun ht h

/-- A run writes its plan to a tree that has the directory of the repository. -/
theorem Run.writes : ∃ t₁ os, t₁.LinkFree ∧ t₁.isDirectory (repoDir jobDir org repo) = true ∧
    t₁.plan jobDir org repo generated scan = t.plan jobDir org repo generated scan ∧
    writeAll false t₁ (t₁.plan jobDir org repo generated scan) = (.ok os, t') := by
  obtain ⟨os, disk, hos⟩ := hrun.succeeds
  obtain ⟨t₁, hp, hw⟩ := shardInto_ok ht h hos
  have hplan : t₁.plan jobDir org repo generated scan =
      t.plan jobDir org repo generated scan :=
    plan_congr (hp.found scan)
  exact ⟨t₁, os, hp.adds.linkFree ht, hp.isDirectory, hplan, hplan ▸ hw⟩

theorem Run.linkFree : t'.LinkFree := by
  obtain ⟨t₁, os, ht₁, -, -, hw⟩ := hrun.writes ht h
  exact (writeAll_linkFree ht₁ hw).1

theorem Run.isDirectory : t'.isDirectory (repoDir jobDir org repo) = true := by
  obtain ⟨t₁, os, ht₁, hd, -, hw⟩ := hrun.writes ht h
  obtain ⟨ht', hk⟩ := writeAll_linkFree ht₁ hw
  exact isDirectory_mono ht₁ ht' hk hd

/-- A run leaves the planned files that hold jobs, and no other job file. -/
theorem Run.mem_loaded {e : Identity × JobSet} : e ∈ t'.loaded (repoDir jobDir org repo) ↔
    ∃ f ∈ t.plan jobDir org repo generated scan, f.jobs.isEmpty = false ∧
      Identity.ofJobFile? f.path = some e.1 ∧ f.jobs = e.2 := by
  obtain ⟨t₁, os, ht₁, hd, hplan, hw⟩ := hrun.writes ht h
  have hback := hrun.readsBack
  rw [← hplan] at hback ⊢
  have hfound : t'.found (repoDir jobDir org repo) = t'.loaded (repoDir jobDir org repo) :=
    if_pos (hrun.isDirectory ht h)
  rw [← hfound, mem_found_writeAll ht₁ h hd hw hback]

/-- A job file that is there after a run was planned under its own path. -/
theorem Run.exists_planned {e : Identity × JobSet}
    (he : e ∈ t'.loaded (repoDir jobDir org repo)) :
    ∃ f ∈ t.plan jobDir org repo generated scan, f.jobs.isEmpty = false ∧ e.1.file = f.path ∧
      Identity.ofJobFile? f.path = some e.1 ∧ f.jobs = e.2 := by
  obtain ⟨f, hf, hemp, hi, hjobs⟩ := (hrun.mem_loaded ht h).1 he
  exact ⟨f, hf, hemp, (Identity.file_of_ofJobFile? hi).1, hi, hjobs⟩

/-- A run leaves every planned file with its text. -/
theorem Run.fileAt?_planned {f : Planned} (hf : f ∈ t.plan jobDir org repo generated scan) :
    t'.Reaches f.path ∧ t'.fileAt? f.path.place = contentOfJobs? f.jobs := by
  obtain ⟨t₁, os, ht₁, hd, hplan, hw⟩ := hrun.writes ht h
  rw [← hplan] at hf
  obtain ⟨ht', hk⟩ := writeAll_linkFree ht₁ hw
  obtain ⟨-, -, -, -, hr, -⟩ := path_of_mem_plan ht₁ h.org h.repo hd hf
  exact ⟨hr.mono ht₁ ht' hk, FileTree.fileAt?_planned ht₁ h hd hw hf⟩

theorem Run.ofJobFile? {f : Planned} (hf : f ∈ t.plan jobDir org repo generated scan) :
    ∃ i, Identity.ofJobFile? f.path = some i := by
  obtain ⟨t₁, os, ht₁, hd, hplan, -⟩ := hrun.writes ht h
  rw [← hplan] at hf
  obtain ⟨-, -, -, -, -, hi⟩ := path_of_mem_plan ht₁ h.org h.repo hd hf
  exact hi

theorem Run.render {f : Planned} (hf : f ∈ t.plan jobDir org repo generated scan)
    (he : f.jobs.isEmpty = false) : f.jobs.render = .ok f.jobs.text := by
  obtain ⟨t₁, os, -, -, hplan, hw⟩ := hrun.writes ht h
  exact render_of_writeAll hw (hplan ▸ hf) he

end Leaves

/-- Each shard goes to its receiver, where no job is newly generated if none is that is loaded. -/
theorem exists_taker_of_loaded (h : IsTarget jobDir org repo)
    (hold : ∀ e ∈ t.loaded (repoDir jobDir org repo), e.2.Every fun b => ¬b.IsNew)
    {n : String} {s : JobSet}
    (hs : (generated.shards org repo).get? n = some s) (hd : s.Distinct) :
    ∃ f ∈ t.plan jobDir org repo generated scan, shardName f.path = n ∧
      f.path = receiver (repoDir jobDir org repo) (t.found (repoDir jobDir org repo) scan) n ∧
      (∃ old, old.Every (fun b => ¬b.IsNew) ∧
        f.jobs = settle (generated.considered org repo) old (some s)) ∧
      ∀ f' ∈ t.plan jobDir org repo generated scan, shardName f'.path = n → f' ≠ f →
        IsLeft generated org repo (t.found (repoDir jobDir org repo) scan) f' := by
  obtain ⟨f, hf, hn, hreceiver, ⟨old, hor, hjobs⟩, hothers⟩ :=
    JobConfig.exists_taker h.org h.repo hs hd
  refine ⟨f, hf, hn, hreceiver, ⟨old, ?_, hjobs⟩, hothers⟩
  rcases hor with rfl | ⟨i, hi⟩
  · exact JobSet.every_empty
  · exact hold _ (mem_found_iff_mem_loaded.1 hi).2

/-! ### A small run -/

/-- A tree with some files in the directory of one repository. -/
def smallTree (files : List (String × String)) : FileTree :=
  let dir := ["jobs", "o", "r"].map Utf8.encode
  files.foldl (fun t f => t.put (dir ++ [Utf8.encode f.1]) (.file (Utf8.encode f.2)))
    ((((∅ : FileTree).put (dir.take 1) .directory).put (dir.take 2) .directory).put dir .directory)

/-- The job directory of a small tree. -/
def smallDir : Path :=
  .ofString "jobs"

/-- The path of a file of the repository in a small tree. -/
def smallPath (name : String) : Path :=
  (repoDir smallDir "o" "r").join (.ofString name)

/-- One generated job with a marker. -/
def smallJobs (marker : String) : JobSet where
  presubmits := .ofList
    [("o/r", [{ name := "a", labels := .ofList [(Job.markerLabel, marker)] }])]

/-- One job that is written by hand. -/
def handJobs : JobSet where
  presubmits := .ofList [("o/r", [{ name := "b" }])]

/-- A tree with one file that is written by hand. -/
def handTree : FileTree :=
  smallTree [("o-r-x-presubmits.yaml", "presubmits:\n  o/r:\n  - name: b\n")]

set_option maxRecDepth 100000 in
theorem plan_handTree : handTree.plan smallDir "o" "r" (smallJobs Job.newlyGenerated) =
    [⟨smallPath "o-r-master-presubmits.yaml", smallJobs Job.generated⟩,
      ⟨smallPath "o-r-x-presubmits.yaml", handJobs⟩] := by
  decide +kernel

set_option maxRecDepth 100000 in
theorem readsBack_smallJobs : (smallJobs Job.generated).ReadsBack ∧ handJobs.ReadsBack := by
  decide +kernel

/-- The tree after a file is made for a generated job, next to the one that is written by hand. -/
def handTreeAfter : FileTree :=
  (handTree.shardInto smallDir "o" "r" (smallJobs Job.newlyGenerated) false).2

/-- The outcomes of that run. -/
def handOutcomes : List (Outcome × Path) :=
  [(.written, smallPath "o-r-master-presubmits.yaml"),
    (.unchanged, smallPath "o-r-x-presubmits.yaml")]

theorem isTarget_small : IsTarget smallDir "o" "r" :=
  ⟨by decide, by decide, by decide +kernel⟩

theorem linkFree_handTree : handTree.LinkFree := by
  decide +kernel

set_option maxRecDepth 100000 in
theorem shardInto_handTree : handTree.shardInto smallDir "o" "r" (smallJobs Job.newlyGenerated)
    false = (.ok handOutcomes, handTreeAfter) := by
  have hd : handTree.isDirectory (repoDir smallDir "o" "r") = true := by decide +kernel
  refine shardInto_eq ?_
  rw [shardInto_of_isDirectory linkFree_handTree isTarget_small hd, plan_handTree]
  decide +kernel

theorem run_handTree :
    Run .inOrder smallDir "o" "r" handTree (smallJobs Job.newlyGenerated) handTreeAfter := by
  refine ⟨⟨_, .sound, shardInto_handTree⟩, fun f hf _ => ?_⟩
  rw [plan_handTree] at hf
  rcases List.mem_pair.1 hf with rfl | rfl
  · exact readsBack_smallJobs.1
  · exact readsBack_smallJobs.2

end FileTree

end JobConfig
