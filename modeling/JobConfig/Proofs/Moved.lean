import JobConfig.Proofs.HandAuthored

/-!
# Jobs that move between files

A job that is generated for one file is gone from every other file whose shard has jobs in its
grouping. The others are not merged: they are only pruned, so that a job of the same name stays in
them unless it is stale.
-/

namespace JobConfig

open Grouping (ofRepo)

/-! ### One file -/

section

variable {considered : Considered} {old : JobSet} {shard? : Option JobSet} {g : Grouping}
  {n : String}

theorem mem_names_sortJobs_pruneJobs {J : Type} [JobLike J] {jobs : List J} :
    n ∈ (sortJobs (pruneJobs jobs)).map nameOf ↔
      ∃ o ∈ jobs, nameOf o = n ∧ (JobLike.toJob o).isStale = false := by
  rw [sortJobs, List.map_map]
  simp only [List.mem_map, mem_sortBy, mem_pruneJobs, Function.comp_apply,
    nameOf_modifyJob Job.name_sortSpec]
  constructor
  · rintro ⟨j, ⟨o, ho, hstale, rfl⟩, hn⟩
    exact ⟨o, ho, by rwa [nameOf_modifyJob Job.name_finalize] at hn, hstale⟩
  · rintro ⟨o, ho, hn, hstale⟩
    exact ⟨_, ⟨o, ho, hstale, rfl⟩, by rwa [nameOf_modifyJob Job.name_finalize]⟩

/-- Where a name is generated for another file, a file that is merged drops it, and a file that is
not merged keeps the jobs that are not stale. -/
theorem mem_names_settle (hc : (considered.names g.kind).contains n = true)
    (hs : n ∉ ((shard?.getD ∅).jobs g).map nameOf) :
    n ∈ ((settle considered old shard?).jobs g).map nameOf ↔
      (shard?.getD ∅).lists g = false ∧
        ∃ o ∈ old.jobs g, nameOf o = n ∧ (JobLike.toJob o).isStale = false := by
  rw [jobs_settle]
  by_cases hg : (shard?.getD ∅).lists g
  · have hnone : lastNamed n (settleJobs g.merge (considered.names g.kind) (old.jobs g)
        ((shard?.getD ∅).jobs g)) = none := by
      rw [lastNamed_settleJobs g.isRenewal_merge, lastNamed_eq_none_iff.2 hs]
      simp [mergedJob, hc]
    simp only [hg, if_true, Bool.true_eq_false, false_and, iff_false]
    exact lastNamed_eq_none_iff.1 hnone
  · simp only [hg, Bool.false_eq_true, if_false, true_and]
    exact mem_names_sortJobs_pruneJobs

end

/-! ### All files -/

namespace FileTree

/-- The generated jobs that a planned file is given. -/
def shardOf (t : FileTree) (jobDir : Path) (org repo : String) (generated : JobSet) (p : Path)
    (scan : Scanner := .inOrder) : JobSet :=
  (takenShard? (generated.shards org repo) (t.found (repoDir jobDir org repo) scan) p).getD ∅

variable {t : FileTree} {jobDir : Path} {org repo n : String} {generated : JobSet} {f : Planned}
  {kind : Kind} {scan : Scanner}

theorem full_shardOf (p : Path) : (t.shardOf jobDir org repo generated p scan).Full := by
  rw [shardOf]
  cases hs : takenShard? (generated.shards org repo) (t.found (repoDir jobDir org repo) scan) p with
  | none => exact JobSet.full_empty
  | some s => exact JobSet.full_of_get?_shards (get?_of_takenShard? hs)

/-- A shard that no file takes is given to the new file. -/
theorem shardOf_fresh {s : JobSet} (ho : Path.IsPlain org) (hr : Path.IsPlain repo)
    (hs : (generated.shards org repo).get? n = some s)
    (hno : ∀ e ∈ t.found (repoDir jobDir org repo) scan, shardName e.1.file ≠ n) :
    t.shardOf jobDir org repo generated ((repoDir jobDir org repo).join (.ofString n)) scan =
      s := by
  have hn := shardName_join (isPlain_of_get?_shards ho hr hs) (repoDir jobDir org repo)
  have hfirst : IsFirst (t.found (repoDir jobDir org repo) scan)
      ((repoDir jobDir org repo).join (.ofString n)) := by
    intro q hq
    rw [hn, firstNamed?_eq_none_iff.2 hno] at hq
    cases hq
  rw [shardOf, takenShard?, if_pos hfirst, hn, hs]
  rfl

/-- A job that is generated for a repository leaves the files that it is not generated for. In a
planned file whose shard does not have a generated name, a job of the name stays if and only if the
shard has no job of the kind at all and the file on disk has a job of the name that is not stale. -/
theorem mem_names_plan_iff (ht : t.LinkFree) (ho : Path.IsPlain org) (hr : Path.IsPlain repo)
    (hf : f ∈ t.plan jobDir org repo generated scan) (hn : generated.Generates org repo kind n)
    (hs : n ∉ ((t.shardOf jobDir org repo generated f.path scan).jobs (ofRepo org repo kind)).map
      nameOf) :
    n ∈ (f.jobs.jobs (ofRepo org repo kind)).map nameOf ↔
      (t.shardOf jobDir org repo generated f.path scan).jobs (ofRepo org repo kind) = [] ∧
        ∃ e ∈ t.found (repoDir jobDir org repo) scan, e.1.file = f.path ∧
          ∃ o ∈ e.2.jobs (ofRepo org repo kind), nameOf o = n ∧
            (JobLike.toJob o).isStale = false := by
  have hc : ((generated.considered org repo).names (ofRepo org repo kind).kind).contains n =
      true := by
    rw [JobSet.contains_considered]
    cases kind <;> exact hn
  rcases mem_plan.1 hf with ⟨e, he, rfl⟩ | ⟨file, s, hfile, hno, rfl⟩
  · rw [mem_names_settle hc hs, ← (full_shardOf _).lists_eq_false_iff]
    refine and_congr_right fun _ => ⟨fun h => ⟨e, he, rfl, h⟩, ?_⟩
    rintro ⟨e', he', hp, h⟩
    rwa [eq_of_mem_found ht he' he (by rw [hp])] at h
  · -- a new file has the jobs of its shard, and none of them has the name
    rw [shardOf_fresh ho hr hfile hno] at hs ⊢
    have hname := shardName_join (isPlain_of_get?_shards ho hr hfile) (repoDir jobDir org repo)
    refine iff_of_false (fun hmem => hs ?_) fun ⟨_, e, he, hp, _⟩ =>
      hno e he (by rw [hp, hname])
    rw [JobSet.jobs_sort, JobSet.jobs_prune, mem_names_sortJobs_pruneJobs] at hmem
    obtain ⟨o, ho, hn, -⟩ := hmem
    exact List.mem_map.2 ⟨o, ho, hn⟩

/-- One job generated for the master branch and one for the branch `x`. -/
def twoJobs : JobSet where
  presubmits :=
    let labels := .ofList [(Job.markerLabel, Job.newlyGenerated)]
    .ofList [("o/r", [{ name := "a", labels }, { name := "b", labels, branches := ["x"] }])]

/-- A tree with two files that have the job of the master branch without a marker. -/
def namesakeTree : FileTree :=
  smallTree [("o-r-x-presubmits.yaml", "presubmits:\n  o/r:\n  - name: a\n  - name: b\n"),
    ("o-r-y-presubmits.yaml", "presubmits:\n  o/r:\n  - name: a\n")]

set_option maxRecDepth 100000 in
/-- The file that is merged drops the job, though it has no marker. -/
theorem not_mem_names_plan_namesakeTree :
    ∃ f ∈ namesakeTree.plan smallDir "o" "r" twoJobs,
      f.path = smallPath "o-r-x-presubmits.yaml" ∧
      "a" ∉ (f.jobs.jobs (ofRepo "o" "r" .presubmit)).map nameOf := by
  obtain ⟨f, hf, hp, hshard⟩ : ∃ f ∈ namesakeTree.plan smallDir "o" "r" twoJobs,
      f.path = smallPath "o-r-x-presubmits.yaml" ∧
      ((namesakeTree.shardOf smallDir "o" "r" twoJobs f.path).jobs
        (ofRepo "o" "r" .presubmit)).map nameOf = ["b"] := by decide +kernel
  refine ⟨f, hf, hp, ?_⟩
  rw [mem_names_plan_iff (by decide +kernel) (by decide) (by decide) hf (by decide +kernel)
    (by rw [hshard]; decide)]
  rintro ⟨hnil, -⟩
  rw [hnil] at hshard
  cases hshard

set_option maxRecDepth 100000 in
/-- The file that is not merged keeps a job that is generated for another one. -/
theorem mem_names_plan_namesakeTree : twoJobs.Generates "o" "r" .presubmit "a" ∧
    ∃ f ∈ namesakeTree.plan smallDir "o" "r" twoJobs,
      "a" ∉ ((namesakeTree.shardOf smallDir "o" "r" twoJobs f.path).jobs
        (ofRepo "o" "r" .presubmit)).map nameOf ∧
      "a" ∈ (f.jobs.jobs (ofRepo "o" "r" .presubmit)).map nameOf := by
  decide +kernel

end FileTree

end JobConfig
