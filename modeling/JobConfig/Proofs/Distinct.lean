import JobConfig.Proofs.Moved

/-!
# Distinct names

A grouping that is merged has each name once. What is not merged keeps the names that it has: a new
file those of its shard, and a file on disk those of the groupings in which its shard has no job. So
a name is planned twice in a grouping if and only if it stands there twice among jobs that are not
stale.
-/

namespace JobConfig

/-! ### One file -/

section

variable {J : Type} [JobLike J]

/-- The jobs that pruning keeps, as they were before. -/
def current (jobs : List J) : List J :=
  jobs.filter fun j => !(JobLike.toJob j).isStale

theorem distinctNames_sortJobs_pruneJobs {jobs : List J} :
    DistinctNames (sortJobs (pruneJobs jobs)) ↔ DistinctNames (current jobs) := by
  rw [distinctNames_sortJobs, pruneJobs, distinctNames_map Job.name_finalize]
  exact Iff.rfl

end

theorem JobSet.distinct_sort_prune_iff {s : JobSet} :
    s.prune.sort.Distinct ↔ ∀ g, DistinctNames (current (s.jobs g)) := by
  unfold JobSet.Distinct
  refine forall_congr' fun g => ?_
  rw [JobSet.jobs_sort, JobSet.jobs_prune, distinctNames_sortJobs_pruneJobs]

/-- Where a shard has jobs the names of a settled file are distinct. Elsewhere they are if those of
the file were. -/
theorem distinct_settle_iff {considered : Considered} {old : JobSet} {shard? : Option JobSet} :
    (settle considered old shard?).Distinct ↔
      ∀ g, (shard?.getD ∅).lists g = false → DistinctNames (current (old.jobs g)) := by
  unfold JobSet.Distinct
  refine forall_congr' fun g => ?_
  rw [jobs_settle]
  cases hg : (shard?.getD ∅).lists g with
  | true =>
    simp only [if_true, Bool.true_eq_false, false_imp_iff, iff_true]
    exact distinctNames_settleJobs g.isRenewal_merge _ _ _
  | false =>
    simp only [Bool.false_eq_true, if_false, true_imp_iff]
    exact distinctNames_sortJobs_pruneJobs

/-! ### All files -/

namespace FileTree

variable {t : FileTree} {jobDir : Path} {org repo : String} {generated : JobSet} {scan : Scanner}

/-- The names of all planned files are distinct if and only if those of the jobs that are not merged
are, stale ones aside: in a found file the jobs of the groupings in which its shard has none, and in
a shard that no found file takes all its jobs. -/
theorem distinct_plan_iff : (∀ f ∈ t.plan jobDir org repo generated scan, f.jobs.Distinct) ↔
    (∀ e ∈ t.found (repoDir jobDir org repo) scan, ∀ g,
      (t.shardOf jobDir org repo generated e.1.file scan).jobs g = [] →
        DistinctNames (current (e.2.jobs g))) ∧
    ∀ n s, (generated.shards org repo).get? n = some s →
      (∀ e ∈ t.found (repoDir jobDir org repo) scan, shardName e.1.file ≠ n) →
        ∀ g, DistinctNames (current (s.jobs g)) := by
  have hsettled : ∀ e : Identity × JobSet,
      (settle (generated.considered org repo) e.2 (takenShard? (generated.shards org repo)
        (t.found (repoDir jobDir org repo) scan) e.1.file)).Distinct ↔
      ∀ g, (t.shardOf jobDir org repo generated e.1.file scan).jobs g = [] →
        DistinctNames (current (e.2.jobs g)) := by
    intro e
    rw [distinct_settle_iff]
    refine forall_congr' fun g => imp_congr_left ?_
    exact (full_shardOf e.1.file).lists_eq_false_iff
  constructor
  · intro h
    refine ⟨fun e he => ?_, fun n s hs hno => ?_⟩
    · have hjobs := h _ (mem_plan_of_mem_found he generated)
      exact (hsettled e).1 hjobs
    · have hjobs := h _ (mem_plan_of_shard hs hno)
      exact JobSet.distinct_sort_prune_iff.1 hjobs
  · rintro ⟨hfound, hfresh⟩ f hf
    rcases mem_plan.1 hf with ⟨e, he, rfl⟩ | ⟨n, s, hs, hno, rfl⟩
    · exact (hsettled e).2 (hfound e he)
    · exact JobSet.distinct_sort_prune_iff.2 (hfresh n s hs hno)

/-- A job that is generated twice. -/
def twiceJobs : JobSet where
  presubmits :=
    let labels := .ofList [(Job.markerLabel, Job.newlyGenerated)]
    .ofList [("o/r", [{ name := "a", labels }, { name := "a", labels }])]

set_option maxRecDepth 100000 in
/-- A new file has the job twice. -/
theorem not_distinct_plan_twiceJobs :
    ¬∀ f ∈ (∅ : FileTree).plan smallDir "o" "r" twiceJobs, f.jobs.Distinct := by
  decide +kernel

end FileTree

end JobConfig
