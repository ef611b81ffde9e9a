import JobConfig.Proofs.Run

/-!
# Jobs that are written by hand

A job without a marker whose name is not generated survives every run: it stays in its file and in
its grouping, and a run only sorts its specification.
-/

namespace JobConfig

/-- Whether a job of a kind and a name is generated for a repository. -/
def JobSet.Generates (s : JobSet) (org repo : String) (kind : Kind) (n : String) : Prop :=
  ∃ shard ∈ (s.shards org repo).values, ∃ g : Grouping, g.kind = kind ∧
    n ∈ (shard.jobs g).map nameOf

theorem JobSet.contains_considered {s : JobSet} {org repo : String} {kind : Kind} {n : String} :
    ((s.considered org repo).names kind).contains n = true ↔ s.Generates org repo kind n :=
  contains_ofJobSets _ kind n

instance (s : JobSet) (org repo : String) (kind : Kind) (n : String) :
    Decidable (s.Generates org repo kind n) :=
  decidable_of_iff _ JobSet.contains_considered

namespace FileTree

variable {jobDir : Path} {org repo n : String} {t t' : FileTree} {generated : JobSet}
  {scan : Scanner} {i : Identity} {s : JobSet} {g : Grouping} {o : g.Record}

/-- A file that is settled with the shard that it takes keeps a job that is written by hand. -/
theorem lastNamed_settle_handAuthored (ho : lastNamed n (s.jobs g) = some o)
    (hm : (JobLike.toJob o).marker? = none) (hn : ¬generated.Generates org repo g.kind n)
    (found : List (Identity × JobSet)) (p : Path) :
    lastNamed n ((settle (generated.considered org repo) s
      (takenShard? (generated.shards org repo) found p)).jobs g) =
        some (modifyJob Job.sortSpec o) := by
  have hc : ((generated.considered org repo).names g.kind).contains n = false := by
    rw [← Bool.not_eq_true, JobSet.contains_considered]
    exact hn
  refine lastNamed_settle ho hm hc fun hmem => ?_
  -- a shard that the file takes does not generate the name either
  cases htaken : takenShard? (generated.shards org repo) found p with
  | none => simp [htaken] at hmem
  | some shard =>
    rw [htaken] at hmem
    exact hn ⟨shard, KeyMap.mem_values_iff.2 ⟨_, get?_of_takenShard? htaken⟩, g, rfl, hmem⟩

/-- One run keeps a job that is written by hand. -/
theorem Run.keeps_handAuthored (hrun : Run scan jobDir org repo t generated t') (ht : t.LinkFree)
    (h : IsTarget jobDir org repo) (hs : (i, s) ∈ t.loaded (repoDir jobDir org repo))
    (ho : lastNamed n (s.jobs g) = some o) (hm : (JobLike.toJob o).marker? = none)
    (hn : ¬generated.Generates org repo g.kind n) :
    ∃ s', (i, s') ∈ t'.loaded (repoDir jobDir org repo) ∧
      lastNamed n (s'.jobs g) = some (modifyJob Job.sortSpec o) := by
  rw [← hrun.found_eq ht h, ← mem_found_iff_inOrder] at hs
  obtain ⟨-, -, -, -, -, -, -, hi⟩ := names_of_mem_found ht hs
  have hf := mem_plan_of_mem_found hs generated
  have hlast := lastNamed_settle_handAuthored ho hm hn (t.found (repoDir jobDir org repo) scan)
    i.file
  have hemp := full_settle.isEmpty_eq_false (lastNamed_mem hlast).1
  refine ⟨_, ?_, hlast⟩
  exact (hrun.mem_loaded ht h).2 ⟨_, hf, hemp, hi, rfl⟩

/-- A job that is written by hand survives all runs: the last job of its name, if it has no marker
and no run generates the name for its kind, stays in its file as it is, with a sorted
specification. -/
theorem Runs.keeps {sets : List JobSet} (hruns : Runs jobDir org repo t sets t')
    (ht : t.LinkFree) (h : IsTarget jobDir org repo)
    (hs : (i, s) ∈ t.loaded (repoDir jobDir org repo))
    (ho : lastNamed n (s.jobs g) = some o) (hm : (JobLike.toJob o).marker? = none)
    (hn : ∀ generated ∈ sets, ¬generated.Generates org repo g.kind n) :
    ∃ s', (i, s') ∈ t'.loaded (repoDir jobDir org repo) ∧
      lastNamed n (s'.jobs g) = some (if sets = [] then o else modifyJob Job.sortSpec o) := by
  -- the job of the first run is again one to be kept, and its specification is sorted already
  induction hruns generalizing s o with
  | nil t => exact ⟨s, hs, by simpa using ho⟩
  | cons hrun _ ih =>
    have ht₁ := hrun.linkFree ht h
    obtain ⟨s₁, hs₁, ho₁⟩ := hrun.keeps_handAuthored ht h hs ho hm (hn _ List.mem_cons_self)
    have hm₁ : (JobLike.toJob (modifyJob Job.sortSpec o)).marker? = none := by
      rw [toJob_modifyJob, Job.marker?_sortSpec, hm]
    obtain ⟨s', hs', ho'⟩ := ih ht₁ hs₁ ho₁ hm₁ fun x hx => hn x (List.mem_cons_of_mem _ hx)
    refine ⟨s', hs', ?_⟩
    rw [ho', modifyJob_sortSpec_sortSpec]
    simp

set_option maxRecDepth 100000 in
/-- The job that is written by hand survives the small run. -/
theorem Runs.keeps_handTree : ∃ s',
    (⟨"o", "r", "x", .presubmit, smallPath "o-r-x-presubmits.yaml"⟩, s') ∈
      handTreeAfter.loaded (repoDir smallDir "o" "r") ∧
    lastNamed "b" (s'.jobs (.presubmits "o/r")) =
      some (modifyJob Job.sortSpec ({ name := "b" } : Presubmit)) := by
  have hs : (⟨"o", "r", "x", .presubmit, smallPath "o-r-x-presubmits.yaml"⟩, handJobs) ∈
      handTree.loaded (repoDir smallDir "o" "r") := by decide +kernel
  have ho : lastNamed "b" (handJobs.jobs (.presubmits "o/r")) =
      some ({ name := "b" } : Presubmit) := by decide +kernel
  have hn : ∀ generated ∈ [smallJobs Job.newlyGenerated],
      ¬generated.Generates "o" "r" (Grouping.presubmits "o/r").kind "b" := by decide +kernel
  exact (Runs.cons run_handTree (.nil _)).keeps linkFree_handTree isTarget_small hs ho rfl hn

end FileTree

end JobConfig
