import JobConfig.Proofs.HandAuthored
import JobConfig.Proofs.Lists

/-!
# Jobs that are generated

After a run the jobs with a marker are those that the run generated: each is in one file of its
shard's name, in the grouping of the repository, and its marker is final. What earlier runs
generated is gone.
-/

namespace JobConfig

/-- The names of the marked jobs of a grouping in all files of a name. -/
def markedNames (loaded : List (Identity × JobSet)) (file : String) (g : Grouping) : List String :=
  (loaded.filter fun e => shardName e.1.file = file).flatMap fun e =>
    namesWith Job.IsMarked (e.2.jobs g)

/-- The names of the jobs of a grouping that are newly generated for a file. -/
def JobSet.newNames (s : JobSet) (org repo file : String) (g : Grouping) : List String :=
  namesWith Job.IsNew ((((s.shards org repo).get? file).getD ∅).jobs g)

/-- Whether the marked jobs among loaded ones are just those that a set generates: under each file
name and in each grouping the same names, each once, and no marked job in a grouping of another
repository or with a marker that is not final. -/
structure HoldsGenerated (loaded : List (Identity × JobSet)) (org repo : String)
    (generated : JobSet) : Prop where
  names : ∀ file g, (markedNames loaded file g).Perm (generated.newNames org repo file g)
  nodup : ∀ file g, (markedNames loaded file g).Nodup
  isOfRepo : ∀ e ∈ loaded, ∀ g, ∀ j ∈ e.2.jobs g, (JobLike.toJob j).IsMarked →
    g = Grouping.ofRepo org repo g.kind
  isFinal : ∀ e ∈ loaded, ∀ g, ∀ j ∈ e.2.jobs g, (JobLike.toJob j).IsMarked →
    (JobLike.toJob j).marker? = some Job.generated

theorem namesWith_isMarked_of_isEmpty {s : JobSet} (hs : s.Full) (h : s.isEmpty = true)
    (g : Grouping) : namesWith Job.IsMarked (s.jobs g) = [] := by
  rw [hs.isEmpty_iff.1 h g]
  rfl

namespace FileTree

variable {jobDir : Path} {org repo : String} {t t' : FileTree} {generated : JobSet}
  {scan : Scanner}

section

variable (hrun : Run scan jobDir org repo t generated t') (ht : t.LinkFree)
  (h : IsTarget jobDir org repo)

include hrun ht h in
/-- After a run the markers are final. -/
theorem Run.marker?_of_mem_loaded :
    ∀ e ∈ t'.loaded (repoDir jobDir org repo), ∀ g, ∀ j ∈ e.2.jobs g,
      (JobLike.toJob j).marker? = none ∨
        (JobLike.toJob j).marker? = some Job.generated := by
  intro e he g j hj
  obtain ⟨f, hf, -, -, -, hjobs⟩ := hrun.exists_planned ht h he
  obtain ⟨old, shard?, hset⟩ := exists_settle hf
  rw [← hjobs, hset] at hj
  exact marker?_settle hj rfl

variable (hold : ∀ e ∈ t.loaded (repoDir jobDir org repo), e.2.Every fun b => ¬b.IsNew)

include hold in
/-- A file that took no shard has no marked job. -/
theorem namesWith_of_isLeft {f : Planned}
    (hf : IsLeft generated org repo (t.found (repoDir jobDir org repo) scan) f) (g : Grouping) :
    namesWith Job.IsMarked (f.jobs.jobs g) = [] := by
  obtain ⟨e, he, rfl⟩ := hf
  have hperm := namesWith_isMarked_settle (generated.considered org repo) none
    (hold e (mem_found_iff_mem_loaded.1 he).2) JobSet.distinct_empty g
  simpa [namesWith] using hperm

variable (hd : ∀ shard ∈ (generated.shards org repo).values, shard.Distinct)

include hrun ht h in
/-- What is loaded of a name was planned under it. -/
theorem Run.exists_planned_of_name {file : String} {e : Identity × JobSet}
    (he : e ∈ (t'.loaded (repoDir jobDir org repo)).filter fun e => shardName e.1.file = file) :
    ∃ f ∈ t.plan jobDir org repo generated scan,
      shardName f.path = file ∧ Identity.ofJobFile? f.path = some e.1 ∧ f.jobs = e.2 := by
  obtain ⟨he, hn⟩ := List.mem_filter.1 he
  obtain ⟨f, hf, -, hfile, hi, hjobs⟩ := hrun.exists_planned ht h he
  rw [hfile, decide_eq_true_eq] at hn
  exact ⟨f, hf, hn, hi, hjobs⟩

include hrun ht h hold hd in
/-- After a run the marked jobs in the files of a name are those newly generated for it. -/
theorem Run.markedNames_perm (file : String) (g : Grouping) :
    (markedNames (t'.loaded (repoDir jobDir org repo)) file g).Perm
      (generated.newNames org repo file g) := by
  rw [markedNames, JobSet.newNames]
  cases hs : (generated.shards org repo).get? file with
  | none =>
    rw [List.flatMap_eq_nil_iff.2 fun e he => ?_]
    · simp [namesWith]
    · obtain ⟨f, hf, hn, -, hjobs⟩ := hrun.exists_planned_of_name ht h he
      rw [← hjobs]
      exact namesWith_of_isLeft hold (isLeft_of_get?_eq_none h.org h.repo hf (hn ▸ hs)) g
  | some s =>
    -- only the file that takes the shard has marked jobs
    have hsd := hd s (KeyMap.mem_values_iff.2 ⟨_, hs⟩)
    obtain ⟨f, hf, hn, -, ⟨old, holdnew, hjobs⟩, hothers⟩ := exists_taker_of_loaded h hold hs hsd
    obtain ⟨i, hi⟩ := hrun.ofJobFile? ht h hf
    have hfile : (i, f.jobs) ∈ (t'.loaded (repoDir jobDir org repo)).filter
        (fun e => shardName e.1.file = file) ∨ namesWith Job.IsMarked (f.jobs.jobs g) = [] := by
      cases hemp : f.jobs.isEmpty with
      | true => exact .inr (namesWith_isMarked_of_isEmpty (hjobs ▸ full_settle) hemp g)
      | false =>
        refine .inl (List.mem_filter.2 ⟨(hrun.mem_loaded ht h).2 ⟨f, hf, hemp, hi, rfl⟩, ?_⟩)
        rw [(Identity.file_of_ofJobFile? hi).1, hn, decide_eq_true_eq]
    rw [flatMap_eq_of_forall_ne (a := (i, f.jobs)) ((t'.nodup_loaded _).filter _) hfile
      fun e he hne => ?_]
    · rw [hjobs, Option.getD_some]
      exact namesWith_isMarked_settle _ (some s) holdnew hsd g
    · obtain ⟨f', hf', hn', hi', hjobs'⟩ := hrun.exists_planned_of_name ht h he
      rw [← hjobs']
      refine namesWith_of_isLeft hold (hothers f' hf' hn' ?_) g
      rintro rfl
      rw [hi, Option.some.injEq] at hi'
      exact hne (Prod.ext hi'.symm hjobs'.symm)

include hrun ht h hold hd in
/-- After one run the marked jobs are those that it generated. -/
theorem Run.holds_newNames :
    HoldsGenerated (t'.loaded (repoDir jobDir org repo)) org repo generated where
  names := hrun.markedNames_perm ht h hold hd
  nodup := by
    intro file g
    rw [(hrun.markedNames_perm ht h hold hd file g).nodup_iff, JobSet.newNames]
    cases hs : (generated.shards org repo).get? file with
    | none => simp [namesWith]
    | some s => exact (hd s (KeyMap.mem_values_iff.2 ⟨_, hs⟩) g).nodup_namesWith _
  isOfRepo := by
    intro e he g j hj hm
    have hmarked : nameOf j ∈ markedNames (t'.loaded (repoDir jobDir org repo))
        (shardName e.1.file) g :=
      List.mem_flatMap.2 ⟨e, List.mem_filter.2 ⟨he, by simp⟩,
        List.mem_map.2 ⟨j, List.mem_filter.2 ⟨hj, by simpa using hm⟩, rfl⟩⟩
    rw [(hrun.markedNames_perm ht h hold hd _ g).mem_iff, JobSet.newNames] at hmarked
    cases hs : (generated.shards org repo).get? (shardName e.1.file) with
    | none => simp [hs, namesWith] at hmarked
    | some s =>
      rw [hs, Option.getD_some] at hmarked
      obtain ⟨k, hk, -⟩ := List.mem_map.1 hmarked
      exact (isShard_of_get? hs).isOfRepo g (List.ne_nil_of_mem (List.mem_filter.1 hk).1)
  isFinal := by
    intro e he g j hj hm
    exact (hrun.marker?_of_mem_loaded ht h e he g j hj).resolve_left hm

end

/-- After any runs the marked jobs are those that the last run generated, if no job was newly
generated before the first one and the last one has distinct names in each shard. -/
theorem Runs.holdsGenerated {sets : List JobSet}
    (hruns : Runs jobDir org repo t (sets ++ [generated]) t') (ht : t.LinkFree)
    (h : IsTarget jobDir org repo)
    (hold : ∀ e ∈ t.loaded (repoDir jobDir org repo), e.2.Every fun b => ¬b.IsNew)
    (hd : ∀ shard ∈ (generated.shards org repo).values, shard.Distinct) :
    HoldsGenerated (t'.loaded (repoDir jobDir org repo)) org repo generated := by
  -- after any run but the last the markers are final, so that no job is newly generated
  induction sets generalizing t with
  | nil =>
    cases hruns with
    | cons hrun hrest =>
      cases hrest
      exact hrun.holds_newNames ht h hold hd
  | cons first sets ih =>
    cases hruns with
    | cons hrun hrest =>
      refine ih hrest (hrun.linkFree ht h) fun e he g j hj hnew => ?_
      rw [Job.IsNew] at hnew
      rcases hrun.marker?_of_mem_loaded ht h e he g j hj with hm | hm
      · rw [hm] at hnew
        cases hnew
      · rw [hm] at hnew
        exact absurd hnew (by decide)

set_option maxRecDepth 100000 in
/-- The small run leaves the job that it generates as the only marked one. -/
theorem Runs.holdsGenerated_handTree :
    HoldsGenerated (handTreeAfter.loaded (repoDir smallDir "o" "r")) "o" "r"
      (smallJobs Job.newlyGenerated) := by
  have hruns : Runs smallDir "o" "r" handTree ([] ++ [smallJobs Job.newlyGenerated])
      handTreeAfter := .cons run_handTree (.nil _)
  exact hruns.holdsGenerated linkFree_handTree isTarget_small (by decide +kernel)
    (by decide +kernel)

end FileTree

end JobConfig
