import JobConfig.Plan
import JobConfig.Proofs.Grouping

/-!
# Reconciling the jobs of a file

A file is settled when its jobs are merged with its shard, if it has one, and then pruned and
sorted. Jobs that are neither generated nor considered stay; the jobs with a marker are those newly
generated; and settling again with the same shard changes nothing.
-/

namespace JobConfig

/-- What a file with the jobs `old` shall hold. -/
def settle (considered : Considered) (old : JobSet) (shard? : Option JobSet) : JobSet :=
  (reconcile considered old shard?).prune.sort

/-- Whether a job was made by the present run of the generator. -/
def Job.IsNew (b : Job) : Prop :=
  b.marker? = some newlyGenerated

instance (b : Job) : Decidable b.IsNew := by
  unfold Job.IsNew
  infer_instance

namespace JobSet

/-- Whether all jobs of a set satisfy `P`. -/
def Every (s : JobSet) (P : Job → Prop) : Prop :=
  ∀ g, ∀ j ∈ s.jobs g, P (JobLike.toJob j)

/-- Whether the names of each grouping are distinct. -/
def Distinct (s : JobSet) : Prop :=
  ∀ g, DistinctNames (s.jobs g)

theorem every_empty {P : Job → Prop} : (∅ : JobSet).Every P := by
  intro g j hj
  rw [jobs_empty] at hj
  cases hj

theorem distinct_empty : (∅ : JobSet).Distinct := by
  intro g
  rw [jobs_empty]
  exact List.nodup_nil

end JobSet

/-- What is to be seen of all lists of a set can be seen of those that it has entries for. -/
theorem JobSet.forall_jobs_iff {s : JobSet} {Q : (g : Grouping) → List g.Record → Prop}
    (hnil : ∀ g, Q g []) : (∀ g, Q g (s.jobs g)) ↔
      (∀ e ∈ s.presubmits.entries, Q (.presubmits e.1) e.2) ∧
      (∀ e ∈ s.postsubmits.entries, Q (.postsubmits e.1) e.2) ∧ Q .periodics s.periodics := by
  constructor
  · intro h
    refine ⟨fun e he => ?_, fun e he => ?_, h .periodics⟩
    · simpa [jobs, KeyMap.mem_entries_iff.1 he] using h (.presubmits e.1)
    · simpa [jobs, KeyMap.mem_entries_iff.1 he] using h (.postsubmits e.1)
  · rintro ⟨hpre, hpost, hper⟩ g
    cases g with
    | presubmits repo =>
      rw [jobs]
      cases hg : s.presubmits.get? repo with
      | none => exact hnil _
      | some js => exact hpre _ (KeyMap.mem_entries_iff.2 hg)
    | postsubmits repo =>
      rw [jobs]
      cases hg : s.postsubmits.get? repo with
      | none => exact hnil _
      | some js => exact hpost _ (KeyMap.mem_entries_iff.2 hg)
    | periodics => exact hper

instance (s : JobSet) (P : Job → Prop) [DecidablePred P] : Decidable (s.Every P) :=
  decidable_of_iff _ (JobSet.forall_jobs_iff (s := s)
    (Q := fun _ js => ∀ j ∈ js, P (JobLike.toJob j)) (fun _ _ h => nomatch h)).symm

instance (s : JobSet) : Decidable s.Distinct :=
  decidable_of_iff _ (JobSet.forall_jobs_iff (s := s) (Q := fun _ js => DistinctNames js)
    (fun _ => List.nodup_nil)).symm

/-! ### List by list -/

section

variable {J : Type} [JobLike J] {merge : J → J → J} (renewal : IsRenewal merge)

theorem Job.IsNew.not_stale {b : Job} (h : b.IsNew) : b.isStale = false := by
  rw [← Bool.not_eq_true, Job.isStale_iff]
  rintro ⟨m, hm, hne⟩
  exact hne (Option.some.inj (hm.symm.trans h))

theorem Job.unmarked_of_not_stale {b : Job} (h : b.isStale = false) (hn : ¬b.IsNew) :
    b.marker? = none := by
  rw [← Bool.not_eq_true, Job.isStale_iff] at h
  cases hm : b.marker? with
  | none => rfl
  | some m => exact absurd ⟨m, hm, fun e => hn (hm.trans (congrArg some e))⟩ h

theorem Job.marker?_congr {a b : Job} (h : a.labels = b.labels) : a.marker? = b.marker? := by
  rw [Job.marker?, Job.marker?, h]

theorem Job.marker?_sortSpec (b : Job) : b.sortSpec.marker? = b.marker? := rfl

include renewal in
theorem IsRenewal.marker?_renew (o? : Option J) (j : J) :
    (JobLike.toJob (renew merge o? j)).marker? = (JobLike.toJob j).marker? := by
  cases o? with
  | none => rfl
  | some o => exact Job.marker?_congr (renewal.labels o j)

include renewal in
/-- Merging a generated job into what it has become changes nothing. -/
theorem IsRenewal.renew_settled (o? : Option J) (j : J) :
    merge (modifyJob Job.sortSpec (modifyJob Job.finalize (renew merge o? j))) j =
      renew merge o? j := by
  have hs : ∀ b : Job, b.sortSpec.maxConcurrency = b.maxConcurrency ∧
      b.sortSpec.cluster = b.cluster := fun _ => ⟨rfl, rfl⟩
  have hf : ∀ b : Job, b.finalize.maxConcurrency = b.maxConcurrency ∧
      b.finalize.cluster = b.cluster := by
    intro b
    unfold Job.finalize
    split <;> exact ⟨rfl, rfl⟩
  rw [renewal.congrOld _ hs, renewal.congrOld _ hf]
  exact renewal.renew_renew o? j

/-- The jobs of a grouping that is reconciled, settled. -/
def settleJobs (merge : J → J → J) (c : Names) (old new : List J) : List J :=
  sortJobs (pruneJobs (mergeJobs merge c old new))

include renewal in
theorem lastNamed_settleJobs (c : Names) (old new : List J) (n : String) :
    lastNamed n (settleJobs merge c old new) =
      ((mergedJob merge c n (lastNamed n old) (lastNamed n new)).bind fun j =>
        if (JobLike.toJob j).isStale then none
        else some (modifyJob Job.finalize j)).map (modifyJob Job.sortSpec) := by
  rw [settleJobs, lastNamed_sortJobs,
    (distinctNames_mergeJobs renewal.name c old new).lastNamed_pruneJobs,
    lastNamed_mergeJobs renewal.name]

include renewal in
theorem distinctNames_settleJobs (c : Names) (old new : List J) :
    DistinctNames (settleJobs merge c old new) :=
  distinctNames_sortJobs.2
    (distinctNames_pruneJobs (distinctNames_mergeJobs renewal.name c old new))

include renewal in
/-- Settling again with the same generated jobs changes nothing. -/
theorem settleJobs_settleJobs (c : Names) {old new : List J}
    (hnew : ∀ j ∈ new, (JobLike.toJob j).IsNew) (hold : ∀ j ∈ old, ¬(JobLike.toJob j).IsNew) :
    settleJobs merge c (settleJobs merge c old new) new = settleJobs merge c old new := by
  refine ext_lastNamed (ascending_sortJobs _) (ascending_sortJobs _)
    (distinctNames_settleJobs renewal c _ new) (distinctNames_settleJobs renewal c old new)
    fun n => ?_
  rw [lastNamed_settleJobs renewal, lastNamed_settleJobs renewal]
  unfold mergedJob
  cases hn : lastNamed n new with
  | some k =>
    -- the name is generated: the job on disk is what the generated one has become
    have hs : (JobLike.toJob (renew merge (lastNamed n old) k)).isStale = false :=
      Job.IsNew.not_stale
        ((renewal.marker?_renew _ k).trans (hnew k (lastNamed_mem hn).1))
    simp only [Option.bind_some, hs, Bool.false_eq_true, if_false, Option.map_some]
    have hr : renew merge (some (modifyJob Job.sortSpec (modifyJob Job.finalize
        (renew merge (lastNamed n old) k)))) k = renew merge (lastNamed n old) k :=
      renewal.renew_settled _ k
    rw [hr, hs]
    rfl
  | none =>
    by_cases hc : c.contains n
    · simp only [hc, if_true]
    · simp only [hc, Bool.false_eq_true, if_false]
      cases ho : lastNamed n old with
      | none => rfl
      | some o =>
        by_cases hs : (JobLike.toJob o).isStale
        · simp only [Option.bind_some, hs, if_true, Option.map_none, Option.bind_none]
        · -- a job without a marker: only its specification is sorted
          have hu : (JobLike.toJob o).marker? = none :=
            Job.unmarked_of_not_stale (by simpa using hs) (hold o (lastNamed_mem ho).1)
          have hu' : (JobLike.toJob (modifyJob Job.sortSpec o)).marker? = none := by
            rw [toJob_modifyJob, Job.marker?_sortSpec, hu]
          have hs' : (JobLike.toJob (modifyJob Job.sortSpec o)).isStale = false := by
            simp [Job.isStale, hu']
          simp only [Option.bind_some, hs, Bool.false_eq_true, if_false, Option.map_some, hs',
            modifyJob_of_eq (Job.finalize_of_unmarked hu),
            modifyJob_of_eq (Job.finalize_of_unmarked hu'), modifyJob_sortSpec_sortSpec]

include renewal in
/-- Jobs of distinct names are settled as if they were merged into no jobs. -/
theorem settleJobs_nil (c : Names) {new : List J} (hd : DistinctNames new) :
    settleJobs merge c [] new = sortJobs (pruneJobs new) := by
  refine ext_lastNamed (ascending_sortJobs _) (ascending_sortJobs _)
    (distinctNames_settleJobs renewal c [] new)
    (distinctNames_sortJobs.2 (distinctNames_pruneJobs hd)) fun n => ?_
  rw [lastNamed_settleJobs renewal, lastNamed_sortJobs, hd.lastNamed_pruneJobs]
  unfold mergedJob
  cases lastNamed n new with
  | some k => rfl
  | none => simp

theorem unmarked_sortJobs_pruneJobs {old : List J} (hold : ∀ j ∈ old, ¬(JobLike.toJob j).IsNew) :
    ∀ j ∈ sortJobs (pruneJobs old), (JobLike.toJob j).marker? = none := by
  intro j hj
  rw [sortJobs, List.mem_map] at hj
  obtain ⟨k, hk, rfl⟩ := hj
  obtain ⟨o, ho, hs, rfl⟩ := mem_pruneJobs.1 (mem_sortBy.1 hk)
  have := Job.unmarked_of_not_stale hs (hold o ho)
  rw [toJob_modifyJob, Job.marker?_sortSpec, toJob_modifyJob, Job.finalize_of_unmarked this, this]

/-- Without newly generated jobs, pruned and sorted jobs stay as they are. -/
theorem sortJobs_pruneJobs_again {old : List J} (hold : ∀ j ∈ old, ¬(JobLike.toJob j).IsNew) :
    sortJobs (pruneJobs (sortJobs (pruneJobs old))) = sortJobs (pruneJobs old) := by
  rw [pruneJobs_of_unmarked (unmarked_sortJobs_pruneJobs hold), sortJobs_sortJobs]

/-- The names of the jobs that satisfy `P`. -/
def namesWith (P : Job → Prop) [DecidablePred P] (jobs : List J) : List String :=
  (jobs.filter fun j => P (JobLike.toJob j)).map nameOf

theorem DistinctNames.nodup_namesWith {jobs : List J} (h : DistinctNames jobs) (P : Job → Prop)
    [DecidablePred P] : (namesWith P jobs).Nodup :=
  h.sublist (List.filter_sublist.map nameOf)

theorem DistinctNames.mem_namesWith {jobs : List J} (h : DistinctNames jobs) {P : Job → Prop}
    [DecidablePred P] {n : String} :
    n ∈ namesWith P jobs ↔ ∃ j, lastNamed n jobs = some j ∧ P (JobLike.toJob j) := by
  simp only [namesWith, List.mem_map, List.mem_filter, decide_eq_true_eq, h.lastNamed_iff]
  constructor
  · rintro ⟨j, ⟨hj, hP⟩, hn⟩
    exact ⟨j, ⟨hj, hn⟩, hP⟩
  · rintro ⟨j, ⟨hj, hn⟩, hP⟩
    exact ⟨j, ⟨hj, hP⟩, hn⟩

/-- Whether a job carries a marker. -/
def Job.IsMarked (b : Job) : Prop :=
  b.marker? ≠ none

instance (b : Job) : Decidable b.IsMarked := by
  unfold Job.IsMarked
  infer_instance

theorem Job.isMarked_settled {b : Job} : b.finalize.sortSpec.IsMarked ↔ b.IsMarked := by
  rw [Job.IsMarked, Job.marker?_sortSpec, Job.marker?_finalize, Job.IsMarked, ne_eq,
    Option.map_eq_none_iff]

include renewal in
/-- The marked jobs of a settled list are those newly generated for it. -/
theorem namesWith_isMarked_settleJobs (c : Names) {old new : List J}
    (hold : ∀ j ∈ old, ¬(JobLike.toJob j).IsNew) (hd : DistinctNames new) :
    (namesWith Job.IsMarked (settleJobs merge c old new)).Perm (namesWith Job.IsNew new) := by
  have hs := distinctNames_settleJobs renewal c old new
  rw [List.perm_ext_iff_of_nodup (hs.nodup_namesWith _) (hd.nodup_namesWith _)]
  intro n
  rw [hs.mem_namesWith, hd.mem_namesWith, lastNamed_settleJobs renewal]
  cases hn : lastNamed n new with
  | some k =>
    have hm : (JobLike.toJob (renew merge (lastNamed n old) k)).marker? =
        (JobLike.toJob k).marker? := renewal.marker?_renew _ k
    by_cases hk : (JobLike.toJob k).IsNew
    · have hns := Job.IsNew.not_stale (hm.trans hk)
      simp only [mergedJob, Option.bind_some, hns, Bool.false_eq_true, if_false, Option.map_some,
        Option.some.injEq, exists_eq_left', toJob_modifyJob, Job.isMarked_settled, hk, iff_true]
      rw [Job.IsMarked, hm, hk]
      simp
    · simp only [mergedJob, Option.bind_some, Option.some.injEq, exists_eq_left', hk, iff_false]
      rintro ⟨j, hj, hjm⟩
      split at hj
      · simp at hj
      · rename_i hns
        rw [Option.map_some, Option.some.injEq] at hj
        rw [← hj, toJob_modifyJob, toJob_modifyJob, Job.isMarked_settled] at hjm
        exact hjm (Job.unmarked_of_not_stale (by simpa using hns) fun h => hk (hm.symm.trans h))
  | none =>
    simp only [mergedJob, reduceCtorEq, false_and, exists_false, iff_false]
    rintro ⟨j, hj, hjm⟩
    obtain ⟨k, hk, rfl⟩ := Option.map_eq_some_iff.1 hj
    obtain ⟨o, ho, hok⟩ := Option.bind_eq_some_iff.1 hk
    split at ho
    · simp at ho
    split at hok
    · simp at hok
    · rename_i hns
      obtain rfl := Option.some.inj hok
      rw [toJob_modifyJob, toJob_modifyJob, Job.isMarked_settled] at hjm
      exact hjm (Job.unmarked_of_not_stale (by simpa using hns) (hold o (lastNamed_mem ho).1))

end

/-! ### Set by set -/

section

variable {considered : Considered} {old : JobSet} {shard? : Option JobSet}

theorem JobSet.lists_of_isEmpty {s : JobSet} (h : s.isEmpty = true) (g : Grouping) :
    s.lists g = false := by
  simp only [JobSet.isEmpty, KeyMap.isEmpty, Bool.and_eq_true, List.isEmpty_iff] at h
  obtain ⟨⟨hpre, hpost⟩, hper⟩ := h
  cases g with
  | presubmits repo => simp [JobSet.lists, KeyMap.contains, KeyMap.get?, hpre]
  | postsubmits repo => simp [JobSet.lists, KeyMap.contains, KeyMap.get?, hpost]
  | periodics => simp [JobSet.lists, hper]

theorem jobs_reconcile (considered : Considered) (old : JobSet) (shard? : Option JobSet)
    (g : Grouping) : (reconcile considered old shard?).jobs g =
      if (shard?.getD ∅).lists g then
        mergeJobs g.merge (considered.names g.kind) (old.jobs g) ((shard?.getD ∅).jobs g)
      else old.jobs g := by
  have he : (∅ : JobSet).lists g = false := JobSet.lists_of_isEmpty rfl g
  cases shard? with
  | none => simp [reconcile, he]
  | some new =>
    simp only [reconcile, Option.getD_some]
    by_cases hn : new.isEmpty
    · rw [if_pos hn, JobSet.lists_of_isEmpty hn]
      simp
    · rw [if_neg hn, JobSet.jobs_merge]

theorem jobs_settle (considered : Considered) (old : JobSet) (shard? : Option JobSet)
    (g : Grouping) : (settle considered old shard?).jobs g =
      if (shard?.getD ∅).lists g then
        settleJobs g.merge (considered.names g.kind) (old.jobs g) ((shard?.getD ∅).jobs g)
      else sortJobs (pruneJobs (old.jobs g)) := by
  rw [settle, JobSet.jobs_sort, JobSet.jobs_prune, jobs_reconcile]
  split <;> rfl

theorem full_settle : (settle considered old shard?).Full :=
  (JobSet.full_prune _).sort

/-- Settling again with the same shard changes nothing. -/
theorem settle_settle (hnew : (shard?.getD ∅).Every Job.IsNew)
    (hold : old.Every fun b => ¬b.IsNew) :
    settle considered (settle considered old shard?) shard? = settle considered old shard? := by
  refine full_settle.ext full_settle fun g => ?_
  rw [jobs_settle, jobs_settle]
  by_cases hg : (shard?.getD ∅).lists g
  · simp only [hg, if_true]
    exact settleJobs_settleJobs g.isRenewal_merge _ (hnew g) (hold g)
  · simp only [hg]
    exact sortJobs_pruneJobs_again (hold g)

/-- A shard of distinct names is settled as if it were merged into no jobs. -/
theorem settle_empty {new : JobSet} (hd : new.Distinct) :
    settle considered ∅ (some new) = new.prune.sort := by
  refine full_settle.ext (JobSet.full_prune _).sort fun g => ?_
  rw [jobs_settle, JobSet.jobs_sort, JobSet.jobs_prune, Option.getD_some, JobSet.jobs_empty]
  by_cases hg : new.lists g
  · rw [if_pos hg, settleJobs_nil g.isRenewal_merge _ (hd g)]
  · rw [if_neg hg, JobSet.jobs_eq_nil_of_lists (by simpa using hg)]

/-- The last job of a name stays, but for the order in its specification, if it has no marker and
the name is neither considered nor generated. -/
theorem lastNamed_settle {g : Grouping} {n : String} {o : g.Record}
    (hn : lastNamed n (old.jobs g) = some o) (ho : (JobLike.toJob o).marker? = none)
    (hc : (considered.names g.kind).contains n = false)
    (hs : n ∉ ((shard?.getD ∅).jobs g).map nameOf) :
    lastNamed n ((settle considered old shard?).jobs g) = some (modifyJob Job.sortSpec o) := by
  have hstale : (JobLike.toJob o).isStale = false := by simp [Job.isStale, ho]
  have hf : modifyJob Job.finalize o = o := modifyJob_of_eq (Job.finalize_of_unmarked ho)
  rw [jobs_settle]
  split
  · rw [lastNamed_settleJobs g.isRenewal_merge, hn, lastNamed_eq_none_iff.2 hs]
    simp [mergedJob, hc, hstale, hf]
  · rw [lastNamed_sortJobs, lastNamed_pruneJobs hn hstale, hf, Option.map_some]

/-- The marked jobs of a settled file are those newly generated in its shard. -/
theorem namesWith_isMarked_settle (considered : Considered) (shard? : Option JobSet)
    (hold : old.Every fun b => ¬b.IsNew) (hd : (shard?.getD ∅).Distinct) (g : Grouping) :
    (namesWith Job.IsMarked ((settle considered old shard?).jobs g)).Perm
      (namesWith Job.IsNew ((shard?.getD ∅).jobs g)) := by
  rw [jobs_settle]
  by_cases hg : (shard?.getD ∅).lists g
  · rw [if_pos hg]
    exact namesWith_isMarked_settleJobs g.isRenewal_merge _ (hold g) (hd g)
  · have hu := unmarked_sortJobs_pruneJobs (hold g)
    have he : namesWith Job.IsMarked (sortJobs (pruneJobs (old.jobs g))) = [] := by
      rw [namesWith, List.map_eq_nil_iff, List.filter_eq_nil_iff]
      intro j hj
      simp [Job.IsMarked, hu j hj]
    rw [if_neg hg, he, JobSet.jobs_eq_nil_of_lists (by simpa using hg)]
    exact .refl _

/-- A settled job with a marker has been made final. -/
theorem marker?_settle {b : Job} {g : Grouping} {j : g.Record}
    (hj : j ∈ (settle considered old shard?).jobs g) (hb : JobLike.toJob j = b) :
    b.marker? = none ∨ b.marker? = some Job.generated := by
  rw [settle, JobSet.jobs_sort, JobSet.jobs_prune, sortJobs, List.mem_map] at hj
  obtain ⟨k, hk, rfl⟩ := hj
  obtain ⟨o, -, -, rfl⟩ := mem_pruneJobs.1 (mem_sortBy.1 hk)
  rw [toJob_modifyJob, toJob_modifyJob] at hb
  rw [← hb, Job.marker?_sortSpec, Job.marker?_finalize]
  cases (JobLike.toJob o).marker? with
  | none => exact .inl rfl
  | some m => exact .inr rfl

end

end JobConfig
