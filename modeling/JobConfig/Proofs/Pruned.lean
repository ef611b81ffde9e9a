import JobConfig.Proofs.Reconcile

/-!
# What pruning leaves

Pruning looks at each job by itself, so it can be done before or after sets are appended and sorted.
A second time it drops what was newly generated the first time.
-/

namespace JobConfig

/-! ### List by list -/

section

variable {J : Type} [JobLike J]

/-- What is left of a job: all of one without a marker, and a newly generated one whose marker is
made final. -/
def pruned? (j : J) : Option J :=
  match (JobLike.toJob j).marker? with
  | none => some j
  | some m =>
    if m = Job.newlyGenerated then
      some (modifyJob (fun b =>
        { b with labels := b.labels.insert Job.markerLabel Job.generated }) j)
    else none

theorem pruned?_eq (j : J) : pruned? j =
    if (JobLike.toJob j).isStale then none else some (modifyJob Job.finalize j) := by
  unfold pruned?
  cases hm : (JobLike.toJob j).marker? with
  | none =>
    have hstale : (JobLike.toJob j).isStale = false := by simp [Job.isStale, hm]
    simp only [hstale, modifyJob_of_eq (Job.finalize_of_unmarked hm)]
    rfl
  | some m =>
    by_cases hnew : m = Job.newlyGenerated
    · have hgenerated : (JobLike.toJob j).isGenerated = true := by simp [Job.isGenerated, hm]
      simp only [Job.isStale, hm, hnew, bne_self_eq_false, modifyJob, Job.finalize, hgenerated]
      rfl
    · simp [Job.isStale, hm, hnew]

theorem pruneJobs_eq_filterMap (jobs : List J) : pruneJobs jobs = jobs.filterMap pruned? := by
  rw [pruneJobs, ← List.filterMap_eq_map, List.filterMap_filter]
  refine List.filterMap_congr fun j _ => ?_
  rw [pruned?_eq]
  cases (JobLike.toJob j).isStale <;> rfl

theorem pruneJobs_append (as bs : List J) :
    pruneJobs (as ++ bs) = pruneJobs as ++ pruneJobs bs := by
  rw [pruneJobs, List.filter_append, List.map_append, pruneJobs, pruneJobs]

/-- What is left a second time has not had a marker the first time. -/
theorem pruned?_pruned? (j : J) : (pruned? j).bind pruned? =
    if (JobLike.toJob j).marker? = none then some j else none := by
  cases hm : (JobLike.toJob j).marker? with
  | none => simp [pruned?, hm]
  | some m =>
    rw [if_neg (Option.some_ne_none m), Option.bind_eq_none_iff]
    intro k hk
    simp only [pruned?, hm, Option.ite_none_right_eq_some] at hk
    obtain ⟨-, hk⟩ := hk
    cases hk
    -- the marker has been made final
    have hmarker : Job.generated ≠ Job.newlyGenerated := by decide
    simp [pruned?, toJob_modifyJob, Job.marker?, KeyMap.get?_insert, hmarker]

theorem pruneJobs_pruneJobs (jobs : List J) :
    pruneJobs (pruneJobs jobs) = jobs.filter fun j => (JobLike.toJob j).marker? = none := by
  rw [pruneJobs_eq_filterMap, pruneJobs_eq_filterMap, List.filterMap_filterMap,
    ← List.filterMap_eq_filter]
  refine List.filterMap_congr fun j _ => ?_
  rw [pruned?_pruned?, Option.guard]
  simp only [decide_eq_true_eq]

theorem Job.sortSpec_finalize (b : Job) : b.sortSpec.finalize = b.finalize.sortSpec := by
  have h : b.sortSpec.isGenerated = b.isGenerated := rfl
  rw [finalize, finalize, h]
  split <;> rfl

/-- Jobs can be sorted before they are pruned or after it. -/
theorem pruneJobs_sortJobs (jobs : List J) :
    pruneJobs (sortJobs jobs) = sortJobs (pruneJobs jobs) := by
  have hstale : ((fun j => !(JobLike.toJob j).isStale) ∘ modifyJob Job.sortSpec : J → Bool) =
      fun j => !(JobLike.toJob j).isStale := by
    funext j
    rw [Function.comp_apply, toJob_modifyJob]
    rfl
  have hcomm : (modifyJob Job.finalize ∘ modifyJob Job.sortSpec : J → J) =
      modifyJob Job.sortSpec ∘ modifyJob Job.finalize := by
    funext j
    rw [Function.comp_apply, Function.comp_apply, modifyJob_modifyJob, modifyJob_modifyJob]
    exact congrArg (modifyJob · j) (funext Job.sortSpec_finalize)
  rw [pruneJobs, sortJobs, List.filter_map, hstale, filter_sortBy, List.map_map, hcomm, sortJobs,
    pruneJobs, sortBy_map nameOf nameOf _ (nameOf_modifyJob Job.name_finalize), List.map_map]

end

/-! ### Set by set -/

namespace JobSet

theorem groupedCount_eq_zero_iff {J : Type} {m : KeyMap String (List J)} :
    groupedCount m = 0 ↔ ∀ k, (m.get? k).getD [] = [] := by
  rw [groupedCount, List.length_eq_zero_iff, List.flatten_eq_nil_iff]
  constructor
  · intro h k
    cases hk : m.get? k with
    | none => rfl
    | some js => exact h js (KeyMap.mem_values_iff.2 ⟨k, hk⟩)
  · intro h js hjs
    obtain ⟨k, hk⟩ := KeyMap.mem_values_iff.1 hjs
    simpa [hk] using h k

theorem count_eq_zero_iff {s : JobSet} : s.count = 0 ↔ ∀ g, s.jobs g = [] := by
  simp only [count, Nat.add_eq_zero_iff, groupedCount_eq_zero_iff, List.length_eq_zero_iff]
  constructor
  · rintro ⟨⟨hpre, hpost⟩, hper⟩ g
    cases g with
    | presubmits repo => exact hpre repo
    | postsubmits repo => exact hpost repo
    | periodics => exact hper
  · intro h
    exact ⟨⟨fun repo => h (.presubmits repo), fun repo => h (.postsubmits repo)⟩, h .periodics⟩

theorem prune_append (s t : JobSet) : (s.append t).prune = s.prune.append t.prune := by
  refine (full_prune _).ext ((full_prune s).append (full_prune t)) fun g => ?_
  rw [jobs_prune, jobs_append, jobs_append, jobs_prune, jobs_prune, pruneJobs_append]

theorem prune_sort (s : JobSet) : s.sort.prune = s.prune.sort := by
  refine (full_prune _).ext (full_prune s).sort fun g => ?_
  rw [jobs_prune, jobs_sort, jobs_sort, jobs_prune, pruneJobs_sortJobs]

/-- Pruning decides on each job by itself, and leaves no grouping without jobs. Twice pruned, a set
has the jobs that had no marker. Pruning goes together with appending and sorting. -/
theorem prune_spec (s : JobSet) :
    (∀ g, s.prune.jobs g = (s.jobs g).filterMap pruned?) ∧ s.prune.Full ∧
    (s.prune.isEmpty = true ↔ s.prune.count = 0) ∧
    (∀ g, s.prune.prune.jobs g =
      (s.jobs g).filter fun j => (JobLike.toJob j).marker? = none) ∧
    (∀ t : JobSet, (s.append t).prune = s.prune.append t.prune) ∧ s.sort.prune = s.prune.sort := by
  refine ⟨fun g => ?_, full_prune s, ?_, fun g => ?_, prune_append s, prune_sort s⟩
  · rw [jobs_prune, pruneJobs_eq_filterMap]
  · rw [(full_prune s).isEmpty_iff, count_eq_zero_iff]
  · rw [jobs_prune, jobs_prune, pruneJobs_pruneJobs]

end JobSet

end JobConfig
