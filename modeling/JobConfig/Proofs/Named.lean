import JobConfig.Proofs.KeyMap
import JobConfig.Proofs.StableSort
import JobConfig.Reconcile.Merge
import JobConfig.Reconcile.Prune
import JobConfig.Reconcile.Sort
import Mathlib.Data.List.Nodup

/-!
# Jobs by their names

What merging, pruning and sorting make of the last job of each name in a list. A list of jobs with
distinct names in ascending order is determined by these.
-/

namespace JobConfig

variable {J : Type} [JobLike J]

/-- The last job of a name. -/
def lastNamed (n : String) (jobs : List J) : Option J :=
  (jobs.filter fun j => nameOf j = n).getLast?

/-- No name occurs twice. -/
def DistinctNames (jobs : List J) : Prop :=
  (jobs.map nameOf).Nodup

instance (jobs : List J) : Decidable (DistinctNames jobs) := by
  unfold DistinctNames
  infer_instance

@[simp] theorem lastNamed_nil (n : String) : lastNamed n ([] : List J) = none := rfl

theorem lastNamed_mem {n : String} {jobs : List J} {j : J} (h : lastNamed n jobs = some j) :
    j ∈ jobs ∧ nameOf j = n := by
  simpa using List.mem_of_getLast? h

theorem lastNamed_eq_none_iff {n : String} {jobs : List J} :
    lastNamed n jobs = none ↔ n ∉ jobs.map nameOf := by
  simp [lastNamed]

theorem DistinctNames.eq {jobs : List J} (h : DistinctNames jobs) {j k : J} (hj : j ∈ jobs)
    (hk : k ∈ jobs) (hn : nameOf j = nameOf k) : j = k :=
  List.inj_on_of_nodup_map h hj hk hn

/-- Where names are distinct, every job is the last one of its name. -/
theorem DistinctNames.lastNamed_iff {jobs : List J} (h : DistinctNames jobs) {n : String} {j : J} :
    lastNamed n jobs = some j ↔ j ∈ jobs ∧ nameOf j = n := by
  refine ⟨lastNamed_mem, fun ⟨hj, hn⟩ => ?_⟩
  cases hl : lastNamed n jobs with
  | none =>
    rw [lastNamed_eq_none_iff] at hl
    exact absurd (List.mem_map.2 ⟨j, hj, hn⟩) hl
  | some k =>
    obtain ⟨hk, hkn⟩ := lastNamed_mem hl
    rw [h.eq hj hk (hn.trans hkn.symm)]

/-- Lists of distinct names in ascending order are the same if they have the same last jobs. -/
theorem ext_lastNamed {as bs : List J} (ha : Ascending nameOf as) (hb : Ascending nameOf bs)
    (hda : DistinctNames as) (hdb : DistinctNames bs)
    (h : ∀ n, lastNamed n as = lastNamed n bs) : as = bs := by
  have hp : as.Perm bs := by
    rw [List.perm_ext_iff_of_nodup (List.Nodup.of_map _ hda) (List.Nodup.of_map _ hdb)]
    intro j
    have hj : j ∈ as ↔ lastNamed (nameOf j) as = some j := by simp [hda.lastNamed_iff]
    have hj' : j ∈ bs ↔ lastNamed (nameOf j) bs = some j := by simp [hdb.lastNamed_iff]
    rw [hj, hj', h]
  rw [← sortBy_of_ascending ha, ← sortBy_of_ascending hb]
  exact sortBy_eq_of_perm hp fun j hj k hk => hda.eq hj hk

/-! ### Sorting -/

theorem nameOf_modifyJob {f : Job → Job} (h : ∀ b, (f b).name = b.name) (j : J) :
    nameOf (modifyJob f j) = nameOf j := by
  rw [nameOf, modifyJob, JobLike.toJob_withJob, h]
  rfl

theorem lastNamed_map {f : Job → Job} (h : ∀ b, (f b).name = b.name) (n : String)
    (jobs : List J) :
    lastNamed n (jobs.map (modifyJob f)) = (lastNamed n jobs).map (modifyJob f) := by
  have hc : ((fun j => decide (nameOf j = n)) ∘ modifyJob f : J → Bool) =
      fun j => decide (nameOf j = n) := by
    funext j
    simp [nameOf_modifyJob h]
  rw [lastNamed, List.filter_map, hc, List.getLast?_map, lastNamed]

theorem distinctNames_map {f : Job → Job} (h : ∀ b, (f b).name = b.name) {jobs : List J} :
    DistinctNames (jobs.map (modifyJob f)) ↔ DistinctNames jobs := by
  have hc : (nameOf ∘ modifyJob f : J → String) = nameOf := funext (nameOf_modifyJob h)
  rw [DistinctNames, List.map_map, hc, DistinctNames]

theorem ascending_map {f : Job → Job} (h : ∀ b, (f b).name = b.name) {jobs : List J} :
    Ascending nameOf (jobs.map (modifyJob f)) ↔ Ascending nameOf jobs := by
  simp only [Ascending, List.pairwise_map, nameOf_modifyJob h]

theorem Job.name_sortSpec (b : Job) : b.sortSpec.name = b.name := rfl

theorem lastNamed_sortJobs (n : String) (jobs : List J) :
    lastNamed n (sortJobs jobs) = (lastNamed n jobs).map (modifyJob Job.sortSpec) := by
  rw [sortJobs, lastNamed_map Job.name_sortSpec, lastNamed, filter_key_sortBy, lastNamed]

theorem distinctNames_sortJobs {jobs : List J} :
    DistinctNames (sortJobs jobs) ↔ DistinctNames jobs := by
  rw [sortJobs, distinctNames_map Job.name_sortSpec]
  exact ((sortBy_perm nameOf jobs).map nameOf).nodup_iff

theorem ascending_sortJobs (jobs : List J) : Ascending nameOf (sortJobs jobs) :=
  (ascending_map Job.name_sortSpec).2 (ascending_sortBy nameOf jobs)

theorem sortJobs_eq_nil {jobs : List J} : sortJobs jobs = [] ↔ jobs = [] := by
  rw [sortJobs, List.map_eq_nil_iff, ← List.length_eq_zero_iff,
    (sortBy_perm nameOf jobs).length_eq, List.length_eq_zero_iff]

theorem modifyJob_modifyJob (f g : Job → Job) (j : J) :
    modifyJob f (modifyJob g j) = modifyJob (f ∘ g) j := by
  simp only [modifyJob, JobLike.toJob_withJob, JobLike.withJob_withJob, Function.comp_apply]

theorem modifyJob_of_eq {f : Job → Job} {j : J} (h : f (JobLike.toJob j) = JobLike.toJob j) :
    modifyJob f j = j := by
  rw [modifyJob, h, JobLike.withJob_toJob]

theorem toJob_modifyJob (f : Job → Job) (j : J) :
    JobLike.toJob (modifyJob f j) = f (JobLike.toJob j) :=
  JobLike.toJob_withJob _ _

theorem Container.sort_sort (c : Container) : c.sort.sort = c.sort := by
  have hr : c.sort.runsJobRunner = c.runsJobRunner := rfl
  have ha : (if c.runsJobRunner then sortBy id c.sort.args else c.sort.args) = c.sort.args := by
    by_cases h : c.runsJobRunner
    · simp [Container.sort, h, sortBy_sortBy]
    · simp [Container.sort, h]
  rw [Container.sort, hr, ha]
  simp only [Container.sort, sortBy_sortBy]

theorem PodSpec.sort_sort (s : PodSpec) : s.sort.sort = s.sort := by
  have hc : sortBy Container.name ((sortBy Container.name s.containers).map Container.sort) =
      (sortBy Container.name s.containers).map Container.sort := by
    rw [sortBy_map Container.name Container.name Container.sort fun _ => rfl, sortBy_sortBy]
  have hs : Container.sort ∘ Container.sort = Container.sort := funext Container.sort_sort
  simp only [PodSpec.sort, sortBy_sortBy, hc, List.map_map, hs]

theorem Job.sortSpec_sortSpec (b : Job) : b.sortSpec.sortSpec = b.sortSpec := by
  have h : PodSpec.sort ∘ PodSpec.sort = PodSpec.sort := funext PodSpec.sort_sort
  simp [Job.sortSpec, h]

theorem modifyJob_sortSpec_sortSpec (j : J) :
    modifyJob Job.sortSpec (modifyJob Job.sortSpec j) = modifyJob Job.sortSpec j := by
  rw [modifyJob_modifyJob]
  exact congrArg (modifyJob · j) (funext Job.sortSpec_sortSpec)

/-- Sorted jobs stay as they are. -/
theorem sortJobs_sortJobs (jobs : List J) : sortJobs (sortJobs jobs) = sortJobs jobs := by
  rw [sortJobs, sortBy_of_ascending (ascending_sortJobs jobs), sortJobs, List.map_map]
  exact List.map_congr_left fun j _ => modifyJob_sortSpec_sortSpec j

/-! ### Pruning -/

theorem Job.name_finalize (b : Job) : b.finalize.name = b.name := by
  unfold Job.finalize
  split <;> rfl

theorem Job.marker?_finalize (b : Job) : b.finalize.marker? = b.marker?.map fun _ => generated := by
  unfold Job.finalize Job.isGenerated
  cases hm : b.marker? with
  | none => simp [hm]
  | some m =>
    simp [Job.marker?, KeyMap.get?_insert]

theorem Job.finalize_of_unmarked {b : Job} (h : b.marker? = none) : b.finalize = b := by
  simp [Job.finalize, Job.isGenerated, h]

theorem Job.isStale_iff {b : Job} :
    b.isStale = true ↔ ∃ m, b.marker? = some m ∧ m ≠ newlyGenerated := by
  unfold Job.isStale
  cases b.marker? <;> simp

theorem mem_pruneJobs {jobs : List J} {j : J} :
    j ∈ pruneJobs jobs ↔
      ∃ k ∈ jobs, (JobLike.toJob k).isStale = false ∧ modifyJob Job.finalize k = j := by
  simp [pruneJobs, and_assoc]

/-- If the last job of a name is not stale, it is the last one after pruning. -/
theorem lastNamed_pruneJobs {n : String} {jobs : List J} {j : J} (h : lastNamed n jobs = some j)
    (hj : (JobLike.toJob j).isStale = false) :
    lastNamed n (pruneJobs jobs) = some (modifyJob Job.finalize j) := by
  obtain ⟨js, hjs⟩ := List.getLast?_eq_some_iff.1 h
  rw [pruneJobs, lastNamed_map Job.name_finalize, lastNamed, List.filter_comm, hjs,
    List.filter_append]
  simp [hj]

theorem distinctNames_pruneJobs {jobs : List J} (h : DistinctNames jobs) :
    DistinctNames (pruneJobs jobs) :=
  (distinctNames_map Job.name_finalize).2 (h.sublist (List.filter_sublist.map nameOf))

/-- Where names are distinct, pruning decides on each job by itself. -/
theorem DistinctNames.lastNamed_pruneJobs {jobs : List J} (h : DistinctNames jobs) (n : String) :
    lastNamed n (pruneJobs jobs) = (lastNamed n jobs).bind fun j =>
      if (JobLike.toJob j).isStale then none else some (modifyJob Job.finalize j) := by
  cases hl : lastNamed n jobs with
  | none =>
    rw [Option.bind_none, lastNamed_eq_none_iff]
    rw [lastNamed_eq_none_iff] at hl
    intro hn
    obtain ⟨j, hj, rfl⟩ := List.mem_map.1 hn
    obtain ⟨k, hk, -, rfl⟩ := mem_pruneJobs.1 hj
    exact hl (List.mem_map.2 ⟨k, hk, (nameOf_modifyJob Job.name_finalize k).symm⟩)
  | some j =>
    by_cases hs : (JobLike.toJob j).isStale
    · rw [Option.bind_some, if_pos hs, lastNamed_eq_none_iff]
      intro hn
      obtain ⟨k', hk', rfl⟩ := List.mem_map.1 hn
      obtain ⟨k, hk, hks, rfl⟩ := mem_pruneJobs.1 hk'
      rw [nameOf_modifyJob Job.name_finalize] at hl
      obtain rfl := Option.some.inj (((h.lastNamed_iff).2 ⟨hk, rfl⟩).symm.trans hl)
      rw [hs] at hks
      contradiction
    · rw [Option.bind_some, if_neg hs]
      exact JobConfig.lastNamed_pruneJobs hl (by simpa using hs)

/-- Jobs without a marker are not pruned. -/
theorem pruneJobs_of_unmarked {jobs : List J}
    (h : ∀ j ∈ jobs, (JobLike.toJob j).marker? = none) : pruneJobs jobs = jobs := by
  have hf : jobs.filter (fun j => !(JobLike.toJob j).isStale) = jobs :=
    List.filter_eq_self.2 fun j hj => by simp [Job.isStale, h j hj]
  rw [pruneJobs, hf]
  exact (List.map_congr_left fun j hj =>
    modifyJob_of_eq (Job.finalize_of_unmarked (h j hj))).trans (List.map_id' jobs)

end JobConfig
