import Mathlib.Data.List.Induction
import JobConfig.Proofs.Reconcile

/-!
# Hand tuning that is left after many runs

A job on disk that is generated run after run is merged with each generated job in turn, and one
run's job is the next one's old job. In the end all its fields are those of the last generated job
but for the ones that are tuned by hand: these are still those of the job on disk, or those of the
last generated job that had a say in them, and the cluster is the first one that was ever named.
-/

namespace JobConfig

/-- The value of the last element that satisfies `p`, or another one if there is none. -/
def lastWhere {α β : Type} (p : α → Prop) [DecidablePred p] (value : α → β) (other : β)
    (as : List α) : β :=
  ((as.filter p).getLast?.map value).getD other

theorem lastWhere_concat {α β : Type} (p : α → Prop) [DecidablePred p] (value : α → β) (other : β)
    (as : List α) (a : α) :
    lastWhere p value other (as ++ [a]) =
      if p a then value a else lastWhere p value other as := by
  rw [lastWhere, List.filter_append, List.filter_singleton]
  by_cases hp : p a <;> simp [hp, lastWhere]

/-- The first cluster that is named, if one is. -/
def firstCluster (jobs : List Job) : String :=
  ((jobs.map (·.cluster)).find? (· ≠ "")).getD ""

theorem firstCluster_concat (jobs : List Job) (b : Job) :
    firstCluster (jobs ++ [b]) =
      if firstCluster jobs = "" then b.cluster else firstCluster jobs := by
  rw [firstCluster, List.map_append, List.find?_append, List.map_singleton, List.find?_singleton]
  unfold firstCluster
  cases h : (jobs.map (·.cluster)).find? (· ≠ "") with
  | none => by_cases hb : b.cluster = "" <;> simp [hb]
  | some c =>
    have hc : c ≠ "" := by simpa using List.find?_some h
    simp [hc]

/-- What `last` is left with of the hand tuning on `o`, when it is the last one of the generated
jobs `news`. -/
def Presubmit.tuned (o : Presubmit) (news : List Presubmit) (last : Presubmit) : Presubmit :=
  { last with
    labels := last.labels.insert Job.markerLabel Job.generated
    spec := last.spec.map PodSpec.sort
    maxConcurrency := o.maxConcurrency
    cluster := firstCluster (o.toJob :: news.map (·.toJob))
    optional := o.optional
    skipReport := o.skipReport
    runIfChanged := lastWhere (·.runIfChanged ≠ "") (·.runIfChanged) o.runIfChanged news
    skipIfOnlyChanged :=
      lastWhere (·.skipIfOnlyChanged ≠ "") (·.skipIfOnlyChanged) o.skipIfOnlyChanged news
    alwaysRun :=
      lastWhere (fun j => ¬(j.runIfChanged = "" ∧ j.skipIfOnlyChanged = "")) (·.alwaysRun)
        o.alwaysRun news }

@[inherit_doc Presubmit.tuned]
def Postsubmit.tuned (o : Postsubmit) (news : List Postsubmit) (last : Postsubmit) : Postsubmit :=
  { last with
    labels := last.labels.insert Job.markerLabel Job.generated
    spec := last.spec.map PodSpec.sort
    maxConcurrency :=
      lastWhere (·.labels.contains Job.promotionLabel) (·.maxConcurrency) o.maxConcurrency news
    cluster := firstCluster (o.toJob :: news.map (·.toJob)) }

@[inherit_doc Presubmit.tuned]
def Periodic.tuned (o : Periodic) (news : List Periodic) (last : Periodic) : Periodic :=
  { last with
    labels := last.labels.insert Job.markerLabel Job.generated
    spec := last.spec.map PodSpec.sort
    maxConcurrency := o.maxConcurrency
    cluster := firstCluster (o.toJob :: news.map (·.toJob))
    reporterConfig := o.reporterConfig }

@[inherit_doc Presubmit.tuned]
def Grouping.tuned : (g : Grouping) → g.Record → List g.Record → g.Record → g.Record
  | .presubmits _ => Presubmit.tuned
  | .postsubmits _ => Postsubmit.tuned
  | .periodics => Periodic.tuned

/-! ### Regenerating a job -/

section

variable {J : Type} [JobLike J]

/-- What becomes of a job on disk when a job of its name is generated. -/
def regenerate (merge : J → J → J) (old new : J) : J :=
  modifyJob Job.sortSpec (modifyJob Job.finalize (merge old new))

/-- What becomes of a job on disk when jobs of its name are generated one after the other. -/
def regenerated (merge : J → J → J) (old : J) (news : List J) : J :=
  news.foldl (regenerate merge) old

theorem regenerated_concat (merge : J → J → J) (old : J) (news : List J) (n : J) :
    regenerated merge old (news ++ [n]) = regenerate merge (regenerated merge old news) n :=
  List.foldl_concat _ _ _ _

variable {merge : J → J → J} (renewal : IsRenewal merge)

include renewal

/-- A settled list has the regenerated job in place of the one on disk. -/
theorem lastNamed_settleJobs_of_isNew {c : Names} {old new : List J} {n : String} {o j : J}
    (ho : lastNamed n old = some o) (hj : lastNamed n new = some j)
    (hnew : (JobLike.toJob j).IsNew) :
    lastNamed n (settleJobs merge c old new) = some (regenerate merge o j) := by
  have hstale : (JobLike.toJob (merge o j)).isStale = false :=
    Job.IsNew.not_stale ((Job.marker?_congr (renewal.labels o j)).trans hnew)
  rw [lastNamed_settleJobs renewal, ho, hj]
  simp [mergedJob, renew, hstale, regenerate]

end

/-- A file that is settled has the regenerated job in place of the one that it had. -/
theorem lastNamed_settle_of_isNew (considered : Considered) {old new : JobSet} {g : Grouping}
    {n : String} {o j : g.Record} (ho : lastNamed n (old.jobs g) = some o)
    (hj : lastNamed n (new.jobs g) = some j) (hnew : (JobLike.toJob j).IsNew) :
    lastNamed n ((settle considered old (some new)).jobs g) = some (regenerate g.merge o j) := by
  have hl : new.lists g = true := by
    rw [← Bool.not_eq_false]
    intro hl
    rw [JobSet.jobs_eq_nil_of_lists hl] at hj
    cases hj
  rw [jobs_settle, Option.getD_some, if_pos hl]
  exact lastNamed_settleJobs_of_isNew g.isRenewal_merge ho hj hnew

/-- A file that is settled time and again has the job that was regenerated as often, whatever else
it has and whatever else is generated. -/
theorem lastNamed_foldl_settle {g : Grouping} {n : String} (rounds : List (Considered × JobSet))
    {news : List g.Record} {file : JobSet} {o : g.Record}
    (ho : lastNamed n (file.jobs g) = some o)
    (hnews : rounds.map (fun r => lastNamed n (r.2.jobs g)) = news.map some)
    (hnew : ∀ j ∈ news, (JobLike.toJob j).IsNew) :
    lastNamed n ((rounds.foldl (fun s r => settle r.1 s (some r.2)) file).jobs g) =
      some (regenerated g.merge o news) := by
  induction rounds generalizing file o news with
  | nil =>
    obtain rfl : news = [] := List.map_eq_nil_iff.1 hnews.symm
    exact ho
  | cons r rounds ih =>
    cases news with
    | nil => cases hnews
    | cons j news =>
      obtain ⟨hj, hnews⟩ := List.cons.inj hnews
      obtain ⟨hnewj, hnew⟩ := List.forall_mem_cons.1 hnew
      have ho' := lastNamed_settle_of_isNew r.1 ho hj hnewj
      exact (ih ho' hnews hnew :)

/-! ### The fields of a regenerated job -/

section

variable {J γ : Type} [JobLike J]

theorem Job.finalize_of_isNew {b : Job} (h : b.IsNew) :
    b.finalize = { b with labels := b.labels.insert markerLabel generated } := by
  have hg : b.isGenerated = true := by rw [isGenerated, h, Option.isSome_some]
  rw [finalize, if_pos hg]

/-- After the merge, a generated job has its marker made final and its specification sorted. -/
theorem regenerate_of_isNew {merge : J → J → J} (renewal : IsRenewal merge) (o : J) {n : J}
    (hn : (JobLike.toJob n).IsNew) :
    regenerate merge o n = modifyJob (fun b =>
      { b with
        labels := b.labels.insert Job.markerLabel Job.generated
        spec := b.spec.map PodSpec.sort }) (merge o n) := by
  have hm : (JobLike.toJob (merge o n)).IsNew := (Job.marker?_congr (renewal.labels o n)).trans hn
  rw [regenerate, modifyJob, modifyJob, JobLike.toJob_withJob, JobLike.withJob_withJob,
    Job.finalize_of_isNew hm]
  rfl

variable (merge : J → J → J)

theorem toJob_regenerate (a b : J) :
    JobLike.toJob (regenerate merge a b) = (JobLike.toJob (merge a b)).finalize.sortSpec := by
  rw [regenerate, toJob_modifyJob, toJob_modifyJob]

theorem maxConcurrency_regenerate (a b : J) :
    (JobLike.toJob (regenerate merge a b)).maxConcurrency =
      (JobLike.toJob (merge a b)).maxConcurrency := by
  rw [toJob_regenerate, Job.finalize]
  split <;> rfl

theorem cluster_regenerate (a b : J) :
    (JobLike.toJob (regenerate merge a b)).cluster = (JobLike.toJob (merge a b)).cluster := by
  rw [toJob_regenerate, Job.finalize]
  split <;> rfl

/-- A field that every generated job leaves alone. -/
theorem regenerated_kept (field : J → γ) (h : ∀ a b, field (regenerate merge a b) = field a)
    (o : J) (news : List J) : field (regenerated merge o news) = field o := by
  induction news using List.reverseRecOn with
  | nil => rfl
  | append_singleton news n ih => rw [regenerated_concat, h, ih]

/-- A field that only some generated jobs set. -/
theorem regenerated_lastWhere (field : J → γ) (p : J → Prop) [DecidablePred p]
    (h : ∀ a b, field (regenerate merge a b) = if p b then field b else field a) (o : J)
    (news : List J) : field (regenerated merge o news) = lastWhere p field (field o) news := by
  induction news using List.reverseRecOn with
  | nil => rfl
  | append_singleton news n ih => rw [regenerated_concat, h, ih, lastWhere_concat]

theorem cluster_regenerated
    (h : ∀ a b, (JobLike.toJob (merge a b)).cluster =
      keptCluster (JobLike.toJob a) (JobLike.toJob b)) (o : J) (news : List J) :
    (JobLike.toJob (regenerated merge o news)).cluster =
      firstCluster (JobLike.toJob o :: news.map JobLike.toJob) := by
  induction news using List.reverseRecOn with
  | nil =>
    have ho := firstCluster_concat [] (JobLike.toJob o)
    exact ho.symm
  | append_singleton news n ih =>
    rw [regenerated_concat, cluster_regenerate, h, keptCluster, ih, List.map_append,
      List.map_singleton, ← List.cons_append, firstCluster_concat]

end

theorem Presubmit.regenerated_tuned (o : Presubmit) (news : List Presubmit) {n : Presubmit}
    (hn : n.IsNew) : regenerated merge o (news ++ [n]) = tuned o (news ++ [n]) n := by
  have hmax := regenerated_kept merge (·.maxConcurrency) (maxConcurrency_regenerate merge) o
    (news ++ [n])
  have hopt := regenerated_kept merge Presubmit.optional (fun _ _ => rfl) o (news ++ [n])
  have hreport := regenerated_kept merge Presubmit.skipReport (fun _ _ => rfl) o (news ++ [n])
  have hrun := regenerated_lastWhere merge Presubmit.runIfChanged (·.runIfChanged ≠ "")
    (fun _ _ => (ite_not _ _ _).symm) o (news ++ [n])
  have hskip := regenerated_lastWhere merge Presubmit.skipIfOnlyChanged (·.skipIfOnlyChanged ≠ "")
    (fun _ _ => (ite_not _ _ _).symm) o (news ++ [n])
  have halways := regenerated_lastWhere merge Presubmit.alwaysRun
    (fun j => ¬(j.runIfChanged = "" ∧ j.skipIfOnlyChanged = ""))
    (fun _ _ => (ite_not _ _ _).symm) o (news ++ [n])
  have hcluster : _ = firstCluster (o.toJob :: (news ++ [n]).map (·.toJob)) :=
    cluster_regenerated merge (fun _ _ => rfl) o (news ++ [n])
  rw [tuned, ← hmax, ← hopt, ← hreport, ← hrun, ← hskip, ← halways, ← hcluster, regenerated_concat,
    regenerate_of_isNew isRenewal_merge _ hn]
  rfl

theorem Postsubmit.regenerated_tuned (o : Postsubmit) (news : List Postsubmit) {n : Postsubmit}
    (hn : n.IsNew) :
    regenerated merge o (news ++ [n]) = tuned o (news ++ [n]) n := by
  have hmax := regenerated_lastWhere merge (·.maxConcurrency)
    (·.labels.contains Job.promotionLabel) (maxConcurrency_regenerate merge) o (news ++ [n])
  have hcluster : _ = firstCluster (o.toJob :: (news ++ [n]).map (·.toJob)) :=
    cluster_regenerated merge (fun _ _ => rfl) o (news ++ [n])
  rw [tuned, ← hmax, ← hcluster, regenerated_concat, regenerate_of_isNew isRenewal_merge _ hn]
  rfl

theorem Periodic.regenerated_tuned (o : Periodic) (news : List Periodic) {n : Periodic}
    (hn : n.IsNew) : regenerated merge o (news ++ [n]) = tuned o (news ++ [n]) n := by
  have hmax := regenerated_kept merge (·.maxConcurrency) (maxConcurrency_regenerate merge) o
    (news ++ [n])
  have hreport := regenerated_kept merge Periodic.reporterConfig (fun _ _ => rfl) o (news ++ [n])
  have hcluster : _ = firstCluster (o.toJob :: (news ++ [n]).map (·.toJob)) :=
    cluster_regenerated merge (fun _ _ => rfl) o (news ++ [n])
  rw [tuned, ← hmax, ← hreport, ← hcluster, regenerated_concat,
    regenerate_of_isNew isRenewal_merge _ hn]
  rfl

/-- However often a job is generated anew, it is the last generated job with the hand tuning that is
left; and so is the job of that name in a file that is settled in as many runs. -/
theorem regenerated_eq_tuned (g : Grouping) (o : g.Record) (news : List g.Record) {last : g.Record}
    (hnew : ∀ j ∈ news ++ [last], (JobLike.toJob j).IsNew) :
    regenerated g.merge o (news ++ [last]) = g.tuned o (news ++ [last]) last ∧
      ∀ (n : String) (file : JobSet) (rounds : List (Considered × JobSet)),
        lastNamed n (file.jobs g) = some o →
        rounds.map (fun r => lastNamed n (r.2.jobs g)) = (news ++ [last]).map some →
        lastNamed n ((rounds.foldl (fun s r => settle r.1 s (some r.2)) file).jobs g) =
          some (g.tuned o (news ++ [last]) last) := by
  have hlast : (JobLike.toJob last).IsNew := hnew last (List.mem_append_right _ (.head _))
  have h : regenerated g.merge o (news ++ [last]) = g.tuned o (news ++ [last]) last := by
    cases g with
    | presubmits _ => exact Presubmit.regenerated_tuned o news hlast
    | postsubmits _ => exact Postsubmit.regenerated_tuned o news hlast
    | periodics => exact Periodic.regenerated_tuned o news hlast
  exact ⟨h, fun n file rounds ho hnews => h ▸ lastNamed_foldl_settle rounds ho hnews hnew⟩

/-- A presubmit that was generated once and then tuned: optional, three at a time, and run only for
changes of the documentation. -/
def tunedUnit : Presubmit :=
  { name := "unit", labels := KeyMap.ofList [(Job.markerLabel, Job.generated)], maxConcurrency := 3
    optional := true, runIfChanged := "^docs/" }

/-- The presubmit as it is generated with a cluster and a filter. -/
def generatedUnit (cluster runIfChanged : String) : Presubmit :=
  { name := "unit", labels := KeyMap.ofList [(Job.markerLabel, Job.newlyGenerated)], cluster
    runIfChanged, alwaysRun := true, branches := ["main"] }

/-- The presubmit after runs that generate it with a filter, then with a cluster, and then with
another cluster. -/
def regeneratedUnit : Presubmit :=
  { name := "unit", labels := KeyMap.ofList [(Job.markerLabel, Job.generated)], maxConcurrency := 3
    cluster := "build01", optional := true, runIfChanged := "^src/", alwaysRun := true
    branches := ["main"] }

/-- The file of the presubmit. -/
def unitFile (j : Presubmit) : JobSet :=
  { presubmits := KeyMap.ofList [("o/r", [j])] }

theorem regenerated_unit :
    (∀ j ∈ [generatedUnit "" "^src/", generatedUnit "build01" ""] ++ [generatedUnit "build02" ""],
      j.IsNew) ∧
    regenerated Presubmit.merge tunedUnit
        ([generatedUnit "" "^src/", generatedUnit "build01" ""] ++ [generatedUnit "build02" ""]) =
      regeneratedUnit ∧
    lastNamed "unit" (([({}, unitFile (generatedUnit "" "^src/")),
        ({}, unitFile (generatedUnit "build01" "")),
        ({}, unitFile (generatedUnit "build02" ""))].foldl
      (fun s r => settle r.1 s (some r.2)) (unitFile tunedUnit)).jobs (.presubmits "o/r")) =
      some regeneratedUnit := by
  have hnew : ∀ j ∈ [generatedUnit "" "^src/", generatedUnit "build01" ""] ++
      [generatedUnit "build02" ""], j.IsNew := by decide
  obtain ⟨h, hfile⟩ := regenerated_eq_tuned (.presubmits "o/r") tunedUnit
    [generatedUnit "" "^src/", generatedUnit "build01" ""] hnew
  have htuned : Grouping.tuned (.presubmits "o/r") tunedUnit
      ([generatedUnit "" "^src/", generatedUnit "build01" ""] ++ [generatedUnit "build02" ""])
      (generatedUnit "build02" "") = regeneratedUnit := by decide
  refine ⟨hnew, h.trans htuned, ?_⟩
  rw [hfile "unit" (unitFile tunedUnit) _ (by decide) (by decide), htuned]

end JobConfig
