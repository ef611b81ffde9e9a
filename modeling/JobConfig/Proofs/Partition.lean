import JobConfig.Proofs.Moved
import Mathlib.Data.List.Perm.Basic

/-!
# Shards divide up the jobs of a repository

Every job of a repository is in one shard, and a shard has no others. So sets of the jobs of all
shards, in whatever order they are put together again, are the jobs of the repository once they are
sorted.
-/

namespace JobConfig

/-- The jobs of a set that belong to a repository: those grouped under it, and the periodics whose
first reference is to it. -/
def JobSet.restrict (org repo : String) (s : JobSet) : JobSet where
  presubmits := s.presubmits.filter fun k _ => k = repoKey org repo
  postsubmits := s.postsubmits.filter fun k _ => k = repoKey org repo
  periodics := s.periodics.filter fun j => j.primaryRef?.any fun r => r.org = org ∧ r.repo = repo

/-! ### Parts -/

/-- A periodic goes to a file of the repository that its first reference is to. -/
theorem Periodic.isSome_fileOf? (org repo : String) (j : Periodic) :
    (Grouping.fileOf? org repo .periodics j).isSome =
      j.primaryRef?.any fun r => r.org = org ∧ r.repo = repo := by
  rw [Grouping.fileOf?, if_pos (by rfl), Option.isSome_map, Grouping.label?, label?]
  cases j.primaryRef? with
  | none => rfl
  | some r =>
    by_cases h : r.org = org ∧ r.repo = repo
    · simp [h]
    · rw [Option.any_some, decide_eq_false h]
      simp [h]

/-- The jobs that belong to a repository are those that go to a file of it. -/
theorem JobSet.jobs_restrict (org repo : String) (s : JobSet) (g : Grouping) :
    (s.restrict org repo).jobs g = (s.jobs g).filter fun j => (g.fileOf? org repo j).isSome := by
  have hgroup : ∀ {J : Type} (m : KeyMap String (List J)) (key k : String) (p : J → Bool),
      (∀ j, p j = decide (k = key)) →
      ((m.filter fun k _ => k = key).get? k).getD [] = ((m.get? k).getD []).filter p := by
    intro J m key k p hp
    rw [KeyMap.get?_filter, funext hp]
    by_cases hk : k = key
    · cases m.get? k <;> simp [Option.filter_some, hk]
    · cases m.get? k <;> simp [Option.filter_some, hk]
  cases g with
  | presubmits k =>
    exact hgroup _ _ _ _ fun j => by
      by_cases hk : k = repoKey org repo <;> simp [Grouping.fileOf?, Grouping.ofRepo, Grouping.kind,
        Grouping.label?, hk]
  | postsubmits k =>
    exact hgroup _ _ _ _ fun j => by
      by_cases hk : k = repoKey org repo <;> simp [Grouping.fileOf?, Grouping.ofRepo, Grouping.kind,
        Grouping.label?, hk]
  | periodics => exact List.filter_congr fun j _ => (Periodic.isSome_fileOf? org repo j).symm

/-- The parts of a set are the jobs of the repository one by one. -/
theorem JobSet.flatMap_jobs_parts (org repo : String) (s : JobSet) (g : Grouping) :
    ((s.parts org repo).flatMap fun p => p.2.jobs g) = (s.restrict org repo).jobs g := by
  have hparts := jobs_parts org repo s g fun _ => true
  rw [List.filter_true] at hparts
  rw [hparts, jobs_restrict]
  simp only [Option.any_true]

/-! ### Shards -/

/-- The jobs of a shard and those of the others. -/
theorem Shards.flatMap_jobs_perm {m : Shards} {n : String} {s : JobSet} (h : m.get? n = some s)
    (g : Grouping) : (m.values.flatMap fun s => s.jobs g).Perm
      (s.jobs g ++ (m.erase n).values.flatMap fun s => s.jobs g) :=
  ((KeyMap.entries_perm_erase h).map (·.2)).flatMap_right fun s => s.jobs g

/-- A part that is added brings in its jobs. -/
theorem Shards.flatMap_jobs_add (m : Shards) (n : String) (part : JobSet) (g : Grouping) :
    ((m.add n part).values.flatMap fun s => s.jobs g).Perm
      ((m.values.flatMap fun s => s.jobs g) ++ part.jobs g) := by
  have hadd : (m.add n part).get? n = some (((m.get? n).getD ∅).append part) := by
    rw [add, KeyMap.get?_insert, if_pos rfl]
  have hnew := flatMap_jobs_perm hadd g
  rw [add, KeyMap.erase_insert, ← add, JobSet.jobs_append] at hnew
  cases hn : m.get? n with
  | none =>
    rw [hn, KeyMap.erase_of_get?_eq_none hn, Option.getD_none, JobSet.jobs_empty,
      List.nil_append] at hnew
    exact hnew.trans List.perm_append_comm
  | some old =>
    rw [hn, Option.getD_some, List.append_assoc] at hnew
    -- the part comes after the other shards
    refine hnew.trans ((List.perm_append_comm.append_left _).trans ?_)
    rw [← List.append_assoc]
    exact (flatMap_jobs_perm hn g).symm.append_right _

/-- The shards hold each job of the repository, and no others. -/
theorem JobSet.flatMap_jobs_shards (org repo : String) (s : JobSet) (g : Grouping) :
    ((s.shards org repo).values.flatMap fun s => s.jobs g).Perm
      ((s.restrict org repo).jobs g) := by
  suffices hfold : ∀ (parts : List (String × JobSet)) (m : Shards),
      ((parts.foldl (fun m p => m.add p.1 p.2) m).values.flatMap fun s => s.jobs g).Perm
        ((m.values.flatMap fun s => s.jobs g) ++ parts.flatMap fun p => p.2.jobs g) by
    have h := hfold (s.parts org repo) ∅
    rwa [flatMap_jobs_parts] at h
  intro parts
  induction parts with
  | nil => intro m; simp
  | cons p parts ih =>
    intro m
    rw [List.foldl_cons, List.flatMap_cons, ← List.append_assoc]
    exact (ih _).trans ((m.flatMap_jobs_add p.1 p.2 g).append_right _)

/-! ### Sorted sets -/

section

variable {J : Type} [JobLike J] {as bs : List J}

/-- Where names are distinct, the order of the jobs does not matter once they are sorted. -/
theorem sortJobs_congr_perm (hp : as.Perm bs) (hd : DistinctNames as) :
    sortJobs as = sortJobs bs := by
  have hdb : DistinctNames bs := ((hp.map nameOf).nodup_iff).1 hd
  refine ext_lastNamed (ascending_sortJobs _) (ascending_sortJobs _) (distinctNames_sortJobs.2 hd)
    (distinctNames_sortJobs.2 hdb) fun n => ?_
  have hlast : lastNamed n as = lastNamed n bs := Option.ext fun j => by
    rw [hd.lastNamed_iff, hdb.lastNamed_iff, hp.mem_iff]
  rw [lastNamed_sortJobs, lastNamed_sortJobs, hlast]

/-- Specifications that are sorted already are sorted again. -/
theorem sortJobs_map_sortSpec (js : List J) :
    sortJobs (js.map (modifyJob Job.sortSpec)) = sortJobs js := by
  rw [sortJobs, sortBy_map nameOf nameOf _ (nameOf_modifyJob Job.name_sortSpec), List.map_map,
    sortJobs]
  exact List.map_congr_left fun j _ => modifyJob_sortSpec_sortSpec j

theorem pruneJobs_flatMap {α : Type} (f : α → List J) (l : List α) :
    (l.flatMap fun a => pruneJobs (f a)) = pruneJobs (l.flatMap f) := by
  simp only [pruneJobs, List.filter_flatMap, List.map_flatMap]

/-- Lists that are pruned and sorted one by one are together what is pruned and sorted at once. -/
theorem sortJobs_of_perm_flatMap {α : Type} {f : α → List J} {l : List α} {js : List J}
    (has : as.Perm (l.flatMap fun a => sortJobs (pruneJobs (f a)))) (hp : (l.flatMap f).Perm js)
    (hd : DistinctNames js) : sortJobs as = sortJobs (pruneJobs js) := by
  have hsort : (l.flatMap fun a => sortJobs (pruneJobs (f a))).Perm
      (l.flatMap fun a => (pruneJobs (f a)).map (modifyJob Job.sortSpec)) :=
    List.Perm.flatMap_left _ fun a _ => (sortBy_perm nameOf _).map _
  rw [← List.map_flatMap, pruneJobs_flatMap] at hsort
  have hperm : as.Perm ((pruneJobs js).map (modifyJob Job.sortSpec)) :=
    (has.trans hsort).trans (((hp.filter _).map _).map _)
  have hdistinct : DistinctNames as := ((hperm.map nameOf).nodup_iff).2
    ((distinctNames_map Job.name_sortSpec).2 (distinctNames_pruneJobs hd))
  rw [sortJobs_congr_perm hperm hdistinct, sortJobs_map_sortSpec]

end

namespace JobSet

/-- Sets of jobs put together one after the other, in the order in which they are handed over. -/
def joined (loaded : List (Identity × JobSet)) : JobSet :=
  loaded.foldl (fun s e => s.append e.2) ∅

theorem joined_concat (loaded : List (Identity × JobSet)) (e : Identity × JobSet) :
    joined (loaded ++ [e]) = (joined loaded).append e.2 := by
  unfold joined
  rw [List.foldl_append]
  rfl

theorem jobs_joined (loaded : List (Identity × JobSet)) (g : Grouping) :
    (joined loaded).jobs g = loaded.flatMap fun e => e.2.jobs g := by
  induction loaded using List.reverseRecOn with
  | nil => exact jobs_empty g
  | append_singleton loaded e ih =>
    rw [joined_concat, jobs_append, ih, List.flatMap_append, List.flatMap_singleton]

theorem full_joined {loaded : List (Identity × JobSet)} (h : ∀ e ∈ loaded, e.2.Full) :
    (joined loaded).Full := by
  induction loaded using List.reverseRecOn with
  | nil => exact full_empty
  | append_singleton loaded e ih =>
    rw [joined_concat]
    apply Full.append
    · exact ih fun e' he' => h e' (List.mem_append_left _ he')
    · exact h e (by simp)

theorem Distinct.restrict {s : JobSet} (h : s.Distinct) (org repo : String) :
    (s.restrict org repo).Distinct := by
  have hgroup : ∀ {J : Type} (m : KeyMap String (List J)) (p : String → Bool) (k : String),
      List.Sublist (((m.filter fun k _ => p k).get? k).getD []) ((m.get? k).getD []) := by
    intro J m p k
    rw [KeyMap.get?_filter]
    cases m.get? k with
    | none => simp
    | some js => by_cases hp : p k <;> simp [Option.filter_some, hp]
  intro g
  cases g with
  | presubmits k => exact (h (.presubmits k)).sublist ((hgroup _ _ k).map nameOf)
  | postsubmits k => exact (h (.postsubmits k)).sublist ((hgroup _ _ k).map nameOf)
  | periodics => exact (h .periodics).sublist (List.filter_sublist.map nameOf)

/-- The settled shards, put together in whatever order, are the settled jobs of the repository. -/
theorem sort_joined {org repo : String} {s : JobSet} {loaded : List (Identity × JobSet)}
    (hd : s.Distinct) (hfull : ∀ e ∈ loaded, e.2.Full)
    (hloaded : ∀ g, (loaded.flatMap fun e => e.2.jobs g).Perm
      ((s.shards org repo).values.flatMap fun shard => shard.prune.sort.jobs g)) :
    (joined loaded).sort = (s.restrict org repo).prune.sort := by
  refine (full_joined hfull).sort.ext (full_prune _).sort fun g => ?_
  have h := hloaded g
  simp only [jobs_sort, jobs_prune] at h ⊢
  rw [jobs_joined]
  exact sortJobs_of_perm_flatMap h (flatMap_jobs_shards org repo s g) (hd.restrict org repo g)

end JobSet

end JobConfig
