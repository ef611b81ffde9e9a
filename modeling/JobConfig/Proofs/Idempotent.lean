import JobConfig.Proofs.Merged
import JobConfig.Proofs.Reconcile

/-!
# Merging again

A generated job that is merged into what it has become changes nothing, so a second merge of the
same set finds every job as it would make it. A set that is merged into itself is put in the order
of names and loses what a name has more than once, and nothing else.
-/

namespace JobConfig

/-! ### List by list -/

section

variable {J : Type} [JobLike J] {merge : J → J → J} (renewal : IsRenewal merge)

include renewal

/-- Merging the same jobs a second time changes nothing, nor does it reorder. -/
theorem mergeJobs_mergeJobs (c : Names) (old new : List J) :
    mergeJobs merge c (mergeJobs merge c old new) new = mergeJobs merge c old new := by
  have hget : ∀ n, (byName (mergeJobs merge c old new)).get? n =
      mergedJob merge c n (lastNamed n old) (lastNamed n new) := fun n => by
    rw [get?_byName, lastNamed_mergeJobs renewal.name]
  -- the jobs in front have a generated name, so there is a renewed job of it
  have hfront : (byName new).entries.map (fun e =>
        renew merge ((byName (mergeJobs merge c old new)).get? e.1) e.2) =
      (byName new).entries.map fun e => renew merge ((byName old).get? e.1) e.2 := by
    refine List.map_congr_left fun e he => ?_
    have hnew := KeyMap.mem_entries_iff.1 he
    rw [get?_byName] at hnew
    rw [hget, hnew, get?_byName]
    exact renewal.renew_renew _ e.2
  -- the jobs behind them have names that a merge leaves alone
  have hback : (byName (mergeJobs merge c old new)).filter
        (fun n _ => !(byName new).contains n && !c.contains n) =
      (byName old).filter fun n _ => !(byName new).contains n && !c.contains n := by
    refine KeyMap.ext_get? fun n => ?_
    rw [KeyMap.get?_filterKeys, KeyMap.get?_filterKeys, hget, get?_byName]
    cases hnew : lastNamed n new with
    | some j => simp [KeyMap.contains, get?_byName, hnew]
    | none => by_cases hc : c.contains n <;> simp [mergedJob, hc]
  show List.map _ _ ++ _ = List.map _ _ ++ _
  rw [hback]
  exact congrArg (· ++ _) hfront

/-- Jobs that are merged with themselves are the same jobs in order, if their names are distinct and
only then. -/
theorem sortJobs_mergeJobs_self (c : Names) (jobs : List J) :
    sortJobs (mergeJobs merge c jobs jobs) = sortJobs jobs ↔ DistinctNames jobs := by
  have hmerged : DistinctNames (sortJobs (mergeJobs merge c jobs jobs)) :=
    distinctNames_sortJobs.2 (distinctNames_mergeJobs renewal.name c jobs jobs)
  constructor
  · intro h
    rw [h] at hmerged
    exact distinctNames_sortJobs.1 hmerged
  · intro hd
    refine ext_lastNamed (ascending_sortJobs _) (ascending_sortJobs _) hmerged
      (distinctNames_sortJobs.2 hd) fun n => ?_
    rw [lastNamed_sortJobs, lastNamed_sortJobs, lastNamed_mergeJobs renewal.name]
    cases lastNamed n jobs with
    | some j => simp [mergedJob, renew, renewal.self]
    | none => simp [mergedJob]

end

/-! ### Set by set -/

namespace JobSet

theorem merge_merge (considered : Considered) (old new : JobSet) :
    (old.merge considered new).merge considered new = old.merge considered new := by
  refine ext_listed? fun g => ?_
  rw [listed?_merge, listed?_merge, jobs_merge]
  split
  · rw [mergeJobs_mergeJobs g.isRenewal_merge]
  · rfl

/-- A set that is merged into itself and sorted is sorted, if its names are distinct and only
then. -/
theorem sort_merge_self (considered : Considered) (s : JobSet) :
    (s.merge considered s).sort = s.sort ↔ s.Distinct := by
  constructor
  · intro h g
    have hg := congrArg (jobs · g) h
    simp only [jobs_sort, jobs_merge] at hg
    cases hl : s.lists g with
    | true =>
      rw [if_pos hl, sortJobs_mergeJobs_self g.isRenewal_merge] at hg
      exact hg
    | false =>
      rw [jobs_eq_nil_of_lists hl]
      exact List.nodup_nil
  · intro hd
    refine ext_listed? fun g => ?_
    rw [listed?_sort, listed?_sort, listed?_merge]
    split
    · rename_i hl
      rw [listed?_of_lists hl, Option.map_some, Option.map_some]
      exact congrArg some ((sortJobs_mergeJobs_self g.isRenewal_merge _ _).2 (hd g))
    · rfl

/-- Merging is idempotent: a second merge of the same set changes nothing, whatever names occur
twice, and a set of distinct names that is merged into itself is reordered at most. -/
theorem merge_idempotent (considered : Considered) :
    (∀ old new : JobSet,
      (old.merge considered new).merge considered new = old.merge considered new) ∧
    ∀ s : JobSet, (s.merge considered s).sort = s.sort ↔ s.Distinct :=
  ⟨merge_merge considered, sort_merge_self considered⟩

end JobSet

end JobConfig
