import JobConfig.Proofs.Grouping
import JobConfig.Proofs.Order

/-!
# What a merge makes of a job set

A grouping that the generated set lists is reconciled name by name, whatever names occur twice on
either side; all others are left as they are. What is considered of one kind is of no account for
the others.
-/

namespace JobConfig

/-- What it means that a list of jobs is made of old ones and new ones, by their names. Of several
jobs of one name on a side the last one counts. -/
structure Reconciles {J : Type} [JobLike J] (merge : J → J → J) (considered : Names)
    (old new merged : List J) : Prop where
  distinct : DistinctNames merged
  names : ∀ n, n ∈ merged.map nameOf ↔
    n ∈ new.map nameOf ∨ n ∈ old.map nameOf ∧ considered.contains n = false
  both : ∀ n o k, lastNamed n old = some o → lastNamed n new = some k →
    lastNamed n merged = some (merge o k)
  fresh : ∀ n k, lastNamed n old = none → lastNamed n new = some k → lastNamed n merged = some k
  kept : ∀ n o, lastNamed n new = none → considered.contains n = false →
    lastNamed n old = some o → lastNamed n merged = some o
  order : ∃ front back, merged = front ++ back ∧
    (∀ n, n ∈ front.map nameOf ↔ n ∈ new.map nameOf) ∧
    (front.map nameOf).Pairwise (fun a b => compare (Utf8.encode a) (Utf8.encode b) = .lt) ∧
    (back.map nameOf).Pairwise fun a b => compare (Utf8.encode a) (Utf8.encode b) = .lt

section

variable {J : Type} [JobLike J] {merge : J → J → J}

/-- The keys of a map are in the order of their bytes. -/
theorem pairwise_keys {α : Type} (m : KeyMap String α) :
    m.keys.Pairwise fun a b => compare (Utf8.encode a) (Utf8.encode b) = .lt := by
  simp only [Utf8.compare_encode]
  exact List.pairwise_map.2 m.increasing

/-- A merged list is the reconciliation of what is merged. -/
theorem reconciles_mergeJobs (keepsName : ∀ o j, nameOf (merge o j) = nameOf j)
    (considered : Names) (old new : List J) :
    Reconciles merge considered old new (mergeJobs merge considered old new) := by
  have hlast := lastNamed_mergeJobs keepsName considered old new
  refine ⟨distinctNames_mergeJobs keepsName considered old new, fun n => ?_, fun n o k ho hk => ?_,
    fun n k ho hk => ?_, fun n o hk hc ho => ?_, _, _, rfl, fun n => ?_, ?_, ?_⟩
  · have hmem : ∀ jobs : List J, n ∈ jobs.map nameOf ↔ lastNamed n jobs ≠ none := fun jobs => by
      rw [Ne, lastNamed_eq_none_iff, not_not]
    rw [hmem, hmem, hmem, hlast]
    cases lastNamed n new with
    | some k => simp [mergedJob]
    | none => cases hc : considered.contains n <;> simp [mergedJob, hc]
  · rw [hlast, ho, hk]
    rfl
  · rw [hlast, ho, hk]
    rfl
  · rw [hlast, ho, hk, mergedJob, hc]
    rfl
  · rw [map_nameOf_renewed keepsName, ← contains_byName, KeyMap.contains, KeyMap.get?_isSome_iff]
  · rw [map_nameOf_renewed keepsName]
    exact pairwise_keys _
  · rw [map_nameOf_kept]
    exact pairwise_keys _

end

namespace JobSet

/-- The list of a grouping, if a job set has the grouping. Periodics are always listed. -/
def listed? (s : JobSet) : (g : Grouping) → Option (List g.Record)
  | .presubmits repo => s.presubmits.get? repo
  | .postsubmits repo => s.postsubmits.get? repo
  | .periodics => some s.periodics

/-- A merge, grouping by grouping. -/
theorem listed?_merge (considered : Considered) (old new : JobSet) (g : Grouping) :
    (old.merge considered new).listed? g =
      if new.lists g then
        some (mergeJobs g.merge (considered.names g.kind) (old.jobs g) (new.jobs g))
      else old.listed? g := by
  cases g with
  | presubmits repo => exact get?_mergeGroups _ _ _ _ _
  | postsubmits repo => exact get?_mergeGroups _ _ _ _ _
  | periodics =>
    rw [listed?, merge, lists]
    cases new.periodics.isEmpty <;> rfl

theorem listed?_sort (s : JobSet) (g : Grouping) :
    s.sort.listed? g = (s.listed? g).map sortJobs := by
  cases g with
  | presubmits repo => exact KeyMap.get?_mapValues _ _ _
  | postsubmits repo => exact KeyMap.get?_mapValues _ _ _
  | periodics => rfl

theorem listed?_of_lists {s : JobSet} {g : Grouping} (h : s.lists g = true) :
    s.listed? g = some (s.jobs g) := by
  cases g with
  | presubmits repo =>
    obtain ⟨js, hjs⟩ := Option.isSome_iff_exists.1 (show (s.presubmits.get? repo).isSome from h)
    simp [listed?, jobs, hjs]
  | postsubmits repo =>
    obtain ⟨js, hjs⟩ := Option.isSome_iff_exists.1 (show (s.postsubmits.get? repo).isSome from h)
    simp [listed?, jobs, hjs]
  | periodics => rfl

/-- Sets with the same lists are the same. -/
theorem ext_listed? {s t : JobSet} (h : ∀ g, s.listed? g = t.listed? g) : s = t := by
  cases s
  cases t
  rw [JobSet.mk.injEq]
  exact ⟨KeyMap.ext_get? fun repo => h (.presubmits repo),
    KeyMap.ext_get? fun repo => h (.postsubmits repo), Option.some.inj (h .periodics)⟩

/-- A merge reconciles each grouping that the generated set lists, by the names that are considered
for its kind, and leaves every other grouping as it is. -/
theorem merge_reconciles (considered : Considered) (old new : JobSet) (g : Grouping) :
    (if new.lists g then ∃ merged, (old.merge considered new).listed? g = some merged ∧
        Reconciles g.merge (considered.names g.kind) (old.jobs g) (new.jobs g) merged
      else (old.merge considered new).listed? g = old.listed? g) ∧
    ∀ other : Considered, other.names g.kind = considered.names g.kind →
      (old.merge other new).listed? g = (old.merge considered new).listed? g := by
  constructor
  · rw [listed?_merge]
    split
    · exact ⟨_, rfl, reconciles_mergeJobs g.isRenewal_merge.name _ _ _⟩
    · rfl
  · intro other h
    rw [listed?_merge, listed?_merge, h]

end JobSet

end JobConfig
