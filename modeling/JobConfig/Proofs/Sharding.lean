import JobConfig.Proofs.Labelled
import JobConfig.Proofs.Partition

/-!
# Which file a job goes to

A job that belongs to a repository goes to the one file for its kind and its label. So each file has
those jobs of a set that go to it, each as often as the set has it and in the same order, and files
of sets that are appended are appended.
-/

namespace JobConfig

open Grouping (ofRepo)

variable {org repo n : String}

namespace Grouping

/-- Whether a job of a grouping belongs to a repository: the grouping is that of the repository, or
the job is a periodic whose first reference is to it. -/
def Belongs (org repo : String) : (g : Grouping) → g.Record → Prop
  | presubmits k, _ => k = repoKey org repo
  | postsubmits k, _ => k = repoKey org repo
  | periodics, j => ∃ r, j.extraRefs.head? = some r ∧ r.org = org ∧ r.repo = repo

theorem fileOf?_eq_some_iff {g : Grouping} {j : g.Record} : g.fileOf? org repo j = some n ↔
    g = ofRepo org repo g.kind ∧
      ∃ l, g.label? org repo j = some l ∧ fileName org repo l g.kind = n := by
  rw [fileOf?, Option.ite_none_right_eq_some, Option.map_eq_some_iff]

theorem isSome_fileOf?_iff {g : Grouping} {j : g.Record} :
    (g.fileOf? org repo j).isSome = true ↔ g.Belongs org repo j := by
  cases g with
  | presubmits k => simp [fileOf?, ofRepo, kind, label?, Belongs]
  | postsubmits k => simp [fileOf?, ofRepo, kind, label?, Belongs]
  | periodics =>
    rw [Periodic.isSome_fileOf?, Option.any_eq_true, Belongs]
    simp [Periodic.primaryRef?]

/-- Two jobs go to the same file if they have the kind and the label in common. -/
theorem fileOf?_eq_iff {g g' : Grouping} {j : g.Record} {j' : g'.Record}
    (h : g.Belongs org repo j) (h' : g'.Belongs org repo j') :
    g.fileOf? org repo j = g'.fileOf? org repo j' ↔
      g.kind = g'.kind ∧ g.label? org repo j = g'.label? org repo j' := by
  rw [← isSome_fileOf?_iff, Option.isSome_iff_exists] at h h'
  obtain ⟨n, hn⟩ := h
  obtain ⟨n', hn'⟩ := h'
  obtain ⟨-, l, hl, hln⟩ := fileOf?_eq_some_iff.1 hn
  obtain ⟨-, l', hl', hln'⟩ := fileOf?_eq_some_iff.1 hn'
  rw [hn, hn', hl, hl', Option.some.injEq, Option.some.injEq, ← hln, ← hln', fileName_inj, and_comm]

end Grouping

/-! ### Files -/

/-- What is in a file after parts are added: what was in it, and the parts of its name. -/
theorem Shards.jobs_foldl_add (parts : List (String × JobSet)) (m : Shards) (n : String)
    (g : Grouping) :
    (((parts.foldl (fun m p => m.add p.1 p.2) m).get? n).getD ∅).jobs g =
      ((m.get? n).getD ∅).jobs g ++ (parts.filter (·.1 = n)).flatMap (·.2.jobs g) := by
  induction parts generalizing m with
  | nil => simp
  | cons p parts ih =>
    rw [List.foldl_cons, ih, Shards.add, KeyMap.get?_insert, List.filter_cons]
    by_cases hp : n = p.1
    · subst hp
      simp [JobSet.jobs_append]
    · simp [hp, Ne.symm hp]

namespace JobSet

/-- A file has the jobs that go to it, in their order. -/
theorem jobs_shards (org repo : String) (s : JobSet) (n : String) (g : Grouping) :
    (((s.shards org repo).get? n).getD ∅).jobs g =
      (s.jobs g).filter fun j => g.fileOf? org repo j = some n := by
  have hempty : (((∅ : Shards).get? n).getD ∅).jobs g = [] := jobs_empty g
  have hparts := jobs_parts org repo s g fun m => m = n
  rw [shards, Shards.jobs_foldl_add, hempty, List.nil_append, hparts]
  exact List.filter_congr fun j _ => by cases g.fileOf? org repo j <;> simp

theorem full_getD_shards (org repo : String) (s : JobSet) (n : String) :
    (((s.shards org repo).get? n).getD ∅).Full := by
  cases h : (s.shards org repo).get? n with
  | none => exact full_empty
  | some shard => exact full_of_get?_shards h

/-- There is a file of a name if some job goes to it. -/
theorem contains_shards_iff {s : JobSet} : (s.shards org repo).contains n = true ↔
    ∃ g, ∃ j ∈ s.jobs g, g.fileOf? org repo j = some n := by
  have hjobs := jobs_shards org repo s n
  rw [KeyMap.contains]
  cases h : (s.shards org repo).get? n with
  | none =>
    rw [h] at hjobs
    simp only [Option.getD_none, jobs_empty] at hjobs
    refine iff_of_false (by simp) ?_
    rintro ⟨g, j, hj, hfile⟩
    have hmem : j ∈ (s.jobs g).filter fun j => g.fileOf? org repo j = some n :=
      List.mem_filter.2 ⟨hj, decide_eq_true hfile⟩
    rw [← hjobs g] at hmem
    cases hmem
  | some shard =>
    obtain ⟨g, hg⟩ := (isShard_of_get? h).hasJobs
    obtain ⟨j, hj⟩ := List.exists_mem_of_ne_nil _ hg
    rw [h, Option.getD_some] at hjobs
    rw [hjobs g, List.mem_filter, decide_eq_true_eq] at hj
    exact iff_of_true rfl ⟨g, j, hj⟩

/-- The file of appended sets is the file of the one with that of the other appended. -/
theorem get?_shards_append (org repo : String) (a b : JobSet) (n : String) :
    ((a.append b).shards org repo).get? n =
      if (a.shards org repo).contains n ∨ (b.shards org repo).contains n then
        some ((((a.shards org repo).get? n).getD ∅).append (((b.shards org repo).get? n).getD ∅))
      else none := by
  have hjoined : (((a.append b).shards org repo).get? n).getD ∅ =
      (((a.shards org repo).get? n).getD ∅).append (((b.shards org repo).get? n).getD ∅) := by
    refine (full_getD_shards ..).ext ((full_getD_shards ..).append (full_getD_shards ..))
      fun g => ?_
    rw [jobs_append, jobs_shards, jobs_shards, jobs_shards, jobs_append, List.filter_append]
  have hcontains : ((a.append b).shards org repo).contains n = true ↔
      (a.shards org repo).contains n = true ∨ (b.shards org repo).contains n = true := by
    simp only [contains_shards_iff, jobs_append, List.mem_append, or_and_right, exists_or]
  rw [KeyMap.contains] at hcontains
  cases h : ((a.append b).shards org repo).get? n with
  | none => rw [if_neg (hcontains.not.1 (by simp [h]))]
  | some shard =>
    rw [h, Option.getD_some] at hjoined
    rw [if_pos (hcontains.1 (by simp [h])), hjoined]

/-- What is in each file of a repository. A job goes to a file if it belongs to the repository, and
to the same one as another job if they have the kind and the label in common. A file has the jobs
that go to it, unchanged, in their order and as often as the set has them, and nothing else; there
is at least one, and all are of the one grouping that the file lists. The files of appended sets are
the appended files. -/
theorem shards_partition (org repo : String) (s : JobSet) :
    (∀ (g : Grouping) j, (g.fileOf? org repo j).isSome = true ↔ g.Belongs org repo j) ∧
    (∀ (g : Grouping) j (g' : Grouping) j', g.Belongs org repo j → g'.Belongs org repo j' →
      (g.fileOf? org repo j = g'.fileOf? org repo j' ↔
        g.kind = g'.kind ∧ g.label? org repo j = g'.label? org repo j')) ∧
    (∀ n g, (((s.shards org repo).get? n).getD ∅).jobs g =
      (s.jobs g).filter fun j => g.fileOf? org repo j = some n) ∧
    (∀ n shard, (s.shards org repo).get? n = some shard →
      ∃ kind, shard.jobs (ofRepo org repo kind) ≠ [] ∧
        ∀ g, shard.lists g = true → g = ofRepo org repo kind) ∧
    ∀ t n, ((s.append t).shards org repo).get? n =
      if (s.shards org repo).contains n ∨ (t.shards org repo).contains n then
        some ((((s.shards org repo).get? n).getD ∅).append (((t.shards org repo).get? n).getD ∅))
      else none := by
  refine ⟨fun _ _ => Grouping.isSome_fileOf?_iff, fun _ _ _ _ => Grouping.fileOf?_eq_iff,
    jobs_shards org repo s, fun n shard h => ?_, get?_shards_append org repo s⟩
  obtain ⟨label, kind, -, -, hlabelled⟩ := namesJobs_of_get?_shards h
  have hone : ∀ g, shard.jobs g ≠ [] → g = ofRepo org repo kind := by
    intro g hg
    obtain ⟨j, hj⟩ := List.exists_mem_of_ne_nil _ hg
    exact (hlabelled g j hj).1
  obtain ⟨g, hg⟩ := (isShard_of_get? h).hasJobs
  refine ⟨kind, hone g hg ▸ hg, fun g' hg' => hone g' fun hnil => ?_⟩
  rw [((full_of_get?_shards h).lists_eq_false_iff).2 hnil] at hg'
  cases hg'

/-- Jobs of two repositories, two of them without a branch and with the branch that stands for
none. -/
def twoRepoJobs : JobSet where
  presubmits := .ofList
    [("o/r", [{ name := "unit", branches := ["main"] }, { name := "lint" },
      { name := "build", branches := ["master"] }]), ("o/x", [{ name := "unit" }])]
  periodics := [{ name := "nightly", extraRefs := [{ org := "o", repo := "x" }] }]

theorem shards_partition_twoRepoJobs :
    Grouping.Belongs "o" "r" (.presubmits "o/r") { name := "lint" } ∧
    Grouping.Belongs "o" "r" (.presubmits "o/r") { name := "build", branches := ["master"] } ∧
    Grouping.fileOf? "o" "r" (.presubmits "o/r") { name := "lint" } =
      Grouping.fileOf? "o" "r" (.presubmits "o/r") { name := "build", branches := ["master"] } ∧
    (twoRepoJobs.shards "o" "r").keys =
      ["o-r-main-presubmits.yaml", "o-r-master-presubmits.yaml"] ∧
    ∃ shard, (twoRepoJobs.shards "o" "r").get? "o-r-master-presubmits.yaml" = some shard ∧
      shard.jobs (.presubmits "o/r") =
        [{ name := "lint" }, { name := "build", branches := ["master"] }] ∧
      ∃ kind, shard.jobs (ofRepo "o" "r" kind) ≠ [] ∧
        ∀ g, shard.lists g = true → g = ofRepo "o" "r" kind := by
  have hkey : "o/r" = repoKey "o" "r" := by decide
  have hlint : Grouping.Belongs "o" "r" (.presubmits "o/r") { name := "lint" } := hkey
  have hbuild : Grouping.Belongs "o" "r" (.presubmits "o/r")
      { name := "build", branches := ["master"] } := hkey
  obtain ⟨-, hsame, -, hone, -⟩ := shards_partition "o" "r" twoRepoJobs
  have hfile := (hsame _ _ _ _ hlint hbuild).2 ⟨rfl, by decide⟩
  have hkeys : (twoRepoJobs.shards "o" "r").keys =
      ["o-r-main-presubmits.yaml", "o-r-master-presubmits.yaml"] := by decide +kernel
  have hshard : ((twoRepoJobs.shards "o" "r").get? "o-r-master-presubmits.yaml").any
      (fun shard => shard.jobs (.presubmits "o/r") =
        [{ name := "lint" }, { name := "build", branches := ["master"] }]) = true := by
    decide +kernel
  obtain ⟨shard, hget, hjobs⟩ := (Option.any_eq_true _ _).1 hshard
  exact ⟨hlint, hbuild, hfile, hkeys, shard, hget, of_decide_eq_true hjobs, hone _ shard hget⟩

end JobSet

end JobConfig
