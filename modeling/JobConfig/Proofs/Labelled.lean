import JobConfig.Plan
import JobConfig.Proofs.Shard

/-!
# What the names of files say

A file name is read back as what it was built from, in the directory of its repository and whatever
dashes and points are in it. So the name of a shard gives the kind of all its jobs and the label of
their branches.
-/

namespace JobConfig

open Grouping (ofRepo)

variable {org repo label n : String} {kind : Kind} {s part : JobSet}

theorem Identity.ofPath_of_ofJobFile? {p : Path} {i : Identity} (h : ofJobFile? p = some i) :
    ofPath p = .ok i :=
  (ofJobFile?_eq_some_iff.1 h).2

/-! ### Labels of jobs -/

/-- Whether all jobs of a set are of one kind and belong to the file of one label. -/
def IsLabelled (org repo label : String) (kind : Kind) (s : JobSet) : Prop :=
  ∀ g, ∀ j ∈ s.jobs g, g = ofRepo org repo kind ∧ g.label? org repo j = some label

theorem isLabelled_empty : IsLabelled org repo label kind ∅ := by
  intro g j hj
  rw [JobSet.jobs_empty] at hj
  cases hj

theorem IsLabelled.append (hs : IsLabelled org repo label kind s)
    (hpart : IsLabelled org repo label kind part) :
    IsLabelled org repo label kind (s.append part) := by
  intro g j hj
  rw [JobSet.jobs_append, List.mem_append] at hj
  exact hj.elim (hs g j) (hpart g j)

theorem isLabelled_single {j : (ofRepo org repo kind).Record}
    (h : (ofRepo org repo kind).label? org repo j = some label) :
    IsLabelled org repo label kind (JobSet.single (ofRepo org repo kind) j) := by
  intro g k hk
  by_cases hg : g = ofRepo org repo kind
  · subst hg
    rw [JobSet.jobs_single_self, List.mem_singleton] at hk
    subst hk
    exact ⟨rfl, h⟩
  · rw [JobSet.jobs_single_of_ne j hg] at hk
    cases hk

/-! ### Names of shards -/

/-- Whether a name is that of the file for the kind and the label of all jobs of a set. -/
def NamesJobs (org repo n : String) (s : JobSet) : Prop :=
  ∃ label kind, n = fileName org repo label kind ∧ '/' ∉ label.toList ∧
    IsLabelled org repo label kind s

theorem namesJobs_of_mem_parts (h : (n, part) ∈ s.parts org repo) : NamesJobs org repo n part := by
  obtain ⟨kind, j, l, hl, rfl, rfl⟩ := JobSet.exists_of_mem_parts h
  exact ⟨l, kind, rfl, Grouping.slash_not_mem_label? hl, isLabelled_single hl⟩

/-- The name of a shard is that of all jobs of the shard: jobs of another kind or another label have
another name. -/
theorem namesJobs_of_get?_shards {generated : JobSet}
    (h : (generated.shards org repo).get? n = some s) : NamesJobs org repo n s := by
  refine JobSet.shards_induction (P := NamesJobs org repo) (fun _ _ => namesJobs_of_mem_parts)
    (fun n s part hs hpart => ?_) n s h
  obtain ⟨label, kind, hn, hl, hpart⟩ := hpart
  refine ⟨label, kind, hn, hl, .append ?_ hpart⟩
  rcases hs with rfl | ⟨label', kind', hn', -, hs⟩
  · exact isLabelled_empty
  · obtain ⟨rfl, rfl⟩ := fileName_inj.1 (hn'.symm.trans hn)
    exact hs

/-- The path of a file in the directory of its repository is read as what the file name was built
from, and the file name is built from it again. A shard lies at the path of the one kind and the one
label of its jobs, of which there are some. -/
theorem Identity.ofPath_fileName (ho : Path.IsPlain org) (hr : Path.IsPlain repo)
    (jobDir : Path) :
    (∀ branch kind, '/' ∉ branch.toList →
      let p := (repoDir jobDir org repo).join (.ofString (fileName org repo branch kind))
      ∃ i, ofPath p = .ok i ∧ i.org = org ∧ i.repo = repo ∧ i.branch = branch ∧ i.kind = kind ∧
        i.file = p ∧ p.fileName? = some (Utf8.encode i.basename)) ∧
    ∀ (generated : JobSet) (n : String) (s : JobSet),
      (generated.shards org repo).get? n = some s →
      let p := (repoDir jobDir org repo).join (.ofString n)
      ∃ i, ofJobFile? p = some i ∧ i.org = org ∧ i.repo = repo ∧ i.file = p ∧ i.basename = n ∧
        s.jobs (ofRepo org repo i.kind) ≠ [] ∧ IsLabelled org repo i.branch i.kind s := by
  constructor
  · intro branch kind hb p
    have hname := Path.isName_encode.2 (isPlain_fileName ho.2.1 hr.2.1 hb kind)
    exact ⟨_, ofPath_of_ofJobFile? (ofJobFile?_fileName ho hr hb kind jobDir), rfl, rfl, rfl, rfl,
      rfl, Path.fileName?_join hname _⟩
  · intro generated n s hs p
    obtain ⟨label, kind, rfl, hl, hlabelled⟩ := namesJobs_of_get?_shards hs
    refine ⟨_, ofJobFile?_fileName ho hr hl kind jobDir, rfl, rfl, rfl, rfl, ?_, hlabelled⟩
    obtain ⟨g, hg⟩ := (isShard_of_get? hs).hasJobs
    obtain ⟨j, hj⟩ := List.exists_mem_of_ne_nil _ hg
    rwa [← (hlabelled g j hj).1]

/-- A periodic of a branch whose name is not a label. -/
def nightlyJobs : JobSet where
  periodics := [{
    name := "nightly"
    extraRefs := [{ org := "a-b", repo := "ü.r", baseRef := "release/4-10" }] }]

/-- A name with dashes, points and the word of another kind, an empty branch, and a shard. -/
theorem Identity.ofPath_fileName_nightlyJobs :
    Path.IsPlain "a-b" ∧ Path.IsPlain "ü.r" ∧ '/' ∉ "".toList ∧
      (nightlyJobs.shards "a-b" "ü.r").get? "a-b-ü.r-release4-10-periodics.yaml" =
        some nightlyJobs ∧
      (∃ i, ofPath (.ofString "x/a-b/ü.r/a-b-ü.r--presubmits.yaml") = .ok i ∧
        i.org = "a-b" ∧ i.repo = "ü.r" ∧ i.branch = "" ∧ i.kind = .presubmit) ∧
      ∃ i, ofJobFile? (.ofString "x/a-b/ü.r/a-b-ü.r-release4-10-periodics.yaml") = some i ∧
        i.org = "a-b" ∧ i.repo = "ü.r" ∧ IsLabelled "a-b" "ü.r" i.branch i.kind nightlyJobs := by
  have ho : Path.IsPlain "a-b" := by decide
  have hr : Path.IsPlain "ü.r" := by decide
  have hb : '/' ∉ "".toList := by decide
  have hs : (nightlyJobs.shards "a-b" "ü.r").get? "a-b-ü.r-release4-10-periodics.yaml" =
      some nightlyJobs := by decide +kernel
  have hpath : (repoDir (.ofString "x") "a-b" "ü.r").join
      (.ofString (fileName "a-b" "ü.r" "" .presubmit)) =
        .ofString "x/a-b/ü.r/a-b-ü.r--presubmits.yaml" := by decide +kernel
  have hpath' : (repoDir (.ofString "x") "a-b" "ü.r").join
      (.ofString "a-b-ü.r-release4-10-periodics.yaml") =
        .ofString "x/a-b/ü.r/a-b-ü.r-release4-10-periodics.yaml" := by decide +kernel
  obtain ⟨hread, hshard⟩ := Identity.ofPath_fileName ho hr (.ofString "x")
  obtain ⟨i, hi, hio, hir, hib, hik, -⟩ := hread "" .presubmit hb
  obtain ⟨i', hi', hio', hir', -, -, -, hlabelled⟩ := hshard _ _ _ hs
  rw [hpath] at hi
  rw [hpath'] at hi'
  exact ⟨ho, hr, hb, hs, ⟨i, hi, hio, hir, hib, hik⟩, i', hi', hio', hir', hlabelled⟩

end JobConfig
