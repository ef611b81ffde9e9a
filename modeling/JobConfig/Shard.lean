import JobConfig.Identity
import JobConfig.Job.Set
import JobConfig.Label

/-!
# Shards

The jobs of one repository are split into files by kind and branch. A presubmit or postsubmit
belongs to its first branch, a periodic to the branch of its first reference.
-/

namespace JobConfig

/-- Job sets by the name of their file. -/
abbrev Shards := KeyMap String JobSet

/-- The label of the first branch. -/
def branchLabel (branches : List String) : String :=
  match branches with
  | [] => Label.fallback
  | b :: _ => Label.ofBranch b

/-- The shards with a piece added to one of them. -/
def Shards.add (m : Shards) (file : String) (part : JobSet) : Shards :=
  m.insert file (((m.get? file).getD ∅).append part)

/-- The label of a periodic's branch, if the periodic belongs to the repository. -/
def Periodic.label? (org repo : String) (j : Periodic) : Option String :=
  match j.primaryRef? with
  | some r => if r.org = org ∧ r.repo = repo then some (Label.ofBranch r.baseRef) else none
  | none => none

namespace JobSet

/-- Each job of a repository as a set of its own, with the name of its file. -/
def parts (org repo : String) (s : JobSet) : List (String × JobSet) :=
  let key := repoKey org repo
  let pre := ((s.presubmits.get? key).getD []).map fun j =>
    (fileName org repo (branchLabel j.branches) .presubmit,
      { presubmits := KeyMap.ofList [(key, [j])] : JobSet })
  let post := ((s.postsubmits.get? key).getD []).map fun j =>
    (fileName org repo (branchLabel j.branches) .postsubmit,
      { postsubmits := KeyMap.ofList [(key, [j])] : JobSet })
  let per := s.periodics.filterMap fun j =>
    (j.label? org repo).map fun l => (fileName org repo l .periodic, { periodics := [j] : JobSet })
  pre ++ post ++ per

/-- The jobs of a repository by the file that they belong to. -/
def shards (org repo : String) (s : JobSet) : Shards :=
  (s.parts org repo).foldl (fun m p => m.add p.1 p.2) ∅

end JobSet

end JobConfig
