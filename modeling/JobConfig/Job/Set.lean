import JobConfig.Job.Basic
import JobConfig.Kind

/-!
# Job sets

The jobs of a file or of a run: presubmits and postsubmits grouped by repository, and periodics.
-/

namespace JobConfig

/-- Jobs by kind, and by repository where the kind belongs to one. -/
structure JobSet where
  presubmits : KeyMap String (List Presubmit) := ∅
  postsubmits : KeyMap String (List Postsubmit) := ∅
  periodics : List Periodic := []
deriving DecidableEq, Inhabited

/-- The name under which a job set groups the jobs of a repository. -/
def repoKey (org repo : String) : String :=
  org ++ "/" ++ repo

namespace JobSet

instance : EmptyCollection JobSet := ⟨{}⟩

/-- Whether there is no grouping and no periodic. A grouping without jobs counts. -/
def isEmpty (s : JobSet) : Bool :=
  s.presubmits.isEmpty && s.postsubmits.isEmpty && s.periodics.isEmpty

/-- How many jobs the groupings of a map hold. -/
def groupedCount {J : Type} (m : KeyMap String (List J)) : Nat :=
  m.values.flatten.length

/-- The number of jobs. -/
def count (s : JobSet) : Nat :=
  groupedCount s.presubmits + groupedCount s.postsubmits + s.periodics.length

/-- The jobs of each grouping of `a` followed by those of `b`. -/
def appendGroups {J : Type} (a b : KeyMap String (List J)) : KeyMap String (List J) :=
  b.entries.foldl (fun m g => m.insert g.1 ((m.get? g.1).getD [] ++ g.2)) a

/-- The jobs of `a` followed by those of `b`, grouping by grouping. -/
def append (a b : JobSet) : JobSet where
  presubmits := appendGroups a.presubmits b.presubmits
  postsubmits := appendGroups a.postsubmits b.postsubmits
  periodics := a.periodics ++ b.periodics

end JobSet

end JobConfig
