import JobConfig.Job.Set

/-!
# Merging generated jobs into those on disk

Jobs are matched by name within their grouping. A generated job replaces the one on disk, except
for the fields that are tuned by hand. A job on disk that was not generated stays if the generator
has not considered its name at all.
-/

namespace JobConfig

/-- A set of names. -/
abbrev Names := KeyMap String Unit

/-- The set of the names in a list. -/
def Names.ofList (ns : List String) : Names :=
  KeyMap.ofList (ns.map (·, ()))

/-- The names with those of a list added. -/
def Names.addAll (m : Names) (ns : List String) : Names :=
  ns.foldl (fun m n => m.insert n ()) m

/-- The names that the generator has considered, by kind. -/
structure Considered where
  presubmits : Names := ∅
  postsubmits : Names := ∅
  periodics : Names := ∅
deriving DecidableEq

namespace Considered

/-- The names with those of a job set added. -/
def add (c : Considered) (s : JobSet) : Considered where
  presubmits := c.presubmits.addAll (s.presubmits.values.flatten.map nameOf)
  postsubmits := c.postsubmits.addAll (s.postsubmits.values.flatten.map nameOf)
  periodics := c.periodics.addAll (s.periodics.map nameOf)

/-- The names of the jobs of a set. -/
def ofJobSet (s : JobSet) : Considered :=
  ({} : Considered).add s

/-- The names of the jobs of several sets. -/
def ofJobSets (ss : List JobSet) : Considered :=
  ss.foldl add {}

/-- The same names for each kind. -/
def flat (ns : List String) : Considered :=
  ⟨Names.ofList ns, Names.ofList ns, Names.ofList ns⟩

end Considered

/-- The jobs by name; of several jobs of one name the last one counts. -/
def byName {J : Type} [JobLike J] (jobs : List J) : KeyMap String J :=
  KeyMap.ofList (jobs.map fun j => (nameOf j, j))

/-- The cluster of the old job, unless it has none. -/
def keptCluster (old new : Job) : String :=
  if old.cluster = "" then new.cluster else old.cluster

/-- A generated presubmit with what is tuned by hand on the old one. A filter that is generated
wins, and `alwaysRun` with it. -/
def Presubmit.merge (old new : Presubmit) : Presubmit :=
  { new with
    maxConcurrency := old.maxConcurrency
    cluster := keptCluster old.toJob new.toJob
    optional := old.optional
    skipReport := old.skipReport
    runIfChanged := if new.runIfChanged = "" then old.runIfChanged else new.runIfChanged
    skipIfOnlyChanged :=
      if new.skipIfOnlyChanged = "" then old.skipIfOnlyChanged else new.skipIfOnlyChanged
    alwaysRun :=
      if new.runIfChanged = "" ∧ new.skipIfOnlyChanged = "" then old.alwaysRun
      else new.alwaysRun }

/-- A generated postsubmit with what is tuned by hand on the old one. A job that promotes keeps its
generated concurrency. -/
def Postsubmit.merge (old new : Postsubmit) : Postsubmit :=
  { new with
    maxConcurrency :=
      if new.labels.contains Job.promotionLabel then new.maxConcurrency else old.maxConcurrency
    cluster := keptCluster old.toJob new.toJob }

/-- A generated periodic with what is tuned by hand on the old one. -/
def Periodic.merge (old new : Periodic) : Periodic :=
  { new with
    maxConcurrency := old.maxConcurrency
    cluster := keptCluster old.toJob new.toJob
    reporterConfig := old.reporterConfig }

section

variable {J : Type} [JobLike J]

/-- The jobs of a grouping after new ones are merged in: those with the new names, and then the old
ones that were not considered, both in the order of their names. -/
def mergeJobs (merge : J → J → J) (considered : Names) (old new : List J) : List J :=
  let olds := byName old
  let news := byName new
  let renewed := news.entries.map fun e => ((olds.get? e.1).map (merge · e.2)).getD e.2
  let kept := olds.filter fun n _ => !news.contains n && !considered.contains n
  renewed ++ kept.values

/-- The groupings after those of `new` are merged in. -/
def mergeGroups (merge : J → J → J) (considered : Names) (old new : KeyMap String (List J)) :
    KeyMap String (List J) :=
  new.entries.foldl
    (fun m g => m.insert g.1 (mergeJobs merge considered ((m.get? g.1).getD []) g.2)) old

end

/-- A job set after the generated jobs of `new` are merged in. -/
def JobSet.merge (considered : Considered) (old new : JobSet) : JobSet where
  presubmits := mergeGroups Presubmit.merge considered.presubmits old.presubmits new.presubmits
  postsubmits :=
    mergeGroups Postsubmit.merge considered.postsubmits old.postsubmits new.postsubmits
  periodics :=
    if new.periodics.isEmpty then old.periodics
    else mergeJobs Periodic.merge considered.periodics old.periodics new.periodics

end JobConfig
