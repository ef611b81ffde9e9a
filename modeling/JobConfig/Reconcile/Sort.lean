import JobConfig.Job.Set
import JobConfig.StableSort

/-!
# Sorting

Lists of named things are sorted by name. The arguments of a container are sorted only if it runs
the job runner, since for other commands their order matters.
-/

namespace JobConfig

/-- A container with its lists sorted. -/
def Container.sort (c : Container) : Container :=
  { c with
    volumeMounts := sortBy (·.name) c.volumeMounts
    args := if c.runsJobRunner then sortBy id c.args else c.args
    env := sortBy (·.name) c.env }

/-- A pod specification with its lists sorted. -/
def PodSpec.sort (s : PodSpec) : PodSpec :=
  { s with
    volumes := sortBy (·.name) s.volumes
    containers := (sortBy (·.name) s.containers).map Container.sort }

/-- A job with a sorted specification. -/
def Job.sortSpec (j : Job) : Job :=
  { j with spec := j.spec.map PodSpec.sort }

/-- Jobs in the order of their names, with sorted specifications. -/
def sortJobs {J : Type} [JobLike J] (jobs : List J) : List J :=
  (sortBy nameOf jobs).map (modifyJob Job.sortSpec)

/-- A job set with everything in it sorted. -/
def JobSet.sort (s : JobSet) : JobSet where
  presubmits := s.presubmits.mapValues sortJobs
  postsubmits := s.postsubmits.mapValues sortJobs
  periodics := sortJobs s.periodics

end JobConfig
