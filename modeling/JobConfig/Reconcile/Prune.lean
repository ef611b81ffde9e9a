import JobConfig.Job.Set

/-!
# Pruning

Generated jobs that the present run has not renewed are dropped, and the marker of the others is
made final.
-/

namespace JobConfig

/-- The job with its marker made final, if it has one. -/
def Job.finalize (j : Job) : Job :=
  if j.isGenerated then { j with labels := j.labels.insert markerLabel generated } else j

section

variable {J : Type} [JobLike J]

/-- The jobs that are not stale, made final. -/
def pruneJobs (jobs : List J) : List J :=
  (jobs.filter fun j => !(JobLike.toJob j).isStale).map (modifyJob Job.finalize)

/-- The groupings that keep a job. -/
def pruneGroups (m : KeyMap String (List J)) : KeyMap String (List J) :=
  (m.mapValues pruneJobs).filter fun _ jobs => !jobs.isEmpty

end

/-- A job set without stale jobs and empty groupings. -/
def JobSet.prune (s : JobSet) : JobSet where
  presubmits := pruneGroups s.presubmits
  postsubmits := pruneGroups s.postsubmits
  periodics := pruneJobs s.periodics

end JobConfig
