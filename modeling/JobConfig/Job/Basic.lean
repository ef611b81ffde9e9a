import JobConfig.Job.Pod

/-!
# Jobs

The three kinds of jobs share the fields of `Job`. A job made by the generator carries a marker
label: `newly-generated` in the run that made it, `generated` once it is on disk.
-/

namespace JobConfig

/-- The fields that jobs of every kind have. -/
structure Job where
  name : String
  labels : KeyMap String String := ∅
  maxConcurrency : UInt32 := 0
  cluster : String := ""
  spec : Option PodSpec := none
  extra : Extra := ∅
deriving DecidableEq, Inhabited

/-- A job that runs before a change is merged. -/
structure Presubmit extends Job where
  alwaysRun : Bool := false
  runIfChanged : String := ""
  skipIfOnlyChanged : String := ""
  optional : Bool := false
  skipReport : Bool := false
  branches : List String := []
deriving DecidableEq, Inhabited

/-- A job that runs after a change is merged. -/
structure Postsubmit extends Job where
  branches : List String := []
deriving DecidableEq, Inhabited

/-- A repository, and the branch of it that a periodic job runs against. -/
structure Ref where
  org : String
  repo : String
  baseRef : String := ""
  extra : Extra := ∅
deriving DecidableEq, Inhabited

/-- A job that runs by the clock. -/
structure Periodic extends Job where
  extraRefs : List Ref := []
  reporterConfig : Option Value := none
deriving DecidableEq, Inhabited

/-- The repository that a periodic job belongs to. -/
def Periodic.primaryRef? (j : Periodic) : Option Ref :=
  j.extraRefs.head?

/-- The records that have the fields of a job. -/
class JobLike (J : Type) where
  toJob : J → Job
  withJob : J → Job → J
  toJob_withJob : ∀ j b, toJob (withJob j b) = b
  withJob_toJob : ∀ j, withJob j (toJob j) = j
  withJob_withJob : ∀ j a b, withJob (withJob j a) b = withJob j b

instance : JobLike Presubmit where
  toJob := Presubmit.toJob
  withJob j b := { j with toJob := b }
  toJob_withJob _ _ := rfl
  withJob_toJob _ := rfl
  withJob_withJob _ _ _ := rfl

instance : JobLike Postsubmit where
  toJob := Postsubmit.toJob
  withJob j b := { j with toJob := b }
  toJob_withJob _ _ := rfl
  withJob_toJob _ := rfl
  withJob_withJob _ _ _ := rfl

instance : JobLike Periodic where
  toJob := Periodic.toJob
  withJob j b := { j with toJob := b }
  toJob_withJob _ _ := rfl
  withJob_toJob _ := rfl
  withJob_withJob _ _ _ := rfl

/-- The name of a job of any kind. -/
def nameOf {J : Type} [JobLike J] (j : J) : String :=
  (JobLike.toJob j).name

/-- The job with its common fields changed. -/
def modifyJob {J : Type} [JobLike J] (f : Job → Job) (j : J) : J :=
  JobLike.withJob j (f (JobLike.toJob j))

namespace Job

/-- The label whose value is the marker of a generated job. -/
def markerLabel : String := "ci-operator.openshift.io/prowgen-controlled"

/-- The marker of a job that an earlier run generated. -/
def generated : String := "generated"

/-- The marker of a job that the present run generated. -/
def newlyGenerated : String := "newly-generated"

/-- The label of a job that promotes what it has built. -/
def promotionLabel : String := "ci-operator.openshift.io/is-promotion"

/-- The marker of a generated job. -/
def marker? (j : Job) : Option String :=
  j.labels.get? markerLabel

/-- Whether the generator made the job. -/
def isGenerated (j : Job) : Bool :=
  j.marker?.isSome

/-- Whether the generator made the job, but not in the present run. -/
def isStale (j : Job) : Bool :=
  match j.marker? with
  | some m => m != newlyGenerated
  | none => false

end Job

end JobConfig
