import JobConfig.KeyMap
import JobConfig.Value

/-!
# Pod specifications

How a job runs. A record keeps the members that this library does not know as its `extra`.
-/

namespace JobConfig

/-- The members of a record that the schema does not name. -/
abbrev Extra := KeyMap String Value

/-- An environment variable of a container. -/
structure EnvVar where
  name : String
  extra : Extra := ∅
deriving DecidableEq, Inhabited

/-- A volume mounted into a container. -/
structure VolumeMount where
  name : String
  extra : Extra := ∅
deriving DecidableEq, Inhabited

/-- A volume of a pod. -/
structure Volume where
  name : String
  extra : Extra := ∅
deriving DecidableEq, Inhabited

/-- A container of a pod. -/
structure Container where
  name : String := ""
  command : List String := []
  args : List String := []
  env : List EnvVar := []
  volumeMounts : List VolumeMount := []
  extra : Extra := ∅
deriving DecidableEq, Inhabited

/-- What a job runs. -/
structure PodSpec where
  volumes : List Volume := []
  containers : List Container := []
  extra : Extra := ∅
deriving DecidableEq, Inhabited

/-- The command of a container that hands its arguments to the job runner. -/
def runnerCommand : List String := ["ci-operator"]

/-- Whether the container's command is the job runner and nothing else. -/
def Container.runsJobRunner (c : Container) : Bool :=
  c.command == runnerCommand

end JobConfig
