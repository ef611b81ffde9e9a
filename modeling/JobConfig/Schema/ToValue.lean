import JobConfig.Job.Set

/-!
# Records as values

How job sets are written. A field with its default value is left out. A job lists its common
fields, the members that the schema does not name, and then the fields of its kind; every other
record lists its fields and then those members.
-/

namespace JobConfig

/-- An entry whose key is a text. -/
def entry (name : String) (v : Value) : Value × Value :=
  (.string name, v)

/-- A text, unless it is empty. -/
def textEntry (name s : String) : List (Value × Value) :=
  if s = "" then [] else [entry name (.string s)]

/-- A flag, unless it is false. -/
def flagEntry (name : String) (b : Bool) : List (Value × Value) :=
  if b then [entry name (.bool true)] else []

/-- A list, unless it is empty. -/
def listEntry {α : Type} (name : String) (toValue : α → Value) (as : List α) :
    List (Value × Value) :=
  if as.isEmpty then [] else [entry name (.sequence (as.map toValue))]

/-- The members that the schema does not name. -/
def Extra.toEntries (m : Extra) : List (Value × Value) :=
  m.entries.map fun e => entry e.1 e.2

/-- An environment variable as a value. -/
def EnvVar.toValue (v : EnvVar) : Value :=
  .mapping (entry "name" (.string v.name) :: v.extra.toEntries)

/-- A mount as a value. -/
def VolumeMount.toValue (m : VolumeMount) : Value :=
  .mapping (entry "name" (.string m.name) :: m.extra.toEntries)

/-- A volume as a value. -/
def Volume.toValue (v : Volume) : Value :=
  .mapping (entry "name" (.string v.name) :: v.extra.toEntries)

/-- A container as a value. -/
def Container.toValue (c : Container) : Value :=
  .mapping <|
    textEntry "name" c.name ++
    listEntry "command" .string c.command ++
    listEntry "args" .string c.args ++
    listEntry "env" EnvVar.toValue c.env ++
    listEntry "volumeMounts" VolumeMount.toValue c.volumeMounts ++
    c.extra.toEntries

/-- A pod specification as a value. -/
def PodSpec.toValue (s : PodSpec) : Value :=
  .mapping <|
    listEntry "volumes" Volume.toValue s.volumes ++
    listEntry "containers" Container.toValue s.containers ++
    s.extra.toEntries

/-- A map of texts, unless it is empty. -/
def mapEntry (name : String) (m : KeyMap String String) : List (Value × Value) :=
  if m.isEmpty then []
  else [entry name (.mapping (m.entries.map fun e => entry e.1 (.string e.2)))]

/-- A positive number. -/
def numberEntry (name : String) (n : UInt32) : List (Value × Value) :=
  if n = 0 then [] else [entry name (.int n.toNat)]

/-- What is under an optional field. -/
def optionEntry {α : Type} (name : String) (toValue : α → Value) :
    Option α → List (Value × Value)
  | none => []
  | some a => [entry name (toValue a)]

/-- The common fields of a job, and the members that the schema does not name. -/
def Job.toEntries (j : Job) : List (Value × Value) :=
  entry "name" (.string j.name) ::
    mapEntry "labels" j.labels ++
    numberEntry "max_concurrency" j.maxConcurrency ++
    textEntry "cluster" j.cluster ++
    optionEntry "spec" PodSpec.toValue j.spec ++
    j.extra.toEntries

/-- A presubmit as a value. -/
def Presubmit.toValue (j : Presubmit) : Value :=
  .mapping <|
    j.toJob.toEntries ++
    flagEntry "always_run" j.alwaysRun ++
    textEntry "run_if_changed" j.runIfChanged ++
    textEntry "skip_if_only_changed" j.skipIfOnlyChanged ++
    flagEntry "optional" j.optional ++
    flagEntry "skip_report" j.skipReport ++
    listEntry "branches" .string j.branches

/-- A postsubmit as a value. -/
def Postsubmit.toValue (j : Postsubmit) : Value :=
  .mapping (j.toJob.toEntries ++ listEntry "branches" .string j.branches)

/-- A reference as a value. -/
def Ref.toValue (r : Ref) : Value :=
  .mapping <|
    entry "org" (.string r.org) :: entry "repo" (.string r.repo) ::
    textEntry "base_ref" r.baseRef ++
    r.extra.toEntries

/-- A periodic as a value. -/
def Periodic.toValue (j : Periodic) : Value :=
  .mapping <|
    j.toJob.toEntries ++
    listEntry "extra_refs" Ref.toValue j.extraRefs ++
    optionEntry "reporter_config" id j.reporterConfig

/-- The groupings of a kind. A grouping without jobs is listed. -/
def groupsEntry {J : Type} (name : String) (toValue : J → Value) (m : KeyMap String (List J)) :
    List (Value × Value) :=
  if m.isEmpty then []
  else [entry name (.mapping (m.entries.map fun g => entry g.1 (.sequence (g.2.map toValue))))]

/-- A job set as a value. -/
def JobSet.toValue (s : JobSet) : Value :=
  .mapping <|
    groupsEntry "presubmits" Presubmit.toValue s.presubmits ++
    groupsEntry "postsubmits" Postsubmit.toValue s.postsubmits ++
    listEntry "periodics" Periodic.toValue s.periodics

end JobConfig
