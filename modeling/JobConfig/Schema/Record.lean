import JobConfig.Job.Set
import JobConfig.Schema.Draft

/-!
# The schema of job sets

How job sets are read. The fields of a job's kind, its references, and the groupings are read from
the data directly; the fields common to all kinds and everything below them are read from values,
so their strings have to be strings, and their faults are at the place of the job. A null below a
job is no empty list or record; in a specification that stands alone it is one, which the readers
call `nullable`.
-/

namespace JobConfig

/-- The one field of an environment variable. -/
def EnvVar.fields : List (Field Fault Value EnvVar) :=
  [⟨"name", fun v => v.asString.map fun s r => { r with name := s }⟩]

/-- Read an environment variable. -/
def EnvVar.ofValue (nullable : Bool) (v : Value) : Except Fault EnvVar := do
  let d ← Draft.ofValues EnvVar.fields (← v.asEntries nullable "struct EnvVar") { name := "" }
  d.require ["name"]
  return { d.record with extra := ← Value.extraOf d.rest }

/-- The one field of a mount. -/
def VolumeMount.fields : List (Field Fault Value VolumeMount) :=
  [⟨"name", fun v => v.asString.map fun s r => { r with name := s }⟩]

/-- Read a mount. -/
def VolumeMount.ofValue (nullable : Bool) (v : Value) : Except Fault VolumeMount := do
  let entries ← v.asEntries nullable "struct VolumeMount"
  let d ← Draft.ofValues VolumeMount.fields entries { name := "" }
  d.require ["name"]
  return { d.record with extra := ← Value.extraOf d.rest }

/-- The one field of a volume. -/
def Volume.fields : List (Field Fault Value Volume) :=
  [⟨"name", fun v => v.asString.map fun s r => { r with name := s }⟩]

/-- Read a volume. -/
def Volume.ofValue (nullable : Bool) (v : Value) : Except Fault Volume := do
  let d ← Draft.ofValues Volume.fields (← v.asEntries nullable "struct Volume") { name := "" }
  d.require ["name"]
  return { d.record with extra := ← Value.extraOf d.rest }

/-- The fields of a container. -/
def Container.fields (nullable : Bool) : List (Field Fault Value Container) :=
  let strings := Value.asListOf nullable Value.asString
  let settings := Value.asListOf nullable (EnvVar.ofValue nullable)
  let mounts := Value.asListOf nullable (VolumeMount.ofValue nullable)
  [⟨"name", fun v => v.asString.map fun s r => { r with name := s }⟩,
   ⟨"command", fun v => (strings v).map fun l r => { r with command := l }⟩,
   ⟨"args", fun v => (strings v).map fun l r => { r with args := l }⟩,
   ⟨"env", fun v => (settings v).map fun l r => { r with env := l }⟩,
   ⟨"volumeMounts", fun v => (mounts v).map fun l r => { r with volumeMounts := l }⟩]

/-- Read a container. -/
def Container.ofValue (nullable : Bool) (v : Value) : Except Fault Container := do
  let entries ← v.asEntries nullable "struct Container"
  let d ← Draft.ofValues (Container.fields nullable) entries {}
  return { d.record with extra := ← Value.extraOf d.rest }

/-- The fields of a pod specification. -/
def PodSpec.fields (nullable : Bool) : List (Field Fault Value PodSpec) :=
  let volumes := Value.asListOf nullable (Volume.ofValue nullable)
  let containers := Value.asListOf nullable (Container.ofValue nullable)
  [⟨"volumes", fun v => (volumes v).map fun l r => { r with volumes := l }⟩,
   ⟨"containers", fun v => (containers v).map fun l r => { r with containers := l }⟩]

/-- Read a pod specification. -/
def PodSpec.ofValue (nullable : Bool) (v : Value) : Except Fault PodSpec := do
  let entries ← v.asEntries nullable "struct PodSpec"
  let d ← Draft.ofValues (PodSpec.fields nullable) entries {}
  return { d.record with extra := ← Value.extraOf d.rest }

/-- Read a pod specification that may be left out. -/
def PodSpec.ofValue? : Value → Except Fault (Option PodSpec)
  | .null => .ok none
  | v => (PodSpec.ofValue false v).map some

/-- The fields common to jobs of all kinds. -/
def Job.fields : List (Field Fault Value Job) :=
  [⟨"name", fun v => v.asString.map fun s r => { r with name := s }⟩,
   ⟨"labels", fun v => v.asStringMap.map fun m r => { r with labels := m }⟩,
   ⟨"max_concurrency", fun v => v.asNumber.map fun n r => { r with maxConcurrency := n }⟩,
   ⟨"cluster", fun v => v.asString.map fun s r => { r with cluster := s }⟩,
   ⟨"spec", fun v => (PodSpec.ofValue? v).map fun s r => { r with spec := s }⟩]

/-- Read the common fields of a job from the entries that its kind does not name. -/
def Job.ofEntries (entries : List (Value × Value)) : Except Fault Job := do
  let d ← Draft.ofValues Job.fields entries { name := "" }
  d.require ["name"]
  return { d.record with extra := ← Value.extraOf d.rest }

namespace Datum

/-- Read the items from the `i`-th on, each at its place. -/
def readItems {α : Type} (read : Place → Datum → Except Misread α) (p : Place) (i : Nat) :
    List Datum → Except Misread (List α)
  | [] => .ok []
  | d :: ds => do
    let a ← read (.item p i) d
    let as ← readItems read p (i + 1) ds
    return a :: as

/-- Read a list. -/
def readList {α : Type} (read : Place → Datum → Except Misread α) (p : Place) (d : Datum) :
    Except Misread (List α) := do
  readItems read p 0 (← placed p d.asItems)

/-- Read a string. -/
def readText (p : Place) (d : Datum) : Except Misread String :=
  placed p (d.asText "a string")

/-- Read a boolean. -/
def readBool (p : Place) (d : Datum) : Except Misread Bool :=
  placed p d.asBool

end Datum

/-- The fields of a reference, at their places. -/
def Ref.fields (q : Place) : List (Field Misread Datum Ref) :=
  [⟨"org", fun d => (d.readText q).map fun s r => { r with org := s }⟩,
   ⟨"repo", fun d => (d.readText q).map fun s r => { r with repo := s }⟩,
   ⟨"base_ref", fun d => (d.readText q).map fun s r => { r with baseRef := s }⟩]

/-- Read a reference. -/
def Ref.read (p : Place) (d : Datum) : Except Misread Ref := do
  let entries ← placed p (d.asEntries "struct Refs")
  let draft ← Draft.ofData Ref.fields p entries { org := "", repo := "" }
  placed p (draft.require ["org", "repo"])
  return { draft.record with extra := ← placed p (Value.extraOf draft.rest) }

/-- The fields that only presubmits have. -/
def Presubmit.fields (q : Place) : List (Field Misread Datum Presubmit) :=
  [⟨"always_run", fun d => (d.readBool q).map fun b r => { r with alwaysRun := b }⟩,
   ⟨"run_if_changed", fun d => (d.readText q).map fun s r => { r with runIfChanged := s }⟩,
   ⟨"skip_if_only_changed", fun d =>
     (d.readText q).map fun s r => { r with skipIfOnlyChanged := s }⟩,
   ⟨"optional", fun d => (d.readBool q).map fun b r => { r with optional := b }⟩,
   ⟨"skip_report", fun d => (d.readBool q).map fun b r => { r with skipReport := b }⟩,
   ⟨"branches", fun d =>
     (d.readList Datum.readText q).map fun l r => { r with branches := l }⟩]

/-- The fields that only postsubmits have. -/
def Postsubmit.fields (q : Place) : List (Field Misread Datum Postsubmit) :=
  [⟨"branches", fun d =>
    (d.readList Datum.readText q).map fun l r => { r with branches := l }⟩]

/-- Read a reporter configuration that may be left out. The fault of a null that is none is at the
place of the job. -/
def Periodic.readReporter (q : Place) (d : Datum) : Except Misread (Option Value) := do
  let p := match q with
    | .member p _ => p
    | p => p
  if ← placed p d.isAbsent then return none
  else return some (← d.toTaggedValue q)

/-- The fields that only periodics have. -/
def Periodic.fields (q : Place) : List (Field Misread Datum Periodic) :=
  [⟨"extra_refs", fun d => (d.readList Ref.read q).map fun l r => { r with extraRefs := l }⟩,
   ⟨"reporter_config", fun d =>
     (Periodic.readReporter q d).map fun v r => { r with reporterConfig := v }⟩]

/-- Read a job of a kind whose own fields are `fields`; the rest are the common fields. -/
def readJob {J : Type} [JobLike J] (fields : Place → List (Field Misread Datum J)) (start : J)
    (expected : String) (p : Place) (d : Datum) : Except Misread J := do
  let entries ← placed p (d.asEntries expected)
  let draft ← Draft.ofData fields p entries start
  return JobLike.withJob draft.record (← placed p (Job.ofEntries draft.rest))

/-- Read a presubmit. -/
def Presubmit.read : Place → Datum → Except Misread Presubmit :=
  readJob Presubmit.fields { name := "" } "struct Presubmit"

/-- Read a postsubmit. -/
def Postsubmit.read : Place → Datum → Except Misread Postsubmit :=
  readJob Postsubmit.fields { name := "" } "struct Postsubmit"

/-- Read a periodic. -/
def Periodic.read : Place → Datum → Except Misread Periodic :=
  readJob Periodic.fields { name := "" } "struct Periodic"

/-- Read the groupings of a kind. Of several groupings of one key the last one counts. -/
def readGroups {J : Type} (read : Place → Datum → Except Misread J) (p : Place) (d : Datum) :
    Except Misread (KeyMap String (List J)) := do
  let entries ← placed p (d.asEntries "a map")
  entries.foldlM (fun m e => do
    let key ← placed p (e.1.asKey "a string")
    return m.insert key (← e.2.readList read (.member p key))) ∅

namespace JobSet

/-- The fields of a job set. -/
def fields (q : Place) : List (Field Misread Datum JobSet) :=
  [⟨"presubmits", fun d =>
     (readGroups Presubmit.read q d).map fun m s => { s with presubmits := m }⟩,
   ⟨"postsubmits", fun d =>
     (readGroups Postsubmit.read q d).map fun m s => { s with postsubmits := m }⟩,
   ⟨"periodics", fun d =>
     (d.readList Periodic.read q).map fun l s => { s with periodics := l }⟩]

/-- Whether a job set has a field of this name. Other members of a document are skipped. -/
def hasField (name : String) : Bool :=
  (Field.find? (fields .root) name).isSome

/-- Read one entry of a job set. -/
def step (d : Draft JobSet) (e : Datum × Datum) : Except Misread (Draft JobSet) := do
  let name ← placed .root (e.1.asKey "field identifier")
  match Field.find? (fields (.member .root name)) name with
  | some f => d.set f e.2 ⟨.root, .duplicateField name⟩
  | none => return d

/-- Read a job set. -/
def read (d : Datum) : Except Misread JobSet := do
  let entries ← placed .root (d.asEntries "struct JobSet")
  let draft ← entries.foldlM step { record := ∅ }
  return draft.record

/-- Read a job set from a value. -/
def ofValue (v : Value) : Except Misread JobSet :=
  read (.value v)

end JobSet

end JobConfig
