import JobConfig.Proofs.KeyMap
import JobConfig.Proofs.Named
import JobConfig.Schema.Record
import JobConfig.Schema.ToValue

/-!
# The schema as a table

The records of a job set, the fields of each, and what stands under a field. A field is a lens into
its record, so that what is proved of reading and writing is proved of all records at once.
-/

namespace JobConfig

/-- The records of the schema. -/
inductive RecordKind where
  | jobSet | presubmit | postsubmit | periodic | ref
  | podSpec | container | volume | volumeMount | envVar
deriving DecidableEq

namespace RecordKind

/-- The type of the records of a kind. -/
abbrev Record : RecordKind → Type
  | jobSet => JobSet
  | presubmit => Presubmit
  | postsubmit => Postsubmit
  | periodic => Periodic
  | ref => Ref
  | podSpec => PodSpec
  | container => Container
  | volume => Volume
  | volumeMount => VolumeMount
  | envVar => EnvVar

/-- Whether the records of a kind are read from values and not from the data directly. -/
def isStrict : RecordKind → Bool
  | jobSet | presubmit | postsubmit | periodic | ref => false
  | podSpec | container | volume | volumeMount | envVar => true

/-- What a datum is as a record of a kind, if it is one. -/
def read : (r : RecordKind) → Datum → Option r.Record
  | jobSet, d => (JobSet.read d).toOption
  | presubmit, d => (Presubmit.read .root d).toOption
  | postsubmit, d => (Postsubmit.read .root d).toOption
  | periodic, d => (Periodic.read .root d).toOption
  | ref, d => (Ref.read .root d).toOption
  | podSpec, d => (d.toValue .root).toOption.bind fun v => (PodSpec.ofValue false v).toOption
  | container, d => (d.toValue .root).toOption.bind fun v => (Container.ofValue false v).toOption
  | volume, d => (d.toValue .root).toOption.bind fun v => (Volume.ofValue false v).toOption
  | volumeMount, d =>
    (d.toValue .root).toOption.bind fun v => (VolumeMount.ofValue false v).toOption
  | envVar, d => (d.toValue .root).toOption.bind fun v => (EnvVar.ofValue false v).toOption

/-- A record as a value. -/
def toValue : (r : RecordKind) → r.Record → Value
  | jobSet => JobSet.toValue
  | presubmit => Presubmit.toValue
  | postsubmit => Postsubmit.toValue
  | periodic => Periodic.toValue
  | ref => Ref.toValue
  | podSpec => PodSpec.toValue
  | container => Container.toValue
  | volume => Volume.toValue
  | volumeMount => VolumeMount.toValue
  | envVar => EnvVar.toValue

/-- The members of a record that the schema does not name, if the kind keeps them. -/
def extra? : (r : RecordKind) → r.Record → Option Extra
  | jobSet, _ => none
  | presubmit, j => some j.extra
  | postsubmit, j => some j.extra
  | periodic, j => some j.extra
  | ref, r => some r.extra
  | podSpec, s => some s.extra
  | container, c => some c.extra
  | volume, v => some v.extra
  | volumeMount, m => some m.extra
  | envVar, v => some v.extra

end RecordKind

namespace Datum

/-- The items of a datum, or of its value. -/
def itemsOf (strict : Bool) (d : Datum) : Option (List Datum) :=
  if strict then
    match (d.toValue .root).toOption with
    | some (.sequence vs) => some (vs.map .value)
    | _ => none
  else d.asItems.toOption

/-- The text of a key. -/
def keyOf? (d : Datum) : Option String :=
  (d.asKey "a string").toOption

/-- The text of a datum, or of its value. -/
def textOf (strict : Bool) (d : Datum) : Option String :=
  if strict then (d.toValue .root).toOption.bind fun v => v.asString.toOption
  else (d.asText "a string").toOption

end Datum

/-! ### What stands under a field -/

/-- What stands under a field. Texts below the fields of a job's kind have to be strings. -/
inductive Shape where
  | record (r : RecordKind)
  | list (r : RecordKind)
  | groups (r : RecordKind)
  | spec
  | labels
  | text (strict : Bool)
  | texts (strict : Bool)
  | flag
  | number
  | reporter
deriving DecidableEq

namespace Shape

/-- What is read. -/
abbrev Content : Shape → Type
  | record r => r.Record
  | list r => List r.Record
  | groups r => KeyMap String (List r.Record)
  | spec => Option PodSpec
  | labels => KeyMap String String
  | text _ => String
  | texts _ => List String
  | flag => Bool
  | number => UInt32
  | reporter => Option Value

/-- Read a list of records. -/
def readList (r : RecordKind) (d : Datum) : Option (List r.Record) :=
  (d.itemsOf r.isStrict).bind fun ds => ds.mapM r.read

/-- Read the key and the jobs of a grouping. -/
def readGroup (r : RecordKind) (e : Datum × Datum) : Option (String × List r.Record) := do
  let key ← e.1.keyOf?
  let records ← readList r e.2
  return (key, records)

/-- Read the name and the value of a label. -/
def readLabel (e : Value × Value) : Option (String × String) := do
  let name ← e.1.asString.toOption
  let value ← e.2.asString.toOption
  return (name, value)

/-- What a datum is under a field, if it may stand there. -/
def read : (sh : Shape) → Datum → Option sh.Content
  | record r, d => r.read d
  | list r, d => readList r d
  | groups r, d =>
    (d.asEntries "a map").toOption.bind fun es => (es.mapM (readGroup r)).map .ofList
  | spec, d => (d.toValue .root).toOption.bind fun v => (PodSpec.ofValue? v).toOption
  | labels, d =>
    match (d.toValue .root).toOption with
    | some (.mapping es) => (es.mapM readLabel).map .ofList
    | _ => none
  | text strict, d => d.textOf strict
  | texts strict, d => (d.itemsOf strict).bind fun ds => ds.mapM (Datum.textOf strict)
  | flag, d => d.asBool.toOption
  | number, d => (d.toValue .root).toOption.bind fun v => v.asNumber.toOption
  | reporter, d => (Periodic.readReporter .root d).toOption

/-- What is meant where nothing is written. -/
def default : (sh : Shape) → Option sh.Content
  | record _ => none
  | list _ => some []
  | groups _ => some ∅
  | spec => some none
  | labels => some ∅
  | text _ => some ""
  | texts _ => some []
  | flag => some false
  | number => some 0
  | reporter => some none

/-- How that is written where it is. -/
def blank : Shape → Value
  | record _ | spec | reporter => .null
  | list _ | texts _ => .sequence []
  | groups _ | labels => .mapping []
  | text _ => .string ""
  | flag => .bool false
  | number => .int 0

end Shape

/-! ### Fields -/

/-- A field of a record. -/
structure Slot (ρ : Type) where
  name : String
  shape : Shape
  required : Bool := false
  get : ρ → shape.Content
  set : shape.Content → ρ → ρ

/-- What is meant where the field is not given. -/
def Slot.absent {ρ : Type} (s : Slot ρ) : Option s.shape.Content :=
  if s.required then none else s.shape.default

/-- The field of a job as one of the records that have the fields of a job. -/
def Slot.lift {J : Type} [JobLike J] (s : Slot Job) : Slot J where
  name := s.name
  shape := s.shape
  required := s.required
  get j := s.get (JobLike.toJob j)
  set a j := modifyJob (s.set a) j

/-- The field of a record that has nothing but a name. -/
def nameSlots {ρ : Type} (get : ρ → String) (set : String → ρ → ρ) : List (Slot ρ) :=
  [{ name := "name", shape := .text true, required := true, get, set }]

/-- The one field of an environment variable. -/
def EnvVar.slots : List (Slot EnvVar) :=
  nameSlots (·.name) fun s r => { r with name := s }

/-- The one field of a mount. -/
def VolumeMount.slots : List (Slot VolumeMount) :=
  nameSlots (·.name) fun s r => { r with name := s }

/-- The one field of a volume. -/
def Volume.slots : List (Slot Volume) :=
  nameSlots (·.name) fun s r => { r with name := s }

/-- The fields of a container. -/
def Container.slots : List (Slot Container) :=
  [{ name := "name", shape := .text true
     get := (·.name), set := fun s r => { r with name := s } },
   { name := "command", shape := .texts true
     get := (·.command), set := fun l r => { r with command := l } },
   { name := "args", shape := .texts true
     get := (·.args), set := fun l r => { r with args := l } },
   { name := "env", shape := .list .envVar
     get := (·.env), set := fun l r => { r with env := l } },
   { name := "volumeMounts", shape := .list .volumeMount
     get := (·.volumeMounts), set := fun l r => { r with volumeMounts := l } }]

/-- The fields of a pod specification. -/
def PodSpec.slots : List (Slot PodSpec) :=
  [{ name := "volumes", shape := .list .volume
     get := (·.volumes), set := fun l r => { r with volumes := l } },
   { name := "containers", shape := .list .container
     get := (·.containers), set := fun l r => { r with containers := l } }]

/-- The fields common to jobs of all kinds. -/
def Job.slots : List (Slot Job) :=
  [{ name := "name", shape := .text true, required := true
     get := (·.name), set := fun s r => { r with name := s } },
   { name := "labels", shape := .labels
     get := (·.labels), set := fun m r => { r with labels := m } },
   { name := "max_concurrency", shape := .number
     get := (·.maxConcurrency), set := fun n r => { r with maxConcurrency := n } },
   { name := "cluster", shape := .text true
     get := (·.cluster), set := fun s r => { r with cluster := s } },
   { name := "spec", shape := .spec
     get := (·.spec), set := fun s r => { r with spec := s } }]

/-- The fields of a reference. -/
def Ref.slots : List (Slot Ref) :=
  [{ name := "org", shape := .text false, required := true
     get := (·.org), set := fun s r => { r with org := s } },
   { name := "repo", shape := .text false, required := true
     get := (·.repo), set := fun s r => { r with repo := s } },
   { name := "base_ref", shape := .text false
     get := (·.baseRef), set := fun s r => { r with baseRef := s } }]

/-- The fields that only presubmits have. -/
def Presubmit.ownSlots : List (Slot Presubmit) :=
  [{ name := "always_run", shape := .flag
     get := (·.alwaysRun), set := fun b r => { r with alwaysRun := b } },
   { name := "run_if_changed", shape := .text false
     get := (·.runIfChanged), set := fun s r => { r with runIfChanged := s } },
   { name := "skip_if_only_changed", shape := .text false
     get := (·.skipIfOnlyChanged), set := fun s r => { r with skipIfOnlyChanged := s } },
   { name := "optional", shape := .flag
     get := (·.optional), set := fun b r => { r with optional := b } },
   { name := "skip_report", shape := .flag
     get := (·.skipReport), set := fun b r => { r with skipReport := b } },
   { name := "branches", shape := .texts false
     get := (·.branches), set := fun l r => { r with branches := l } }]

/-- The one field that only postsubmits have. -/
def Postsubmit.ownSlots : List (Slot Postsubmit) :=
  [{ name := "branches", shape := .texts false
     get := (·.branches), set := fun l r => { r with branches := l } }]

/-- The fields that only periodics have. -/
def Periodic.ownSlots : List (Slot Periodic) :=
  [{ name := "extra_refs", shape := .list .ref
     get := (·.extraRefs), set := fun l r => { r with extraRefs := l } },
   { name := "reporter_config", shape := .reporter
     get := (·.reporterConfig), set := fun v r => { r with reporterConfig := v } }]

/-- The fields of a job set. -/
def JobSet.slots : List (Slot JobSet) :=
  [{ name := "presubmits", shape := .groups .presubmit
     get := (·.presubmits), set := fun m s => { s with presubmits := m } },
   { name := "postsubmits", shape := .groups .postsubmit
     get := (·.postsubmits), set := fun m s => { s with postsubmits := m } },
   { name := "periodics", shape := .list .periodic
     get := (·.periodics), set := fun l s => { s with periodics := l } }]

/-- The fields of the records of a kind. -/
def RecordKind.slots : (r : RecordKind) → List (Slot r.Record)
  | jobSet => JobSet.slots
  | presubmit => Presubmit.ownSlots ++ Job.slots.map Slot.lift
  | postsubmit => Postsubmit.ownSlots ++ Job.slots.map Slot.lift
  | periodic => Periodic.ownSlots ++ Job.slots.map Slot.lift
  | ref => Ref.slots
  | podSpec => PodSpec.slots
  | container => Container.slots
  | volume => Volume.slots
  | volumeMount => VolumeMount.slots
  | envVar => EnvVar.slots

theorem RecordKind.nodup_names (r : RecordKind) : (r.slots.map Slot.name).Nodup := by
  cases r <;> decide

/-! ### The laws of the table -/

/-- Whether the fields of a table are independent and make up a record, together with what is not
in the table. -/
structure IsLayout {ρ φ : Type} (slots : List (Slot ρ)) (frame : ρ → φ) : Prop where
  nodup : (slots.map Slot.name).Nodup
  get_set : ∀ s ∈ slots, ∀ a r, s.get (s.set a r) = a
  get_set_of_ne : ∀ s ∈ slots, ∀ s' ∈ slots, s.name ≠ s'.name →
    ∀ a r, s.get (s'.set a r) = s.get r
  frame_set : ∀ s ∈ slots, ∀ a r, frame (s.set a r) = frame r
  ext : ∀ r r', (∀ s ∈ slots, s.get r = s.get r') → frame r = frame r' → r = r'

theorem EnvVar.isLayout : IsLayout EnvVar.slots EnvVar.extra where
  nodup := by decide
  get_set := by simp [slots, nameSlots]
  get_set_of_ne := by simp [slots, nameSlots]
  frame_set := by simp [slots, nameSlots]
  ext r r' := by
    cases r
    cases r'
    simp +contextual [slots, nameSlots]

theorem VolumeMount.isLayout : IsLayout VolumeMount.slots VolumeMount.extra where
  nodup := by decide
  get_set := by simp [slots, nameSlots]
  get_set_of_ne := by simp [slots, nameSlots]
  frame_set := by simp [slots, nameSlots]
  ext r r' := by
    cases r
    cases r'
    simp +contextual [slots, nameSlots]

theorem Volume.isLayout : IsLayout Volume.slots Volume.extra where
  nodup := by decide
  get_set := by simp [slots, nameSlots]
  get_set_of_ne := by simp [slots, nameSlots]
  frame_set := by simp [slots, nameSlots]
  ext r r' := by
    cases r
    cases r'
    simp +contextual [slots, nameSlots]

theorem Container.isLayout : IsLayout Container.slots Container.extra where
  nodup := by decide
  get_set := by simp [slots]
  get_set_of_ne := by simp [slots]
  frame_set := by simp [slots]
  ext r r' := by
    cases r
    cases r'
    simp +contextual [slots]

theorem PodSpec.isLayout : IsLayout PodSpec.slots PodSpec.extra where
  nodup := by decide
  get_set := by simp [slots]
  get_set_of_ne := by simp [slots]
  frame_set := by simp [slots]
  ext r r' := by
    cases r
    cases r'
    simp +contextual [slots]

theorem Job.isLayout : IsLayout Job.slots Job.extra where
  nodup := by decide
  get_set := by simp [slots]
  get_set_of_ne := by simp [slots]
  frame_set := by simp [slots]
  ext r r' := by
    cases r
    cases r'
    simp +contextual [slots]

theorem Ref.isLayout : IsLayout Ref.slots Ref.extra where
  nodup := by decide
  get_set := by simp [slots]
  get_set_of_ne := by simp [slots]
  frame_set := by simp [slots]
  ext r r' := by
    cases r
    cases r'
    simp +contextual [slots]

theorem Presubmit.isLayout : IsLayout Presubmit.ownSlots Presubmit.toJob where
  nodup := by decide
  get_set := by simp [ownSlots]
  get_set_of_ne := by simp [ownSlots]
  frame_set := by simp [ownSlots]
  ext r r' := by
    cases r
    cases r'
    simp +contextual [ownSlots]

theorem Postsubmit.isLayout : IsLayout Postsubmit.ownSlots Postsubmit.toJob where
  nodup := by decide
  get_set := by simp [ownSlots]
  get_set_of_ne := by simp [ownSlots]
  frame_set := by simp [ownSlots]
  ext r r' := by
    cases r
    cases r'
    simp +contextual [ownSlots]

theorem Periodic.isLayout : IsLayout Periodic.ownSlots Periodic.toJob where
  nodup := by decide
  get_set := by simp [ownSlots]
  get_set_of_ne := by simp [ownSlots]
  frame_set := by simp [ownSlots]
  ext r r' := by
    cases r
    cases r'
    simp +contextual [ownSlots]

theorem JobSet.isLayout : IsLayout JobSet.slots fun _ => () where
  nodup := by decide
  get_set := by simp [slots]
  get_set_of_ne := by simp [slots]
  frame_set := by simp [slots]
  ext r r' := by
    cases r
    cases r'
    simp +contextual [slots]

end JobConfig
