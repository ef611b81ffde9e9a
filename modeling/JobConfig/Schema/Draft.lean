import JobConfig.Document.Datum
import JobConfig.Job.Pod

/-!
# Reading records

A record is read entry by entry into a draft: a field that the schema names is set, any other entry
is kept for later. A field may be given once.
-/

namespace JobConfig

/-- A record while it is read. -/
structure Draft (ρ : Type) where
  record : ρ
  given : List String := []
  rest : List (Value × Value) := []

/-- A field of a record: its name, and how what is written under it changes the record. -/
structure Field (ε σ ρ : Type) where
  name : String
  read : σ → Except ε (ρ → ρ)

/-- The field of a name. -/
def Field.find? {ε σ ρ : Type} (fields : List (Field ε σ ρ)) (name : String) :
    Option (Field ε σ ρ) :=
  fields.find? (·.name == name)

namespace Draft

variable {ε σ ρ : Type}

/-- The draft with a field set. -/
def set (d : Draft ρ) (f : Field ε σ ρ) (x : σ) (repeated : ε) : Except ε (Draft ρ) :=
  if d.given.contains f.name then .error repeated
  else (f.read x).map fun g => { d with record := g d.record, given := f.name :: d.given }

/-- The draft with an entry kept for later. -/
def keep (d : Draft ρ) (key v : Value) : Draft ρ :=
  { d with rest := d.rest ++ [(key, v)] }

/-- The fault of the first of the `required` fields that was not given. -/
def require (d : Draft ρ) : List String → Except Fault Unit
  | [] => .ok ()
  | name :: names =>
    if d.given.contains name then d.require names else .error (.missingField name)

/-- Read one entry of a datum at `p`. -/
def stepDatum (fields : Place → List (Field Misread Datum ρ)) (p : Place) (d : Draft ρ)
    (e : Datum × Datum) : Except Misread (Draft ρ) := do
  let name ← placed p (e.1.asKey "field identifier")
  let q := Place.member p name
  match Field.find? (fields q) name with
  | some f => d.set f e.2 ⟨p, .duplicateField name⟩
  | none =>
    let v ← e.2.toValue q
    return d.keep (.string name) v

/-- Read one entry of a value. -/
def stepValue (fields : List (Field Fault Value ρ)) (d : Draft ρ) (e : Value × Value) :
    Except Fault (Draft ρ) :=
  match e.1 with
  | .string name =>
    match Field.find? fields name with
    | some f => d.set f e.2 (.duplicateField name)
    | none => .ok (d.keep e.1 e.2)
  | .int i =>
    if 0 ≤ i then .ok (d.keep e.1 e.2)
    else .error (.invalidType (.value e.1) "field identifier")
  | key => .error (.invalidType (.value key) "field identifier")

/-- Read the entries of a datum at `p`. -/
def ofData (fields : Place → List (Field Misread Datum ρ)) (p : Place)
    (entries : List (Datum × Datum)) (start : ρ) : Except Misread (Draft ρ) :=
  entries.foldlM (stepDatum fields p) { record := start }

/-- Read the entries of a value. -/
def ofValues (fields : List (Field Fault Value ρ)) (entries : List (Value × Value)) (start : ρ) :
    Except Fault (Draft ρ) :=
  entries.foldlM (stepValue fields) { record := start }

end Draft

namespace Value

/-- The fault of a value that is not what is expected. -/
def mismatch (v : Value) (expected : String) : Fault :=
  .invalidType (.value v) expected

/-- The value as a string. -/
def asString : Value → Except Fault String
  | .string s => .ok s
  | v => .error (v.mismatch "a string")

/-- The value as a number of 32 bits. -/
def asNumber : Value → Except Fault UInt32
  | .int i =>
    if 0 ≤ i ∧ i < UInt32.size then .ok (UInt32.ofNat i.toNat)
    else .error (.invalidValue (.value (.int i)) "u32")
  | v => .error (v.mismatch "u32")

/-- The items of a value, each read by `read`. A null has none if `nullable`. -/
def asListOf {α : Type} (nullable : Bool) (read : Value → Except Fault α) (v : Value) :
    Except Fault (List α) :=
  match v with
  | .sequence vs => vs.mapM read
  | v => if nullable && v == .null then .ok [] else .error (v.mismatch "a sequence")

/-- The entries of a value. A null has none if `nullable`. -/
def asEntries (nullable : Bool) (expected : String) (v : Value) :
    Except Fault (List (Value × Value)) :=
  match v with
  | .mapping es => .ok es
  | v => if nullable && v == .null then .ok [] else .error (v.mismatch expected)

/-- A map of strings. Of several entries of one key the last one counts. -/
def asStringMap (v : Value) : Except Fault (KeyMap String String) := do
  let entries ← v.asEntries false "a map"
  entries.foldlM (fun m e => return m.insert (← e.1.asString) (← e.2.asString)) ∅

mutual

/-- The fault of a key that repeats inside the value, or of a tag there, if there is any. -/
def checkKeys : Value → Except Fault Unit
  | .sequence vs => checkItems vs
  | .mapping es => checkEntries [] es
  | .tagged tag v => .error ((Value.tagged tag v).mismatch "any value")
  | .null | .bool _ | .int _ | .float _ | .string _ => .ok ()

/-- The same for each item. -/
def checkItems : List Value → Except Fault Unit
  | [] => .ok ()
  | v :: vs => do
    checkKeys v
    checkItems vs

/-- The same for entries after those with the keys `seen`. -/
def checkEntries (seen : List Value) : List (Value × Value) → Except Fault Unit
  | [] => .ok ()
  | (k, v) :: es => do
    checkKeys k
    if seen.any (·.sameKey k) then .error (.duplicateEntry k)
    else
      checkKeys v
      checkEntries (k :: seen) es

end

/-- Keep an entry that the schema does not name. -/
def addExtra (m : Extra) (e : Value × Value) : Except Fault Extra := do
  let name ← e.1.asString
  e.2.checkKeys
  return m.insert name e.2

/-- The entries that the schema does not name. Of several of one name the last one counts. -/
def extraOf (rest : List (Value × Value)) : Except Fault Extra :=
  rest.foldlM addExtra ∅

end Value

end JobConfig
