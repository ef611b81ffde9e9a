import JobConfig.Document.Fault
import JobConfig.Document.Scalar
import JobConfig.KeyMap

/-!
# Data to read records from

A datum is a value, or a part of a text whose scalars keep their spelling: where a string is
expected, any written scalar is its text, and where a collection is expected, nothing written is an
empty one. A value is read there without its tags. Everything else is read through the value that a
datum stands for.
-/

namespace JobConfig

/-- What a record is read from. -/
inductive Datum where
  | value (v : Value)
  | scalar (w : Written)
  | sequence (tag : Option String) (items : List Datum)
  | mapping (tag : Option String) (entries : List (Datum × Datum))
  /-- The text cannot be read any further. -/
  | broken
deriving Inhabited

namespace Written

/-- The fault of a scalar in the place of something else. -/
def mismatch (w : Written) (expected : String) : Fault :=
  match w.meaning with
  | .value v => .invalidType (.value v) expected
  | .huge i => .invalidType (.huge i) expected
  | .unfit _ => .invalidValue (.value (.string w.text)) expected

/-- The value of a scalar. -/
def value (w : Written) (expected : String) : Except Fault Value :=
  match w.meaning with
  | .value v => .ok v
  | .huge i => .error (.invalidType (.huge i) expected)
  | .unfit promised => .error (.invalidValue (.value (.string w.text)) promised)

/-- The boolean of a scalar. -/
def bool (w : Written) : Except Fault Bool :=
  let readable := w.style = .plain ∨ (w.style = .literal ∧ w.tag = some (Scalar.coreTag "bool"))
  match if readable then Scalar.bool? w.text else none with
  | some b => .ok b
  | none => .error (w.mismatch "a boolean")

end Written

namespace Datum

/-- Whether a tag is one that values of jobs cannot have. -/
def hasLocalTag (tag : Option String) : Bool :=
  (Scalar.localName? tag).isSome

/-- The fault of a datum that is not what is expected. -/
def mismatch (d : Datum) (expected : String) : Fault :=
  match d with
  | .value v => .invalidType (.value v) expected
  | .scalar w => w.mismatch expected
  | .sequence .. => .invalidType (.value (.sequence [])) expected
  | .mapping .. => .invalidType (.value (.mapping [])) expected
  | .broken => .syntaxError

/-- A datum without the tags above a value. -/
def untagged : Datum → Datum
  | .value v => .value v.untagged
  | d => d

/-- The text of a key. The tags above the value of a key are not taken off. -/
def asKey (d : Datum) (expected : String) : Except Fault String :=
  match d with
  | .value (.string s) => .ok s
  | .scalar w => .ok w.text
  | d => .error (d.mismatch expected)

/-- The datum as a text. -/
def asText (d : Datum) (expected : String) : Except Fault String :=
  d.untagged.asKey expected

/-- The datum as a boolean. -/
def asBool (d : Datum) : Except Fault Bool :=
  match d.untagged with
  | .value (.bool b) => .ok b
  | .scalar w => w.bool
  | d => .error (d.mismatch "a boolean")

/-- The items of a datum. -/
def asItems (d : Datum) : Except Fault (List Datum) :=
  match d.untagged with
  | .value .null => .ok []
  | .value (.sequence vs) => .ok (vs.map .value)
  | .scalar w => if w.isBlank then .ok [] else .error (w.mismatch "a sequence")
  | .sequence _ ds => .ok ds
  | d => .error (d.mismatch "a sequence")

/-- The entries of a datum. -/
def asEntries (d : Datum) (expected : String) : Except Fault (List (Datum × Datum)) :=
  match d.untagged with
  | .value .null => .ok []
  | .value (.mapping es) => .ok (es.map fun e => (.value e.1, .value e.2))
  | .scalar w => if w.isBlank then .ok [] else .error (w.mismatch expected)
  | .mapping _ es => .ok es
  | d => .error (d.mismatch expected)

/-- The place of what a key is bound to. -/
def placeUnder (p : Place) (key : Datum) : Place :=
  match key with
  | .value (.string s) => .member p s
  | .scalar w => .member p w.text
  | _ => .unnamed p

mutual

/-- The value of a datum. Keys may repeat in it. -/
def toValue (p : Place) : Datum → Except Misread Value
  | .value v => .ok v
  | .scalar w =>
    placed p (if hasLocalTag w.tag then .error .localTag else w.value "any value")
  | .sequence tag ds =>
    if hasLocalTag tag then .error ⟨p, .localTag⟩ else (toValues p 0 ds).map .sequence
  | .mapping tag es =>
    if hasLocalTag tag then .error ⟨p, .localTag⟩ else (toValueEntries p es).map .mapping
  | .broken => .error ⟨p, .syntaxError⟩

/-- The values of the items from the `i`-th on. -/
def toValues (p : Place) (i : Nat) : List Datum → Except Misread (List Value)
  | [] => .ok []
  | d :: ds => do
    let v ← toValue (.item p i) d
    let vs ← toValues p (i + 1) ds
    return v :: vs

/-- The values of entries. -/
def toValueEntries (p : Place) : List (Datum × Datum) → Except Misread (List (Value × Value))
  | [] => .ok []
  | (k, x) :: es => do
    let key ← toValue p k
    let v ← toValue (placeUnder p k) x
    let vs ← toValueEntries p es
    return (key, v) :: vs

end

/-- The value under a local tag, or as it is. -/
def retag (tag : Option String) (v : Value) : Value :=
  match Scalar.localName? tag with
  | some name => .tagged name v
  | none => v

mutual

/-- The value of a datum, with its local tags. No key may repeat in it. -/
def toTaggedValue (p : Place) : Datum → Except Misread Value
  | .value v => .ok v
  | .scalar w => placed p ((w.value "any YAML value").map (retag w.tag))
  | .sequence tag ds => (toTaggedValues p 0 ds).map fun vs => retag tag (.sequence vs)
  | .mapping tag es => (toTaggedEntries p [] es).map fun vs => retag tag (.mapping vs)
  | .broken => .error ⟨p, .syntaxError⟩

/-- The values of the items from the `i`-th on. -/
def toTaggedValues (p : Place) (i : Nat) : List Datum → Except Misread (List Value)
  | [] => .ok []
  | d :: ds => do
    let v ← toTaggedValue (.item p i) d
    let vs ← toTaggedValues p (i + 1) ds
    return v :: vs

/-- The values of entries after those with the keys `seen`. -/
def toTaggedEntries (p : Place) (seen : List Value) :
    List (Datum × Datum) → Except Misread (List (Value × Value))
  | [] => .ok []
  | (k, x) :: es => do
    let key ← toTaggedValue p k
    if seen.any (·.sameKey key) then .error ⟨p, .duplicateEntry key⟩
    else
      let v ← toTaggedValue (placeUnder p k) x
      let vs ← toTaggedEntries p (key :: seen) es
      return (key, v) :: vs

end

/-- Whether an optional value is left out: nothing is written, or a null. -/
def isAbsent (d : Datum) : Except Fault Bool :=
  match d with
  | .value v => .ok (v == .null)
  | .scalar w =>
    if w.style ≠ .plain then .ok false
    else
      match w.tag with
      | none => .ok (w.text == "" || Scalar.isNullWord w.text)
      | some t =>
        if t ≠ Scalar.coreTag "null" then .ok false
        else if Scalar.isNullWord w.text then .ok true
        else .error (.invalidValue (.value (.string w.text)) "null")
  | .sequence .. | .mapping .. => .ok false
  | .broken => .error .syntaxError

end Datum

end JobConfig
