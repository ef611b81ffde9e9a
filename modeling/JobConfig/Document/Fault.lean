import JobConfig.Decimal.Shortest
import JobConfig.Text.Quoted
import JobConfig.Value

/-!
# Faults of documents

Why a document is not a job set, and where. A fault of the text itself has no message of its own.
-/

namespace JobConfig

/-- What stands in a document where something else is expected. -/
inductive Found where
  | value (v : Value)
  | huge (i : Int)
deriving DecidableEq

/-- Why a document, or a part of it, cannot be read. -/
inductive Fault where
  | syntaxError
  | localTag
  | missingField (name : String)
  | duplicateField (name : String)
  | invalidType (found : Found) (expected : String)
  | invalidValue (found : Found) (expected : String)
  | duplicateEntry (key : Value)
deriving DecidableEq

/-- A number without an exponent, as messages show it. -/
def Binary64.plainText : Binary64 → String
  | .nan => "NaN"
  | .infinite false => "inf"
  | .infinite true => "-inf"
  | .finite negative m e =>
    let ds := if m = 0 then ['0'] else (Decimal.shortest m e).positional
    let ds := if ds.contains '.' then ds else ds ++ ['.', '0']
    String.ofList (if negative then '-' :: ds else ds)

/-- A number as documents show it: with an exponent only if more than 16 digits or more than four
zeros would stand before or after the point. -/
def Binary64.documentText : Binary64 → String
  | .nan => ".nan"
  | .infinite false => ".inf"
  | .infinite true => "-.inf"
  | .finite negative m e =>
    let ds :=
      if m = 0 then ['0', '.', '0']
      else
        let d := Decimal.shortest m e
        if 0 ≤ d.exponent ∧ d.pointAt ≤ 16 then d.positional ++ ['.', '0']
        else if -5 < d.pointAt ∧ d.pointAt ≤ 16 then d.positional
        else d.scientific
    String.ofList (if negative then '-' :: ds else ds)

namespace Found

/-- What was found, in words. -/
def text : Found → String
  | .huge i =>
    let width := if i < 0 then "i128" else "u128"
    "integer `" ++ toString i ++ "` as " ++ width
  | .value v =>
    match v with
    | .null => "unit value"
    | .bool b => "boolean `" ++ toString b ++ "`"
    | .int i => "integer `" ++ toString i ++ "`"
    | .float x => "floating point `" ++ x.plainText ++ "`"
    | .string s => "string " ++ Text.quoted s
    | .sequence _ => "sequence"
    | .mapping _ => "map"
    | .tagged .. => "enum"

end Found

namespace Fault

/-- The key of a repeated entry, in words. -/
def entryText : Value → String
  | .null => "with null key"
  | .bool b => "with key `" ++ toString b ++ "`"
  | .int i => "with key " ++ toString i
  | .float x => "with key " ++ x.documentText
  | .string s => "with key " ++ Text.quoted s
  | .sequence _ | .mapping _ | .tagged .. => "in YAML map"

/-- The message of a fault, if it has one. -/
def message? : Fault → Option String
  | syntaxError | localTag => none
  | missingField name => some ("missing field `" ++ name ++ "`")
  | duplicateField name => some ("duplicate field `" ++ name ++ "`")
  | invalidType found expected =>
    some ("invalid type: " ++ found.text ++ ", expected " ++ expected)
  | invalidValue found expected =>
    some ("invalid value: " ++ found.text ++ ", expected " ++ expected)
  | duplicateEntry key => some ("duplicate entry " ++ entryText key)

end Fault

/-- A place in a document, from the root on. -/
inductive Place where
  | root
  | item (parent : Place) (index : Nat)
  | member (parent : Place) (key : String)
  | unnamed (parent : Place)
deriving DecidableEq

namespace Place

/-- The place as text; the root is a point. -/
def text : Place → String
  | root => "."
  | item parent i => parent.text ++ "[" ++ toString i ++ "]"
  | member root key => key
  | member parent key => parent.text ++ "." ++ key
  | unnamed root => "?"
  | unnamed parent => parent.text ++ ".?"

end Place

/-- A fault and where it is. -/
structure Misread where
  place : Place
  fault : Fault
deriving DecidableEq

/-- The message of a misread document, which starts with the place. -/
def Misread.message? (m : Misread) : Option String :=
  m.fault.message?.map fun text =>
    if m.place.text == "." then text else m.place.text ++ ": " ++ text

/-- A reading whose fault is at `p`. -/
def placed {α : Type} (p : Place) (r : Except Fault α) : Except Misread α :=
  r.mapError (⟨p, ·⟩)

end JobConfig
