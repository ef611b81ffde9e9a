import JobConfig.Value

/-!
# Written scalars

A plain scalar stands for a null, a boolean, an integer or a float if it is spelled like one, and
for its text otherwise.
-/

namespace JobConfig

/-- How a scalar is written. -/
inductive Style where
  | plain
  | single
  | double
  | literal
  | folded
deriving DecidableEq, Inhabited

/-- What the text of a scalar stands for. -/
inductive Meaning where
  | value (v : Value)
  /-- An integer of more than 64 bits. -/
  | huge (i : Int)
  /-- The text is not what the tag of the scalar promises. -/
  | unfit (promised : String)
deriving DecidableEq

namespace Scalar

/-- Whether a text is one of the words for null. -/
def isNullWord (s : String) : Bool :=
  s ∈ ["null", "Null", "NULL", "~"]

/-- The boolean of a text. -/
def bool? (s : String) : Option Bool :=
  if s ∈ ["true", "True", "TRUE"] then some true
  else if s ∈ ["false", "False", "FALSE"] then some false
  else none

/-- The value of a digit. -/
def digit? (base : Nat) (c : Char) : Option Nat :=
  let d :=
    if c.isDigit then some (c.toNat - 48)
    else if 'a' ≤ c ∧ c ≤ 'z' then some (c.toNat - 87)
    else if 'A' ≤ c ∧ c ≤ 'Z' then some (c.toNat - 55)
    else none
  d.filter (· < base)

/-- The number of a non-empty list of digits. -/
def nat? (base : Nat) (cs : List Char) : Option Nat :=
  if cs.isEmpty then none
  else cs.foldlM (fun n c => (digit? base c).map (base * n + ·)) 0

/-- The number of digits behind a mark for their base. -/
def based? : List Char → Option Nat
  | '0' :: 'x' :: cs => nat? 16 cs
  | '0' :: 'o' :: cs => nat? 8 cs
  | '0' :: 'b' :: cs => nat? 2 cs
  | _ => none

/-- The text without a sign. -/
def unsigned : List Char → List Char
  | '-' :: cs | '+' :: cs => cs
  | cs => cs

/-- Whether a text is all digits but no number, since it starts with a zero. -/
def isZeroPadded (cs : List Char) : Bool :=
  match unsigned cs with
  | '0' :: c :: rest => (c :: rest).all Char.isDigit
  | _ => false

/-- The integer of a text, of any size. -/
def int? (cs : List Char) : Option Int :=
  match cs with
  | '-' :: rest =>
    ((based? rest).or (if isZeroPadded cs then none else nat? 10 rest)).map fun n => -(n : Int)
  | _ =>
    let rest := match cs with
      | '+' :: rest => rest
      | _ => cs
    ((based? rest).or (if isZeroPadded cs then none else nat? 10 rest)).map Int.ofNat

/-- The exponent of a decimal: nothing, or a letter and an integer. -/
def exponent? : List Char → Option Int
  | [] => some 0
  | c :: cs =>
    if c = 'e' ∨ c = 'E' then
      match cs with
      | '-' :: ds => (nat? 10 ds).map fun n => -(n : Int)
      | '+' :: ds => (nat? 10 ds).map Int.ofNat
      | ds => (nat? 10 ds).map Int.ofNat
    else none

/-- The number of a decimal without a sign. -/
def decimal? (negative : Bool) (cs : List Char) : Option Binary64 :=
  let whole := cs.takeWhile Char.isDigit
  let rest := cs.dropWhile Char.isDigit
  let (part, rest) := match rest with
    | '.' :: r => (r.takeWhile Char.isDigit, r.dropWhile Char.isDigit)
    | r => ([], r)
  match nat? 10 (whole ++ part), exponent? rest with
  | some n, some e => some (.ofDecimal negative n (e - part.length))
  | _, _ => none

/-- The float of a text. A decimal that is too large is none. -/
def float? (cs : List Char) : Option Binary64 :=
  let (negative, rest) := match cs with
    | '-' :: r => (true, r)
    | '+' :: r => (false, r)
    | r => (false, r)
  if String.ofList rest ∈ [".inf", ".Inf", ".INF"] then some (.infinite negative)
  else if String.ofList cs ∈ [".nan", ".NaN", ".NAN"] then some .nan
  else
    match decimal? negative rest with
    | some (.finite n m e) => some (.finite n m e)
    | _ => none

/-- What an integer stands for. Beyond 128 bits it is none. -/
def intMeaning? (i : Int) : Option Meaning :=
  let half : Nat := UInt64.size / 2
  if -half ≤ i ∧ i < UInt64.size then some (.value (.int i))
  else if -half * UInt64.size ≤ i ∧ i < UInt64.size * UInt64.size then some (.huge i)
  else none

/-- What a plain scalar stands for. -/
def plainMeaning (s : String) : Meaning :=
  let cs := s.toList
  if s = "" ∨ isNullWord s then .value .null
  else
    match bool? s with
    | some b => .value (.bool b)
    | none =>
      match (int? cs).bind intMeaning? with
      | some m => m
      | none =>
        match if isZeroPadded cs then none else float? cs with
        | some x => .value (.float x)
        | none => .value (.string s)

/-- The tags of the core schema have this prefix. -/
def coreTag (name : String) : String :=
  "tag:yaml.org,2002:" ++ name

/-- Whether a tag belongs to one document only. -/
def isLocalTag (tag : String) : Bool :=
  tag.toList.head? == some '!'

/-- The name of a local tag: the tag without its mark, unless it is nothing but the mark. -/
def localName? (tag : Option String) : Option String :=
  match tag.map String.toList with
  | some ['!'] => some "!"
  | some ('!' :: name) => some (String.ofList name)
  | _ => none

end Scalar

/-- A scalar as it is written. -/
structure Written where
  text : String
  style : Style := .plain
  tag : Option String := none
deriving DecidableEq, Inhabited

namespace Written

/-- Whether nothing is written. -/
def isBlank (w : Written) : Bool :=
  w.text == "" && w.style == .plain

/-- What a written scalar stands for, regardless of a tag. -/
def untaggedMeaning (w : Written) : Meaning :=
  if w.style = .plain then Scalar.plainMeaning w.text else .value (.string w.text)

/-- What a written scalar stands for. -/
def meaning (w : Written) : Meaning :=
  match w.tag with
  | none => w.untaggedMeaning
  | some t =>
    if t = Scalar.coreTag "bool" then
      match Scalar.bool? w.text with
      | some b => .value (.bool b)
      | none => .unfit "a boolean"
    else if t = Scalar.coreTag "int" then
      ((Scalar.int? w.text.toList).bind Scalar.intMeaning?).getD (.unfit "an integer")
    else if t = Scalar.coreTag "float" then
      match Scalar.float? w.text.toList with
      | some x => .value (.float x)
      | none => .unfit "a float"
    else if t = Scalar.coreTag "null" then
      if Scalar.isNullWord w.text then .value .null else .unfit "null"
    else if Scalar.isLocalTag t then w.untaggedMeaning
    else .value (.string w.text)

end Written

example : Scalar.plainMeaning "0x1F" = .value (.int 31) := by decide +kernel

example : Scalar.plainMeaning "007" = .value (.string "007") := by decide +kernel

example : Scalar.plainMeaning "yes" = .value (.string "yes") := by decide +kernel

example : Scalar.plainMeaning "18446744073709551616" = .huge 18446744073709551616 := by
  decide +kernel

end JobConfig
