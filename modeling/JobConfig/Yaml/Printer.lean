import JobConfig.Document.Fault
import JobConfig.Yaml.Presentation

/-!
# Documents as text

Values in block style. Entries of a mapping stand below each other, two columns to the right of the
mapping that they are in; the items of a sequence under a key stand in the column of the key. A key
that is no short text on one line is marked by a question mark.
-/

namespace JobConfig.Yaml

/-- Whether a character is written as it is in a tag. -/
def isTagChar (c : Char) : Bool :=
  isNameChar c || ";/?:@&=+$,_.~*'()[]".toList.contains c

/-- The content of a tag; every byte of another character is given by its number. -/
def tagContent (name : List Char) : List Char :=
  name.flatMap fun c =>
    if isTagChar c then [c]
    else (String.utf8EncodeChar c).flatMap fun b => '%' :: hexDigits 2 b.toNat

/-- A local tag. -/
def tagText (name : String) : List Char :=
  match name.toList with
  | ['!'] => '!' :: '<' :: tagContent ['!'] ++ ['>']
  | '!' :: cs => '!' :: tagContent cs
  | cs => '!' :: tagContent cs

/-- A value that is no tagged value and no collection with something in it. -/
def atomText (onLine : Bool) (indent : Nat) : Value → List Char
  | .null => "null".toList
  | .bool b => (toString b).toList
  | .int i => (toString i).toList
  | .float x => x.documentText.toList
  | .string s => present onLine indent s
  | .sequence _ => ['[', ']']
  | .mapping _ => ['{', '}']
  | .tagged .. => []

/-- The text with a line feed, unless it ends with a break already. -/
def endLine (cs : List Char) : List Char :=
  if cs.getLast?.any isBreak then cs else cs ++ ['\n']

/-- The bytes of a key that count for its length. -/
def keyLength : Value → Nat
  | .string s => (Utf8.encode s).length
  | .tagged name v => (tagText name).length + keyLength v
  | .sequence _ | .mapping _ => 0
  | v => (atomText true 0 v).length

/-- Whether a key is written before its colon without a mark. -/
def isSimpleKey (k : Value) : Bool :=
  let rec flat : Value → Bool
    | .string s => !s.toList.any isBreak
    | .sequence vs => vs.isEmpty
    | .mapping es => es.isEmpty
    | .tagged _ v => flat v
    | .null | .bool _ | .int _ | .float _ => true
  flat k && keyLength k ≤ 128

/-- A simple key. -/
def keyText (indent : Nat) : Value → List Char
  | .tagged name v => tagText name ++ ' ' :: keyText indent v
  | v => atomText true indent v

mutual

/-- What follows a simple key, or a tag in the same place, in column `n`. -/
def afterKey (n : Nat) : Value → List Char
  | .sequence vs =>
    if vs.isEmpty then " []\n".toList else '\n' :: items (pad n) n vs
  | .mapping es =>
    if es.isEmpty then " \x7b\x7d\n".toList else '\n' :: entries (pad (n + 2)) (n + 2) es
  | .tagged name v => ' ' :: tagText name ++ afterKey n v
  | v => ' ' :: endLine (atomText false (n + 2) v)

/-- What follows the mark of an item, or of a complex key or its value, in column `n`. Items that
have to start on a line of their own stand in column `below`. -/
def afterMark (below n : Nat) : Value → List Char
  | .sequence vs =>
    if vs.isEmpty then " []\n".toList else items [' '] (n + 2) vs
  | .mapping es =>
    if es.isEmpty then " \x7b\x7d\n".toList else entries [' '] (n + 2) es
  | .tagged name v => ' ' :: tagText name ++ afterTag below n v
  | v => ' ' :: endLine (atomText false (n + 2) v)

/-- What follows a tag behind such a mark. -/
def afterTag (below n : Nat) : Value → List Char
  | .sequence vs =>
    if vs.isEmpty then " []\n".toList else '\n' :: items (pad below) below vs
  | .mapping es =>
    if es.isEmpty then " \x7b\x7d\n".toList else '\n' :: entries (pad (n + 2)) (n + 2) es
  | .tagged name v => ' ' :: tagText name ++ afterTag below n v
  | v => ' ' :: endLine (atomText false (n + 2) v)

/-- The items of a sequence in column `n`, the first of them behind `lead`. -/
def items (lead : List Char) (n : Nat) : List Value → List Char
  | [] => []
  | v :: vs => lead ++ '-' :: afterMark (n + 2) n v ++ items (pad n) n vs

/-- The entries of a mapping in column `n`, the first of them behind `lead`. -/
def entries (lead : List Char) (n : Nat) : List (Value × Value) → List Char
  | [] => []
  | (k, v) :: es =>
    let text :=
      if isSimpleKey k then keyText (n + 2) k ++ ':' :: afterKey n v
      else '?' :: afterMark n n k ++ pad n ++ ':' :: afterMark n n v
    lead ++ text ++ entries (pad n) n es

end

/-- The document of a value. -/
def document : Value → String
  | .sequence (v :: vs) => String.ofList (items [] 0 (v :: vs))
  | .mapping (e :: es) => String.ofList (entries [] 0 (e :: es))
  | v => String.ofList (endLine (atomText false 0 v))

end JobConfig.Yaml
