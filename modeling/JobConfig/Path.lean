import JobConfig.Text.Utf8

/-!
# Paths

A path is a text of bytes, cut into pieces at its slashes. Empty pieces and single points are blank:
they name nothing, except that a slash at the start is the root and a point at the start is the
directory one is in. What is not blank are the components of the path; paths are ordered by them.
-/

namespace JobConfig

/-- A path, as it is written. -/
structure Path where
  bytes : Bytes
deriving DecidableEq, Inhabited

/-- A step of a path. -/
inductive Component where
  | root
  | here
  | up
  | name (n : Bytes)
deriving DecidableEq

/-- The text under which a step is ordered: root, here, up, and then names by their bytes. -/
def Component.sortKey : Component → Bytes
  | root => [0]
  | here => [1]
  | up => [2]
  | name n => 3 :: n

namespace Path

def slash : UInt8 := 0x2f

def dot : UInt8 := 0x2e

/-- The path of a text. -/
def ofString (s : String) : Path :=
  ⟨Utf8.encode s⟩

/-- The path as a text to show. -/
def display (p : Path) : String :=
  Utf8.decodeLossy p.bytes

/-- A byte string cut at its slashes. -/
def split : Bytes → List Bytes
  | [] => [[]]
  | b :: bs =>
    if b = slash then [] :: split bs
    else
      match split bs with
      | [] => [[b]]
      | p :: ps => (b :: p) :: ps

/-- Pieces with slashes between them. -/
def glue : List Bytes → Bytes
  | [] => []
  | [p] => p
  | p :: ps => p ++ slash :: glue ps

/-- The pieces of a path. -/
def pieces (p : Path) : List Bytes :=
  split p.bytes

/-- Whether a piece names nothing. -/
def isBlank (piece : Bytes) : Bool :=
  piece == [] || piece == [dot]

/-- Whether a piece can name an entry of a directory. -/
def isName (piece : Bytes) : Bool :=
  !isBlank piece && piece != [dot, dot] && !piece.contains slash

/-- Whether a path starts at the root. -/
def isAbsolute (p : Path) : Bool :=
  p.bytes.head? == some slash

/-- The step of a blank piece at the start. -/
def lead (p : Path) : List Component :=
  if p.isAbsolute then [.root]
  else if p.pieces.head? = some [dot] then [.here]
  else []

/-- The step of a piece. -/
def ofPiece? (piece : Bytes) : Option Component :=
  if isBlank piece then none else if piece = [dot, dot] then some .up else some (.name piece)

/-- The components of a path. -/
def components (p : Path) : List Component :=
  p.lead ++ p.pieces.filterMap ofPiece?

/-- The path of the first pieces of `p`, given from the last one on. -/
def upTo (p : Path) (reversed : List Bytes) : Path :=
  match reversed.dropWhile isBlank with
  | [] => if p.isAbsolute then ⟨[slash]⟩ else if p.lead = [] then ⟨[]⟩ else ⟨[dot]⟩
  | ps => ⟨glue ps.reverse⟩

/-- The path without its last component; a path that ends at the root has no parent. -/
def parent? (p : Path) : Option Path :=
  match p.components.getLast? with
  | none | some .root => none
  | some .here => some ⟨[]⟩
  | some _ => some (p.upTo (p.pieces.reverse.dropWhile isBlank).tail)

/-- The name at the end of a path. -/
def fileName? (p : Path) : Option Bytes :=
  match p.components.getLast? with
  | some (.name n) => some n
  | _ => none

/-- A file name cut at its last point: the part before it and the part after it. A name without a
point, or whose only point comes first, is not cut. -/
def cutName (n : Bytes) : Bytes × Option Bytes :=
  let after := (n.reverse.takeWhile (· != dot)).reverse
  let before := (n.reverse.dropWhile (· != dot)).tail.reverse
  if before = [] then (n, none) else (before, some after)

/-- The file name before its last point. -/
def stem? (p : Path) : Option Bytes :=
  p.fileName?.map fun n => (cutName n).1

/-- The file name after its last point. -/
def extension? (p : Path) : Option Bytes :=
  p.fileName?.bind fun n => (cutName n).2

/-- The path `q` seen from `p`. -/
def join (p q : Path) : Path :=
  if q.isAbsolute then q
  else if p.bytes = [] ∨ p.bytes.getLast? = some slash then ⟨p.bytes ++ q.bytes⟩
  else ⟨p.bytes ++ slash :: q.bytes⟩

/-- The pieces after the first `count` that are not blank. -/
def dropNames : Nat → List Bytes → List Bytes
  | _, [] => []
  | 0, ps => ps
  | count + 1, p :: ps => if isBlank p then dropNames (count + 1) ps else dropNames count ps

/-- The part of `p` below `base`. -/
def stripPrefix? (p base : Path) : Option Path :=
  if base.components = [] then some (p.upTo p.pieces.reverse)
  else if base.components.isPrefixOf p.components then
    let names := base.components.length - p.lead.length
    let rest := (dropNames names p.pieces).dropWhile isBlank
    some ⟨glue (rest.reverse.dropWhile isBlank).reverse⟩
  else none

/-- The key that orders paths by their components. -/
def sortKey (p : Path) : List Bytes :=
  p.components.map Component.sortKey

example : (ofString "/a//b/./c/").components =
    [.root, .name [0x61], .name [0x62], .name [0x63]] := by decide +kernel

example : ((ofString "x/./y/.").parent?.map display) = some "x" := by decide +kernel

example : (ofString "//a").parent? = some (ofString "/") := by decide +kernel

example : (ofString "a.b.yaml").stem? = some (Utf8.encode "a.b") := by decide +kernel

example : ((ofString "./jobs/./org//r/").stripPrefix? (ofString "./jobs")).map display =
    some "org//r" := by decide +kernel

end Path

end JobConfig
