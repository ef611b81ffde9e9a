import JobConfig.Document.Datum
import JobConfig.Yaml.Event

/-!
# From events to a document

The nodes of the first document of a stream. Where the stream cannot be read any further the nodes
that are still open end with a broken one, so that what stands before it can be read.

An anchor gets a number, and an alias stands for the node whose anchor got its number last. The
number is how many names of anchors have been used before, also for a name that is used again.
-/

namespace JobConfig.Yaml

/-- A node of a document, with the number of its anchor. -/
inductive Node where
  | alias (number : Nat)
  | scalar (anchor : Option Nat) (written : Written)
  | sequence (anchor : Option Nat) (tag : Option String) (items : List Node)
  | mapping (anchor : Option Nat) (tag : Option String) (entries : List (Node × Node))
  | broken
deriving Inhabited

/-- An open collection. The lists are reversed. -/
inductive Frame where
  | sequence (anchor : Option Nat) (tag : Option String) (items : List Node)
  | mapping (anchor : Option Nat) (tag : Option String) (entries : List (Node × Node))
      (key : Option Node)

namespace Frame

/-- Add a node to the collection. -/
def add (n : Node) : Frame → Frame
  | sequence a t items => .sequence a t (n :: items)
  | mapping a t es none => .mapping a t es (some n)
  | mapping a t es (some k) => .mapping a t ((k, n) :: es) none

/-- The node of the collection. -/
def close : Frame → Node
  | sequence a t items => .sequence a t items.reverse
  | mapping a t es _ => .mapping a t es.reverse

/-- The node of a collection that cannot be read to its end. -/
def cut : Frame → Node
  | sequence a t items => .sequence a t (.broken :: items).reverse
  | mapping a t es none => .mapping a t ((.broken, .broken) :: es).reverse
  | mapping a t es (some k) => .mapping a t ((.broken, .broken) :: (k, .broken) :: es).reverse

end Frame

/-- A document while it is read. -/
structure Builder where
  frames : List Frame := []
  root : Option Node := none
  names : List (String × Nat) := []
  /-- How many events have been read. -/
  events : Nat := 0

namespace Builder

/-- Add a node that is complete. -/
def add (b : Builder) (n : Node) : Builder :=
  match b.frames with
  | [] => { b with root := some n }
  | f :: fs => { b with frames := f.add n :: fs }

/-- The number of an anchor, if there is one. -/
def number (b : Builder) (anchor : Option String) : Option Nat :=
  anchor.map fun _ => b.names.length

/-- Give an anchor its number. -/
def name (b : Builder) : Option String → Builder
  | none => b
  | some a => { b with names := (a, b.names.length) :: b.names.filter (·.1 != a) }

/-- Open a collection. -/
def start (b : Builder) (anchor : Option String) (f : Option Nat → Frame) : Builder :=
  { b.name anchor with frames := f (b.number anchor) :: b.frames }

/-- Close the innermost collection. -/
def finish (b : Builder) : Builder :=
  match b.frames with
  | [] => b
  | f :: fs => { b with frames := fs }.add f.close

/-- Read an event. An alias must have been defined. -/
def step? (b : Builder) (e : Event) : Option Builder :=
  let b := { b with events := b.events + 1 }
  match e with
  | .documentStart | .documentEnd => some b
  | .alias a => (b.names.find? (·.1 == a)).map fun n => b.add (.alias n.2)
  | .scalar anchor w => some ((b.name anchor).add (.scalar (b.number anchor) w))
  | .sequenceStart p => some (b.start p.anchor fun n => .sequence n p.tag [])
  | .mappingStart p => some (b.start p.anchor fun n => .mapping n p.tag [] none)
  | .sequenceEnd | .mappingEnd => some b.finish

/-- Read events as far as possible, and say whether all have been read. -/
def steps (b : Builder) : List Event → Builder × Bool
  | [] => (b, true)
  | e :: es =>
    match b.step? e with
    | none => (b, false)
    | some b => b.steps es

/-- The root of a document that may end too early. -/
def result (b : Builder) : Node :=
  match b.frames with
  | [] => b.root.getD .broken
  | f :: fs => fs.foldl (fun n f => (f.add n).cut) f.cut

end Builder

namespace Node

mutual

/-- The nodes with anchors, in the order of the text. -/
def anchored : Node → List (Nat × Node)
  | .alias _ | .broken => []
  | .scalar a w => (a.map (·, .scalar a w)).toList
  | .sequence a t items => (a.map (·, .sequence a t items)).toList ++ anchoredItems items
  | .mapping a t es => (a.map (·, .mapping a t es)).toList ++ anchoredEntries es

/-- The nodes with anchors in a list. -/
def anchoredItems : List Node → List (Nat × Node)
  | [] => []
  | n :: ns => anchored n ++ anchoredItems ns

/-- The nodes with anchors in entries. -/
def anchoredEntries : List (Node × Node) → List (Nat × Node)
  | [] => []
  | (k, v) :: es => anchored k ++ anchored v ++ anchoredEntries es

end

end Node

/-- The first document of a stream. -/
structure Document where
  root : Node
  /-- The nodes with anchors, the last one first. -/
  anchors : List (Nat × Node)
  /-- How many events the document has. -/
  events : Nat
  /-- Whether the stream can be read to its end and holds no other document. -/
  isAlone : Bool

namespace Document

/-- The first document of a stream of events, which may not be all of it. A stream without
documents has none. -/
def ofEvents? (whole : Bool) (es : List Event) : Option Document :=
  if whole && es.isEmpty then none
  else
    let (inside, after) := es.tail.span (· != .documentEnd)
    let (b, complete) := ({} : Builder).steps inside
    some {
      root := b.result
      anchors := b.result.anchored.reverse
      events := b.events
      isAlone := complete && whole && after.length == 1 }

/-- The number of nested collections that are read. -/
def maxDepth : Nat := 128

/-- How often aliases may be followed, for each event of a document. -/
def jumpsPerEvent : Nat := 100

variable (d : Document)

/-- The node that an alias stands for. The state is how often an alias may still be followed. -/
def follow : Node → StateM Nat Node
  | .alias n => do
    match ← get with
    | 0 => return .broken
    | left + 1 =>
      set left
      return ((d.anchors.find? (·.1 == n)).map (·.2)).getD .broken
  | n => return n

/-- The datum of a node in which at most `depth` collections are nested. -/
def expand (depth : Nat) (n : Node) : StateM Nat Datum := do
  match ← d.follow n with
  | .scalar _ w => return .scalar w
  | .alias _ | .broken => return .broken
  | .sequence _ tag items =>
    match depth with
    | 0 => return .broken
    | depth + 1 => return .sequence tag (← items.mapM (expand depth))
  | .mapping _ tag es =>
    match depth with
    | 0 => return .broken
    | depth + 1 =>
      return .mapping tag (← es.mapM fun e => do return (← expand depth e.1, ← expand depth e.2))

/-- The datum of an entry of the root. A member that is not wanted is not looked into. -/
def expandMember (wanted : String → Bool) (e : Node × Node) : StateM Nat (Datum × Datum) := do
  let key ← d.expand (maxDepth - 1) e.1
  match key with
  | .scalar w =>
    if wanted w.text then return (key, ← d.expand (maxDepth - 1) e.2)
    else return (key, .value .null)
  | _ => return (key, ← d.expand (maxDepth - 1) e.2)

/-- The datum of the document, with the wanted members of its root. -/
def datum (wanted : String → Bool) : Datum :=
  let read : StateM Nat Datum :=
    match d.root with
    | .mapping _ tag es => return .mapping tag (← es.mapM (d.expandMember wanted))
    | n => d.expand maxDepth n
  (read.run (jumpsPerEvent * d.events)).1

end Document

end JobConfig.Yaml
