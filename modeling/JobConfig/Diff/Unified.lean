import JobConfig.Diff.Compact
import JobConfig.Diff.Myers

/-!
# Unified diffs

The changes between two texts, each group of them with three lines around it. Lines that go are
listed before those that come in their place.
-/

namespace JobConfig.Diff

/-- A text cut into its lines, each with the break that ends it. The line so far is reversed. -/
def linesFrom (line : List Char) : List Char → List String
  | [] => if line.isEmpty then [] else [String.ofList line.reverse]
  | '\r' :: '\n' :: cs => String.ofList ('\n' :: '\r' :: line).reverse :: linesFrom [] cs
  | c :: cs =>
    if c = '\n' ∨ c = '\r' then String.ofList (c :: line).reverse :: linesFrom [] cs
    else linesFrom (c :: line) cs

/-- A text cut into its lines. -/
def linesOf (s : String) : List String :=
  linesFrom [] s.toList

/-- A run of lines that stays, or that is replaced by another. -/
inductive Piece where
  | keep (oldStart newStart length : Nat)
  | replace (oldStart oldLength newStart newLength : Nat)
deriving DecidableEq, Inhabited

namespace Piece

def oldStart : Piece → Nat
  | keep o _ _ | replace o _ _ _ => o

def newStart : Piece → Nat
  | keep _ n _ => n
  | replace _ _ n _ => n

def oldStop : Piece → Nat
  | keep o _ l => o + l
  | replace o l _ _ => o + l

def newStop : Piece → Nat
  | keep _ n l => n + l
  | replace _ _ n l => n + l

/-- Join an edit to the piece before it, if they belong together. -/
def join (e : Edit) : List Piece → List Piece
  | keep o n l :: ps =>
    match e.change with
    | .keep => keep o n (l + e.length) :: ps
    | .delete => replace e.oldStart e.length e.newStart 0 :: keep o n l :: ps
    | .insert => replace e.oldStart 0 e.newStart e.length :: keep o n l :: ps
  | replace o ol n nl :: ps =>
    match e.change with
    | .keep => keep e.oldStart e.newStart e.length :: replace o ol n nl :: ps
    | .delete =>
      if ol = 0 then replace e.oldStart e.length n nl :: ps
      else replace o (ol + e.length) n nl :: ps
    | .insert =>
      if nl = 0 then replace o ol e.newStart e.length :: ps
      else replace o ol n (nl + e.length) :: ps
  | [] =>
    match e.change with
    | .keep => [keep e.oldStart e.newStart e.length]
    | .delete => [replace e.oldStart e.length e.newStart 0]
    | .insert => [replace e.oldStart 0 e.newStart e.length]

/-- The pieces of edits. -/
def ofEdits (es : List Edit) : List Piece :=
  (es.foldl (fun ps e => join e ps) []).reverse

end Piece

/-- How many lines are shown around changes. -/
def context : Nat := 3

/-- Cut the first piece, if it is kept, down to what is shown. -/
def trimFirst : List Piece → List Piece
  | .keep o n l :: ps => let d := l - context; .keep (o + d) (n + d) (l - d) :: ps
  | ps => ps

/-- Cut the last piece, if it is kept, down to what is shown. -/
def trimLast : List Piece → List Piece
  | [] => []
  | [.keep o n l] => [.keep o n (min l context)]
  | p :: ps => p :: trimLast ps

/-- Cut pieces into groups wherever more lines are kept than are shown. The group so far is
reversed. -/
def groupsFrom (group : List Piece) : List Piece → List (List Piece)
  | [] =>
    match group with
    | [] | [.keep ..] => []
    | _ => [group.reverse]
  | .keep o n l :: ps =>
    if l > 2 * context then
      let d := l - context
      (.keep o n context :: group).reverse :: groupsFrom [.keep (o + d) (n + d) context] ps
    else groupsFrom (.keep o n l :: group) ps
  | p :: ps => groupsFrom (p :: group) ps

/-- The groups of pieces that are shown. -/
def groups (ps : List Piece) : List (List Piece) :=
  groupsFrom [] (trimLast (trimFirst ps))

/-- A range of lines; an empty one is named by the line before it. -/
def rangeText (start stop : Nat) : String :=
  if stop - start = 1 then toString (start + 1)
  else if stop ≤ start then toString start ++ ",0"
  else toString (start + 1) ++ "," ++ toString (stop - start)

/-- A line behind the sign of its change. -/
def lineText (sign line : String) : String :=
  let ended := line.toList.getLast?.any fun c => c == '\n' || c == '\r'
  sign ++ line ++ (if ended then "" else "\n\\ No newline at end of file\n")

/-- The lines of a piece. -/
def Piece.text (s : Sides) : Piece → String
  | keep o _ l => String.join ((s.old.extract o (o + l)).toList.map (lineText " "))
  | replace o ol n nl =>
    String.join ((s.old.extract o (o + ol)).toList.map (lineText "-")) ++
      String.join ((s.new.extract n (n + nl)).toList.map (lineText "+"))

/-- A group of pieces under its heading. -/
def groupText (s : Sides) (group : List Piece) : String :=
  match group.head?, group.getLast? with
  | some a, some b =>
    "@@ -" ++ rangeText a.oldStart b.oldStop ++ " +" ++ rangeText a.newStart b.newStop ++ " @@\n" ++
      String.join (group.map (Piece.text s))
  | _, _ => ""

/-- The changes from one text to another, under the names of both. -/
def unified (oldName newName old new : String) : String :=
  let s : Sides := ⟨(linesOf old).toArray, (linesOf new).toArray⟩
  let edits := shortestEdits (s.old.size + s.new.size + 1) (.ofLines s.old) (.ofLines s.new)
  match groups (Piece.ofEdits (compact s edits)) with
  | [] => ""
  | gs =>
    "--- " ++ oldName ++ "\n+++ " ++ newName ++ "\n" ++ String.join (gs.map (groupText s))

end JobConfig.Diff
