import JobConfig.Tree.Basic

/-!
# Paths in trees

A path leads from the root of a tree piece by piece to a location. The root is where one is and the
top of everything at once, so that it makes no difference whether a path is absolute. A link on the
way leads on to its target: from the directory of the link, or from the root if it is absolute.
-/

namespace JobConfig

/-- Where a path starts that stands in a directory. An absolute one starts at the root. -/
def Path.startIn (p : Path) (l : Location) : Location :=
  if p.isAbsolute then [] else l

namespace FileTree

variable (t : FileTree)

/-- Where a path leads: to an entry, or to a place in a directory where nothing is. -/
inductive Spot where
  | at (l : Location) (e : Entry)
  | vacant (l : Location)

/-- Follow the pieces of a path from a directory. At a link, `onLink` goes on with the directory of
the link, the target, and the rest of the path; a link at the end is followed if `follow`. -/
def stepWith (follow : Bool)
    (onLink : Location → Path → List Bytes → Except Refusal Spot) :
    Location → List Bytes → Except Refusal Spot
  | l, [] => .ok (.at l .directory)
  | l, p :: ps =>
    if Path.isBlank p then stepWith follow onLink l ps
    else if p = [Path.dot, Path.dot] then stepWith follow onLink l.dropLast ps
    else
      match t.get? (l ++ [p]) with
      | none => if ps.all (· == []) then .ok (.vacant (l ++ [p])) else .error .notFound
      | some .directory => stepWith follow onLink (l ++ [p]) ps
      | some (.file c) => if ps = [] then .ok (.at (l ++ [p]) (.file c)) else .error .notDirectory
      | some (.link target) =>
        if ps = [] ∧ !follow then .ok (.at (l ++ [p]) (.link target))
        else onLink l target ps

/-- Follow the pieces of a path from a directory, through at most `links` links. -/
def step (follow : Bool) : (links : Nat) → Location → List Bytes → Except Refusal Spot
  | 0 => t.stepWith follow fun _ _ _ => .error .tooManyLinks
  | links + 1 => t.stepWith follow fun l target ps =>
    if target.bytes = [] then .error .notFound
    else step follow links (target.startIn l) (target.pieces ++ ps)

/-- How many links a path may lead through. -/
def maxLinks : Nat := 40

/-- Where a path leads. -/
def resolve (follow : Bool) (p : Path) : Except Refusal Spot :=
  if p.bytes = [] then .error .notFound
  else t.step follow maxLinks [] p.pieces

/-- What a path leads to. -/
def lookup (follow : Bool) (p : Path) : Except Refusal (Location × Entry) :=
  match t.resolve follow p with
  | .ok (.at l e) => .ok (l, e)
  | .ok (.vacant _) => .error .notFound
  | .error r => .error r

end FileTree

end JobConfig
