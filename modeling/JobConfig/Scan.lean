import JobConfig.Identity
import JobConfig.Load
import JobConfig.Tree.Operations

/-!
# Scanning a tree for job files

A walk through a directory meets its files and links in the order of their paths; it does not follow
links. A job file is one with the right extension whose path has an identity.
-/

namespace JobConfig

/-- The extension of job files. -/
def jobExtension : Bytes :=
  Utf8.encode "yaml"

/-- The identity of a path, if it is that of a job file. -/
def Identity.ofJobFile? (p : Path) : Option Identity :=
  if p.extension? = some jobExtension then (Identity.ofPath p).toOption else none

namespace FileTree

variable (t : FileTree)

/-- The path of names below a directory. -/
def under (dir : Path) (names : Location) : Path :=
  names.foldl (fun p n => p.join ⟨n⟩) dir

/-- The files and links that a walk from `root` meets. -/
def files (root : Path) : List Path :=
  match t.lookup false root with
  | .ok (l, .directory) =>
    (t.below l).filterMap fun e => if e.2 = .directory then none else some (under root e.1)
  | .ok _ => [root]
  | .error _ => []

/-- The identities of the job files that a walk meets. -/
def identities (root : Path) : List Identity :=
  (t.files root).filterMap Identity.ofJobFile?

/-- The job set of a file. -/
def load (p : Path) : Except Failure JobSet :=
  match t.readFile p with
  | .error r => .error (.refused p r)
  | .ok content => (JobSet.ofContent content).mapError (·.at p)

/-- The job files that a walk meets and that can be loaded, with what they hold. -/
def loaded (root : Path) : List (Identity × JobSet) :=
  (t.identities root).filterMap fun i => ((t.load i.file).toOption).map (i, ·)

end FileTree

/-- A way to hand over what a scan loads, each job set once. Several workers may get done in any
order. -/
structure Scanner where
  deliver : FileTree → Path → List (Identity × JobSet)
  perm : ∀ t root, (deliver t root).Perm (t.loaded root)

/-- A single worker hands over in the order of the walk. -/
def Scanner.inOrder : Scanner where
  deliver := FileTree.loaded
  perm _ _ := .refl _

instance : Inhabited Scanner := ⟨.inOrder⟩

/-- The jobs of all files below a directory. -/
def FileTree.allJobs (t : FileTree) (dir : Path) (scan : Scanner := .inOrder) : JobSet :=
  (scan.deliver t dir).foldl (fun s e => s.append e.2) ∅

/-- The directory to scan: a directory, or a part of it. -/
def scanRoot (dir part : Path) : Path :=
  if part.bytes = [] then dir else dir.join part

/-- Visit identities until a visit fails: those that were visited, and the failure. -/
def visit (f : Identity → Except Failure Unit) :
    List Identity → List Identity × Except Failure Unit
  | [] => ([], .ok ())
  | i :: is =>
    match f i with
    | .error e => ([i], .error e)
    | .ok () => (i :: (visit f is).1, (visit f is).2)

/-- The failure of a result. -/
def failure? {α : Type} : Except Failure α → Option Failure
  | .error e => some e
  | .ok _ => none

/-- Hand over job sets. A failure does not keep the others from being handed over. -/
def handOver (f : Identity → JobSet → Except Failure Unit) (loaded : List (Identity × JobSet)) :
    Except Failure Unit :=
  Failure.aggregate (loaded.filterMap fun e => failure? (f e.1 e.2))

end JobConfig
