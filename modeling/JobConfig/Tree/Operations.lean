import JobConfig.Tree.Storage

/-!
# Operations on trees

Reading and changing a tree by paths. An operation that changes the tree gives the new tree, or says
why the file system refuses it. Those that `Storage` has as well may in addition be refused by the
storage under the tree.
-/

namespace JobConfig

namespace FileTree

variable (t : FileTree)

/-- Whether a path leads to something. -/
def contains (p : Path) : Bool :=
  (t.lookup true p).isOk

/-- Whether a path leads to a directory. -/
def isDirectory (p : Path) : Bool :=
  match t.lookup true p with
  | .ok (_, .directory) => true
  | _ => false

/-- The content of a file. -/
def readFile (p : Path) : Except Refusal Bytes :=
  match t.lookup true p with
  | .ok (_, .file content) => .ok content
  | .ok _ => .error .isDirectory
  | .error r => .error r

/-- Make or overwrite a file. -/
def writeFile (p : Path) (content : Bytes) : Except Refusal FileTree :=
  match t.resolve true p with
  | .ok (.at _ .directory) => .error .isDirectory
  | .ok (.at l _) | .ok (.vacant l) => .ok (t.put l (.file content))
  | .error r => .error r

/-- Make a link. -/
def makeLink (p target : Path) : Except Refusal FileTree :=
  match t.resolve false p with
  | .ok (.at ..) => .error .alreadyExists
  | .ok (.vacant l) => .ok (t.put l (.link target))
  | .error r => .error r

/-- Remove a file or a link. -/
def removeFile (p : Path) : Except Refusal FileTree :=
  match t.lookup false p with
  | .ok (_, .directory) => .error .isDirectory
  | .ok (l, _) => .ok (t.remove l)
  | .error r => .error r

/-- Move a file to another path, in place of the file that is there. -/
def rename (p q : Path) : Except Refusal FileTree :=
  match t.lookup false p, t.resolve false q with
  | .error r, _ => .error r
  | .ok _, .error r => .error r
  | .ok _, .ok (.at _ .directory) => .error .isDirectory
  | .ok (l, e), .ok (.at k _) | .ok (l, e), .ok (.vacant k) => .ok ((t.remove l).put k e)

/-- Make a directory in a directory. -/
def makeDirectory (p : Path) : Except Refusal FileTree :=
  match t.resolve false ⟨(p.bytes.reverse.dropWhile (· == Path.slash)).reverse⟩ with
  | .ok (.at ..) => .error .alreadyExists
  | .ok (.vacant l) => .ok (t.put l .directory)
  | .error r => .error r

end FileTree

namespace Storage

variable (disk : Storage) (t : FileTree)

/-- Make or overwrite a file. If the storage refuses the content, a beginning of it may be left. -/
def writeFile (p : Path) (content : Bytes) : Except Refusal Unit × FileTree :=
  match t.writeFile p content, disk.refuses t (.writeFile p content) with
  | .error r, _ => (.error r, t)
  | .ok t', none => (.ok (), t')
  | .ok _, some fault =>
    match disk.keeps t (.writeFile p content) with
    | none => (.error (.storage fault), t)
    | some n =>
      (.error (.storage fault), (t.writeFile p (content.take n)).toOption.getD t)

/-- Remove a file or a link. -/
def removeFile (p : Path) : Except Refusal FileTree :=
  disk.grant t (.removeFile p) (t.removeFile p)

/-- Move a file to another path. -/
def rename (p q : Path) : Except Refusal FileTree :=
  disk.grant t (.rename p q) (t.rename p q)

/-- Make a directory in a directory. -/
def makeDirectory (p : Path) : Except Refusal FileTree :=
  disk.grant t (.makeDirectory p) (t.makeDirectory p)

end Storage

namespace FileTree

variable (t : FileTree)

/-- The path and its parents, up to the one of a single name. -/
def ancestors : Nat → Path → List Path
  | 0, _ => []
  | fuel + 1, p =>
    if p.bytes = [] then []
    else
      match p.parent? with
      | none => []
      | some q => p :: ancestors fuel q

/-- Make a directory unless it is there. -/
def ensureDirectory (t : FileTree) (p : Path) (disk : Storage := .sound) :
    Except Refusal FileTree :=
  match disk.makeDirectory t p with
  | .error .alreadyExists => if t.isDirectory p then .ok t else .error .alreadyExists
  | r => r

/-- Make the missing ones of some directories, each of which is the parent of the one before it.
Those that are made stay if a later one cannot be made. -/
def ensureAll (t : FileTree) (ps : List Path) (disk : Storage := .sound) :
    Except Refusal Unit × FileTree :=
  match ps with
  | [] => (.ok (), t)
  | p :: ps =>
    match t.ensureDirectory p disk with
    | .ok t => (.ok (), t)
    | .error .notFound =>
      match ensureAll t ps disk with
      | (.error r, t) => (.error r, t)
      | (.ok (), t) =>
        match t.ensureDirectory p disk with
        | .ok t => (.ok (), t)
        | .error r => (.error r, t)
    | .error r => (.error r, t)

/-- Make a directory and its parents. -/
def makeDirectories (p : Path) (disk : Storage := .sound) : Except Refusal Unit × FileTree :=
  t.ensureAll (ancestors (p.components.length + 1) p) disk

end FileTree

end JobConfig
