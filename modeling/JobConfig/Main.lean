import JobConfig.Command.Run

/-!
# The command

The tree of a run is the working directory, which stands for the top of everything: it is read
before the run, and what the run changed in it is written back. A link in it leads to where the
system says that it ends, and nowhere if that is outside of the tree. One worker scans the files
unless a number of workers is given.
-/

namespace JobConfig.Command

/-- A location as a path from the working directory. -/
def relativePath (l : Location) : Path :=
  ⟨Path.glue l⟩

/-- The target of a link at a location that ends at `place`, in a tree whose root is `root`. -/
def linkTarget (root place : Path) (l : Location) : Path :=
  match place.stripPrefix? root with
  | none => ⟨[]⟩
  | some rest => ⟨Path.glue (l.dropLast.map (fun _ => [Path.dot, Path.dot]) ++ rest.pieces)⟩

/-- Where a link ends, if it ends anywhere. -/
def endOfLink (link : IO.FS.DirEntry) : IO Path := do
  try return .ofString (toString (← IO.FS.realPath link.path))
  catch _ => return ⟨[]⟩

/-- Read an entry of the directory at a location, and what it holds, into a tree. -/
partial def readEntry (root : Path) (dir : Location) (t : FileTree) (e : IO.FS.DirEntry) :
    IO FileTree := do
  let l := dir ++ [Utf8.encode e.fileName]
  match (← e.path.symlinkMetadata).type with
  | .dir => (← e.path.readDir).foldlM (readEntry root l) (t.put l .directory)
  | .symlink => return t.put l (.link (linkTarget root (← endOfLink e) l))
  | .file => return t.put l (.file (← IO.FS.readBinFile e.path).toList)
  | .other => return t

/-- The tree of the working directory. -/
def readTree : IO FileTree := do
  let root ← IO.currentDir
  (← root.readDir).foldlM (readEntry (.ofString (toString root)) []) ∅

/-- Write back what is at a location after a run. New content takes the place of the old in one
step. -/
def writeEntry (before : FileTree) (l : Location) (e : Entry) : IO Unit := do
  let p := relativePath l
  match e with
  | .file content =>
    let aside := (FileTree.besides p).display
    IO.FS.writeBinFile aside ⟨content.toArray⟩
    IO.FS.rename aside p.display
  | .directory => if before.get? l ≠ some .directory then IO.FS.createDir p.display
  | .link _ => return

/-- Write back what a run changed. -/
def writeTree (before after : FileTree) : IO Unit := do
  for (l, e) in before.below [] do
    if after.get? l = none ∧ e ≠ .directory then IO.FS.removeFile (relativePath l).display
  for (l, e) in after.below [] do
    if before.get? l ≠ some e then writeEntry before l e

end JobConfig.Command

open JobConfig Command in
/-- Run the command on the working directory. -/
def main (args : List String) : IO UInt32 := do
  let names := outer.valued.map variableOf
  let values ← names.mapM fun name => return (name, ← IO.getEnv name)
  let before ← readTree
  let (report, after) := run (fun name => (values.lookup name).join) args before
  writeTree before after
  (← IO.getStdout).putStr report.output
  (← IO.getStderr).putStr report.errors
  return report.code.toUInt32
