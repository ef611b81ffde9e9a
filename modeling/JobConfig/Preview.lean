import JobConfig.Diff.Unified
import JobConfig.Write

/-!
# Previewing changes

What writing the files of a repository would change, as unified diffs.
-/

namespace JobConfig

/-- The difference that writing makes to a file. -/
structure FileDiff where
  path : Path
  diff : String
deriving DecidableEq, Inhabited

/-- The text of a planned file; one without jobs has none. -/
def Planned.text (f : Planned) : Except Failure String :=
  if f.jobs.isEmpty then .ok "" else f.jobs.render

namespace FileTree

variable (t : FileTree)

/-- The text of a file, or no text if there is no file. -/
def textOf (p : Path) : Except Failure String :=
  (t.contentOf? p).map fun c => Utf8.decodeLossy (c.getD [])

/-- The difference between a planned file and the file that is there, if there is any. -/
def diffOf? (jobDir : Path) (f : Planned) : Except Failure (Option FileDiff) := do
  let new ← f.text
  let old ← t.textOf f.path
  if old = new then return none
  else
    let name := ((f.path.stripPrefix? jobDir).getD f.path).display
    return some ⟨f.path, Diff.unified ("a/" ++ name) ("b/" ++ name) old new⟩

/-- The differences that writing the files of a repository makes. -/
def preview (jobDir : Path) (org repo : String) (generated : JobSet)
    (scan : Scanner := .inOrder) : Except Failure (List FileDiff) := do
  let diffs ← (t.plan jobDir org repo generated scan).mapM (t.diffOf? jobDir)
  return diffs.filterMap id

end FileTree

end JobConfig
