import JobConfig.Plan

/-!
# Writing job files

A file is written only if its content changes, and in one step: its new content goes to a file
beside it, which then takes its place. A file that shall hold no jobs is removed. Each function
gives the tree that it leaves, also where it fails, and takes the storage that may refuse a change.
-/

namespace JobConfig

/-- What became of a file, or would become of it. -/
inductive Outcome where
  | written
  | unchanged
  | deleted
  | wouldWrite
  | wouldDelete
deriving DecidableEq, Inhabited

namespace FileTree

variable (t : FileTree)

/-- Where the new content of a file goes first. -/
def besides (p : Path) : Path :=
  .ofString (p.display ++ ".jobshard.tmp")

/-- Make the directory of a file. -/
def makeParent (p : Path) (disk : Storage := .sound) : Except Failure Unit × FileTree :=
  match p.parent? with
  | none => (.ok (), t)
  | some dir =>
    let (r, t) := t.makeDirectories dir disk
    (r.mapError (.refused dir), t)

/-- Give a file new content in one step. -/
def replaceFile (p : Path) (content : Bytes) (disk : Storage := .sound) :
    Except Failure Unit × FileTree :=
  match t.makeParent p disk with
  | (.error e, t) => (.error e, t)
  | (.ok (), t) =>
    match disk.writeFile t (besides p) content with
    | (.error r, t) => (.error (.refused (besides p) r), t)
    | (.ok (), t) =>
      match disk.rename t (besides p) p with
      | .ok t => (.ok (), t)
      | .error r => (.error (.refused p r), (disk.removeFile t (besides p)).toOption.getD t)

/-- Remove a file if it is there. -/
def removeJobs (p : Path) (dryRun : Bool) (disk : Storage := .sound) :
    Except Failure Outcome × FileTree :=
  if !t.contains p then (.ok .unchanged, t)
  else if dryRun then (.ok .wouldDelete, t)
  else
    match disk.removeFile t p with
    | .ok t => (.ok .deleted, t)
    | .error .notFound => (.ok .unchanged, t)
    | .error r => (.error (.refused p r), t)

/-- The content of a file, if there is one. -/
def contentOf? (p : Path) : Except Failure (Option Bytes) :=
  match t.readFile p with
  | .ok content => .ok (some content)
  | .error .notFound => .ok none
  | .error r => .error (.refused p r)

/-- Write a job set to a file. The file of an empty set is removed. -/
def writeJobs (p : Path) (jobs : JobSet) (dryRun : Bool) (disk : Storage := .sound) :
    Except Failure Outcome × FileTree :=
  if jobs.isEmpty then t.removeJobs p dryRun disk
  else
    match jobs.render, t.contentOf? p with
    | .error e, _ | .ok _, .error e => (.error e, t)
    | .ok text, .ok old? =>
      if old? = some (Utf8.encode text) then (.ok .unchanged, t)
      else if dryRun then (.ok .wouldWrite, t)
      else
        match t.replaceFile p (Utf8.encode text) disk with
        | (.ok (), t) => (.ok .written, t)
        | (.error e, t) => (.error e, t)

/-- Write planned files one after the other. The first failure ends it. -/
def writeAll (dryRun : Bool) (t : FileTree) (fs : List Planned) (disk : Storage := .sound) :
    Except Failure (List (Outcome × Path)) × FileTree :=
  match fs with
  | [] => (.ok [], t)
  | f :: fs =>
    match t.writeJobs f.path f.jobs dryRun disk with
    | (.error e, t) => (.error e, t)
    | (.ok o, t) =>
      match writeAll dryRun t fs disk with
      | (.error e, t) => (.error e, t)
      | (.ok os, t) => (.ok ((o, f.path) :: os), t)

/-- Write the files of a repository after its generated jobs are reconciled. -/
def shardInto (jobDir : Path) (org repo : String) (generated : JobSet) (dryRun : Bool)
    (scan : Scanner := .inOrder) (disk : Storage := .sound) :
    Except Failure (List (Outcome × Path)) × FileTree :=
  let dir := repoDir jobDir org repo
  let (made, t) := if dryRun then (.ok (), t) else t.makeDirectories dir disk
  match made with
  | .error r => (.error (.refused dir r), t)
  | .ok () => writeAll dryRun t (t.plan jobDir org repo generated scan) disk

end FileTree

end JobConfig
