import JobConfig.Kind
import JobConfig.Path
import JobConfig.Text.Quoted

/-!
# Identities of job files

The file `<org>/<repo>/<org>-<repo>-<branch>-<kind>.yaml` holds the jobs of one kind for a branch of
a repository; `<org>/<repo>/<org>-<repo>-periodics.yaml` holds periodics of no branch. The kind is
the text after the last dash, so org, repository and branch may contain dashes.
-/

namespace JobConfig

/-- What the path of a job file says about the jobs in it. -/
structure Identity where
  org : String
  repo : String
  branch : String
  kind : Kind
  file : Path
deriving DecidableEq, Inhabited

/-- Why a path is not that of a job file. -/
inductive NameError where
  | noRepo (path : Path)
  | noOrg (path : Path)
  | missingPrefix (start stem : String)
  | missingKind (stem : String)
  | unknownKind (token stem : String)
deriving DecidableEq

/-- The error in words. -/
def NameError.message : NameError → String
  | noRepo path => "could not extract repo from '" ++ path.display ++ "'"
  | noOrg path => "could not extract org from '" ++ path.display ++ "'"
  | missingPrefix start stem =>
    "file name was not prefixed with " ++ Text.quoted start ++ ": " ++ Text.quoted stem
  | missingKind stem => "file name does not contain job type: " ++ Text.quoted stem
  | unknownKind token stem =>
    "file name has unknown job type " ++ Text.quoted token ++ ": " ++ Text.quoted stem

/-- The text with which the names of a repository's files start. -/
def nameStart (org repo : String) : String :=
  org ++ "-" ++ repo ++ "-"

/-- The name of the file for the jobs of a kind on a branch. -/
def fileName (org repo branch : String) (kind : Kind) : String :=
  if kind = .periodic ∧ branch = "" then nameStart org repo ++ kind.token ++ ".yaml"
  else nameStart org repo ++ branch ++ "-" ++ kind.token ++ ".yaml"

/-- What is left of a text after a start of it. -/
def dropStart? : List Char → List Char → Option (List Char)
  | [], cs => some cs
  | _ :: _, [] => none
  | s :: start, c :: cs => if s = c then dropStart? start cs else none

/-- A text cut at its last dash. -/
def cutAtLastDash? : List Char → Option (List Char × List Char)
  | [] => none
  | c :: cs =>
    match cutAtLastDash? cs with
    | some (before, after) => some (c :: before, after)
    | none => if c = '-' then some ([], cs) else none

namespace Identity

/-- The branch and the kind that the end of a file's stem gives. -/
def branchAndKind (stem : String) (rest : List Char) : Except NameError (String × Kind) :=
  match cutAtLastDash? rest with
  | none =>
    if String.ofList rest = Kind.periodic.token then .ok ("", .periodic)
    else .error (.missingKind stem)
  | some (branch, token) =>
    match Kind.ofToken? (String.ofList token) with
    | some kind => .ok (String.ofList branch, kind)
    | none => .error (.unknownKind (String.ofList token) stem)

/-- The name at the end of a directory's path. -/
def dirName? (dir : Path) : Option String :=
  dir.fileName?.map Utf8.decodeLossy

/-- The identity of a job file. -/
def ofPath (p : Path) : Except NameError Identity := do
  let repoDir := p.parent?.getD ⟨[]⟩
  let some repo := dirName? repoDir | .error (.noRepo p)
  let some org := dirName? (repoDir.parent?.getD ⟨[]⟩) | .error (.noOrg p)
  let stem := (p.stem?.map Utf8.decodeLossy).getD ""
  let start := nameStart org repo
  let some rest := dropStart? start.toList stem.toList | .error (.missingPrefix start stem)
  let (branch, kind) ← branchAndKind stem rest
  return { org, repo, branch, kind, file := p }

/-- The name of the file that the identity stands for. -/
def basename (i : Identity) : String :=
  fileName i.org i.repo i.branch i.kind

end Identity

end JobConfig
