import JobConfig.Document.Fault
import JobConfig.Gzip.Deflate
import JobConfig.Path

/-!
# Failures

Why a file cannot be read or written, or several of them.
-/

namespace JobConfig

/-- Why the storage under a file system refuses a change. -/
inductive StorageFault where
  | denied
  | full
  | broken
deriving DecidableEq, Inhabited

/-- Why the file system refuses an operation. -/
inductive Refusal where
  | notFound
  | alreadyExists
  | notDirectory
  | isDirectory
  | tooManyLinks
  | storage (fault : StorageFault)
deriving DecidableEq

/-- The number of a refusal. -/
def Refusal.number : Refusal → Nat
  | notFound => 2
  | alreadyExists => 17
  | notDirectory => 20
  | isDirectory => 21
  | tooManyLinks => 40
  | storage .denied => 13
  | storage .full => 28
  | storage .broken => 5

/-- The refusal in words. -/
def Refusal.words : Refusal → String
  | notFound => "No such file or directory"
  | alreadyExists => "File exists"
  | notDirectory => "Not a directory"
  | isDirectory => "Is a directory"
  | tooManyLinks => "Too many levels of symbolic links"
  | storage .denied => "Permission denied"
  | storage .full => "No space left on device"
  | storage .broken => "Input/output error"

/-- The refusal in words, with its number. -/
def Refusal.message (r : Refusal) : String :=
  r.words ++ " (os error " ++ toString r.number ++ ")"

/-- Why an operation on job files fails. -/
inductive Failure where
  | refused (path : Path) (cause : Refusal)
  | unpacking (path : Path) (cause : Gzip.Fault)
  | malformed (path : Path) (cause : Misread)
  | empty (path : Path)
  | nestedTags
  | lostWorker
  | several (failures : List Failure)

namespace Failure

/-- Why a value with a tag right below a tag cannot be written. -/
def nestedTagsDetail : String :=
  "serializing nested enums in YAML is not supported yet"

/-- The text that a document's fault is shown by; a fault of the text itself has no details. -/
def detail (m : Misread) : String :=
  m.message?.getD "not a document"

mutual

/-- The failure in words. -/
def message : Failure → String
  | refused path cause => "I/O error at " ++ path.display ++ ": " ++ cause.message
  | unpacking path cause => "I/O error at " ++ path.display ++ ": " ++ cause.message
  | malformed path cause =>
    "failed to load job config at " ++ path.display ++ ": " ++ detail cause
  | empty path => "failed to load job config at " ++ path.display ++ ": file is empty"
  | nestedTags => "failed to marshal the job config: " ++ nestedTagsDetail
  | lostWorker => "scan worker thread panicked"
  | several fs => "[" ++ messages fs ++ "]"

/-- Failures in words, with commas between them. -/
def messages : List Failure → String
  | [] => ""
  | [f] => message f
  | f :: fs => message f ++ ", " ++ messages fs

end

/-- The failures of independent operations as one: none, the only one, or several. -/
def aggregate : List Failure → Except Failure Unit
  | [] => .ok ()
  | [f] => .error f
  | fs => .error (.several fs)

/-- The words of the failure and of what has caused it. -/
def causes (f : Failure) : List String :=
  match f with
  | refused _ cause => [f.message, cause.message]
  | unpacking _ cause => [f.message, cause.message]
  | malformed _ cause => [f.message, detail cause]
  | nestedTags => [f.message, nestedTagsDetail]
  | _ => [f.message]

end Failure

end JobConfig
