import JobConfig.Failure
import JobConfig.Gzip.Member
import JobConfig.Schema.Record
import JobConfig.Schema.ToValue
import JobConfig.Yaml.Printer
import JobConfig.Yaml.Reader

/-!
# Job sets as files

The text of a job set, and the job set of a file. A file may be compressed. A file without content,
or whose document is a null, holds no job set, not even an empty one.
-/

namespace JobConfig

/-- The text of a job set. -/
def JobSet.text (s : JobSet) : String :=
  Yaml.document s.toValue

/-- The text of a job set. There is none if a tag stands right below a tag. -/
def JobSet.render (s : JobSet) : Except Failure String :=
  if s.toValue.nestsTags then .error .nestedTags else .ok s.text

/-- Whether a byte is white space. -/
def isWhite (b : UInt8) : Bool :=
  b == 0x20 || b == 0x9 || b == 0xa || b == 0xc || b == 0xd

/-- Why the content of a file is not a job set. -/
inductive LoadFault where
  | unpacking (cause : Gzip.Fault)
  | malformed (cause : Misread)
  | empty
deriving DecidableEq

/-- The failure to load a file. -/
def LoadFault.at (path : Path) : LoadFault → Failure
  | unpacking cause => .unpacking path cause
  | malformed cause => .malformed path cause
  | empty => .empty path

/-- The job set of a document, if it is not null. The fault of a stream that does not end after the
document is that of its text. -/
def JobSet.ofDocument (d : Yaml.Document) : Except Misread (Option JobSet) := do
  let datum := d.datum JobSet.hasField
  let set? ← if ← placed .root datum.isAbsent then pure none else some <$> JobSet.read datum
  if d.isAlone then return set? else .error ⟨.root, .syntaxError⟩

/-- The job set of a text. -/
def JobSet.ofText (bs : Bytes) : Except LoadFault JobSet :=
  if bs.all isWhite then .error .empty
  else
    match Yaml.Document.ofBytes? bs with
    | none => .error .empty
    | some d =>
      match JobSet.ofDocument d with
      | .error m => .error (.malformed m)
      | .ok none => .error .empty
      | .ok (some s) => .ok s

/-- The job set of the content of a file. -/
def JobSet.ofContent (bs : Bytes) : Except LoadFault JobSet :=
  if Gzip.isCompressed bs then
    match Gzip.unpack bs with
    | .error cause => .error (.unpacking cause)
    | .ok bs => ofText bs
  else ofText bs

end JobConfig
