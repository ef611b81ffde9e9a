import JobConfig.Identity

/-!
# Lists of job files

The job files of a directory, a line for each, or as one JSON document.
-/

namespace JobConfig.Command

/-- One character of a JSON string. -/
def jsonChar (c : Char) : List Char :=
  match c with
  | '"' => ['\\', '"']
  | '\\' => ['\\', '\\']
  | '\x08' => ['\\', 'b']
  | '\x0c' => ['\\', 'f']
  | '\n' => ['\\', 'n']
  | '\r' => ['\\', 'r']
  | '\t' => ['\\', 't']
  | c =>
    if c.toNat < 0x20 then
      ['\\', 'u', '0', '0', Nat.digitChar (c.toNat / 16), Nat.digitChar (c.toNat % 16)]
    else [c]

/-- A JSON string. -/
def jsonString (s : String) : String :=
  String.ofList ('"' :: s.toList.flatMap jsonChar ++ ['"'])

/-- A file as a line of fields with tabs between them. -/
def listLine (i : Identity) : String :=
  let branch := if i.branch = "" then "-" else i.branch
  i.org ++ "/" ++ i.repo ++ "\t" ++ branch ++ "\t" ++ i.kind.token ++ "\t" ++ i.file.display ++ "\n"

/-- The list of files in plain text. -/
def listText (jobDir : Path) (files : List Identity) : String :=
  if files.isEmpty then "No job configuration files under " ++ jobDir.display ++ ".\n"
  else String.join (files.map listLine)

/-- A path as a JSON string. Its bytes have to be well-formed text. -/
def jsonPath? (p : Path) : Option String :=
  (Utf8.decode? p.bytes).map jsonString

/-- A file as a JSON object. -/
def listObject? (i : Identity) : Option String := do
  let member (name text : String) : String := "      \"" ++ name ++ "\": " ++ text
  let members := [member "org" (jsonString i.org), member "repo" (jsonString i.repo),
    member "branch" (jsonString i.branch), member "kind" (jsonString i.kind.word),
    member "filename" (← jsonPath? i.file)]
  return "    \x7b\n" ++ ",\n".intercalate members ++ "\n    \x7d"

/-- The list of files as a JSON document. -/
def listJson? (jobDir : Path) (files : List Identity) : Option String := do
  let dir ← jsonPath? jobDir
  let objects ← files.mapM listObject?
  let array := if objects.isEmpty then "[]" else "[\n" ++ ",\n".intercalate objects ++ "\n  ]"
  return "\x7b\n  \"job_dir\": " ++ dir ++ ",\n  \"files\": " ++ array ++ "\n\x7d\n"

end JobConfig.Command
