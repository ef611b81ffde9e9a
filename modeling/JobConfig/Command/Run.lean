import JobConfig.Command.Arguments
import JobConfig.Command.Listing
import JobConfig.Preview
import JobConfig.Scan.Pool

/-!
# Running the command

What a run of the command prints, its exit code, and the tree that it leaves.
-/

namespace JobConfig.Command

/-- What a run prints, and its exit code. -/
structure Report where
  code : UInt8 := 0
  output : String := ""
  errors : String := ""
deriving DecidableEq, Inhabited

/-- A text whose lines after the first one are indented. -/
def hang (indent : String) (s : String) : String :=
  String.ofList (s.toList.flatMap fun c => if c = '\n' then '\n' :: indent.toList else [c])

/-- Causes below each other, with numbers if there are several. -/
def causesText (causes : List String) : String :=
  match causes with
  | [c] => "    " ++ hang "    " c ++ "\n"
  | cs => String.join (cs.zipIdx.map fun c =>
      "    " ++ toString c.2 ++ ": " ++ hang "       " c.1 ++ "\n")

/-- The report of a failure. -/
def failed (context : String) (f : Failure) : Report where
  code := 1
  errors := "Error: " ++ context ++ "\n\nCaused by:\n" ++ causesText f.causes

/-- The report of a result, or of a failure. -/
def report {α : Type} (context : String) (show? : α → Report) : Except Failure α → Report
  | .ok a => show? a
  | .error f => failed context f

/-- What became of a file, in words. -/
def outcomeWords : Outcome → String
  | .written => "written"
  | .wouldWrite => "would write"
  | .deleted => "deleted"
  | .wouldDelete => "would delete"
  | .unchanged => "unchanged"

/-- A text with spaces up to a width. -/
def padded (width : Nat) (s : String) : String :=
  s ++ String.ofList (List.replicate (width - s.length) ' ')

/-- The lines on the outcomes of writing. -/
def outcomesText (repo : String) (dryRun : Bool) (os : List (Outcome × Path)) : String :=
  let start := if dryRun then "[dry-run] " else ""
  let changed := os.countP fun o => o.1 ≠ .unchanged
  if changed = 0 then start ++ "'" ++ repo ++ "': nothing to do\n"
  else
    start ++ "'" ++ repo ++ "' sharded (" ++ toString changed ++ " changed, " ++
      toString (os.length - changed) ++ " unchanged)\n" ++
      String.join (os.map fun o =>
        "  " ++ padded 12 (outcomeWords o.1) ++ " " ++ o.2.display ++ "\n")

/-- The text of differences. -/
def diffsText (repo : String) (ds : List FileDiff) : String :=
  if ds.isEmpty then "No differences for '" ++ repo ++ "'.\n"
  else String.join (ds.map fun d =>
    if d.diff.toList.getLast? = some '\n' then d.diff else d.diff ++ "\n")

/-- Do a task. As many workers as are `available` scan the files if no number is given. -/
def Invocation.run (i : Invocation) (t : FileTree) (available : Nat) : Report × FileTree :=
  let scan := Scanner.pool (i.workers?.getD available)
  match i.task with
  | .shard generated org repo dryRun =>
    match t.load generated with
    | .error f => (failed ("failed to load " ++ generated.display) f, t)
    | .ok jobs =>
      let (r, t) := t.shardInto i.jobDir org repo jobs dryRun scan
      let name := repoKey org repo
      (report ("shard failed for '" ++ name ++ "'")
        (fun os => { output := outcomesText name dryRun os }) r, t)
  | .diff generated org repo =>
    match t.load generated with
    | .error f => (failed ("failed to load " ++ generated.display) f, t)
    | .ok jobs =>
      let name := repoKey org repo
      (report ("diff failed for '" ++ name ++ "'")
        (fun ds => { output := diffsText name ds }) (t.preview i.jobDir org repo jobs scan), t)
  | .list json =>
    let files := t.identities i.jobDir
    if json then
      match listJson? i.jobDir files with
      | some text => ({ output := text }, t)
      | none =>
        ({ code := 1, errors := "Error: path contains invalid UTF-8 characters\n" }, t)
    else ({ output := listText i.jobDir files }, t)
  | .dump =>
    match (t.allJobs i.jobDir scan).sort.render with
    | .ok text => ({ output := text }, t)
    | .error _ => ({ code := 1, errors := "Error: " ++ Failure.nestedTagsDetail ++ "\n" }, t)

/-- How the command is called. -/
def usage : String :=
  "Usage: jobshard [--job-dir <dir>] [--workers <n>] [-v] <task>\n" ++
  "Tasks: shard <generated> --org <org> --repo <repo> [--dry-run]\n" ++
  "       diff <generated> --org <org> --repo <repo>\n" ++
  "       list [--json]\n" ++
  "       dump\n"

/-- Run the command. -/
def run (env : String → Option String) (args : List String) (t : FileTree) (available : Nat := 1) :
    Report × FileTree :=
  match parse env args with
  | .ok i => i.run t available
  | .error .usage => ({ code := 2, errors := usage }, t)
  | .error .help => ({ output := usage }, t)
  | .error .version => ({ output := "jobshard 0.1.11\n" }, t)

end JobConfig.Command
