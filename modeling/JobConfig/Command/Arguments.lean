import JobConfig.Path

/-!
# Arguments of the command

A command line is options for all tasks, a task, and the options and arguments of that task, among
which the options for all tasks may stand too. An option may be given once in each of the two
places; of two values the one of the task counts.
-/

namespace JobConfig.Command

/-- What to do. -/
inductive Task where
  | shard (generated : Path) (org repo : String) (dryRun : Bool)
  | diff (generated : Path) (org repo : String)
  | list (json : Bool)
  | dump
deriving DecidableEq

/-- A task, the directory of the job files, and the number of workers if it is given. -/
structure Invocation where
  jobDir : Path
  workers? : Option Nat
  task : Task
deriving DecidableEq

/-- Why there is nothing to do. -/
inductive Stop where
  | usage
  | help
  | version
deriving DecidableEq

/-- The options and arguments that may stand in a place. -/
structure Grammar where
  valued : List String := []
  flags : List String := []
  arguments : Nat := 0
  /-- Whether the place is that before the task, which ends at the name of the task. -/
  isOuter : Bool := false

/-- The options and arguments that were given in a place, the last ones first. -/
structure Given where
  values : List (String × String) := []
  flags : List String := []
  arguments : List String := []

namespace Given

/-- The value of an option. -/
def value? (g : Given) (name : String) : Option String :=
  g.values.lookup name

end Given

/-- The number that a text gives for the number of workers. -/
def workers? (s : String) : Option Nat :=
  let digits := match s.toList with
    | '+' :: cs => cs
    | cs => cs
  if !digits.isEmpty && digits.all Char.isDigit then
    some (digits.foldl (fun n c => 10 * n + (c.toNat - 48)) 0) |>.filter (· < UInt64.size)
  else none

/-- Whether an option admits a value. -/
def admits (name value : String) : Bool :=
  if name == "workers" then (workers? value).isSome
  else if name == "job-dir" then value != ""
  else true

/-- Whether an argument looks like an option. -/
def isOption (s : String) : Bool :=
  s.toList.head? == some '-' && s != "-"

namespace Grammar

/-- Note the value of an option. -/
def addValue (g : Given) (name value : String) : Except Stop Given :=
  if (g.value? name).isSome || !admits name value then .error .usage
  else .ok { g with values := (name, value) :: g.values }

/-- Note a flag. -/
def addFlag (g : Given) (name : String) : Except Stop Given :=
  if g.flags.contains name then .error .usage else .ok { g with flags := name :: g.flags }

/-- Read an option given by its name; its value follows an equals sign or is the next argument. -/
def readLong (grammar : Grammar) (g : Given) (text : List Char) (args : List String) :
    Except Stop (Given × List String) :=
  let name := String.ofList (text.takeWhile (· != '='))
  let attached := (text.dropWhile (· != '=')).tail
  let hasValue := text.contains '='
  if grammar.valued.contains name then
    if hasValue then (addValue g name (String.ofList attached)).map (·, args)
    else
      match args with
      | [] => .error .usage
      | v :: args => if isOption v then .error .usage else (addValue g name v).map (·, args)
  else if hasValue then .error .usage
  else if grammar.flags.contains name then (addFlag g name).map (·, args)
  else if name = "help" then .error .help
  else if name = "version" ∧ grammar.isOuter then .error .version
  else .error .usage

/-- Read options given by one letter each. -/
def readShort (grammar : Grammar) : Given → List Char → Except Stop Given
  | g, [] => .ok g
  | g, c :: cs =>
    if c = 'v' then do
      let g ← addFlag g "verbose"
      readShort grammar g cs
    else if c = 'h' then .error .help
    else if c = 'V' ∧ grammar.isOuter then .error .version
    else .error .usage

/-- Note an argument that is no option. -/
def addArgument (grammar : Grammar) (g : Given) (s : String) : Except Stop Given :=
  if g.arguments.length < grammar.arguments ∧ s ≠ "" then
    .ok { g with arguments := s :: g.arguments }
  else .error .usage

/-- Read what stands in a place, and what stands after it. -/
def read (grammar : Grammar) : Nat → Given → List String → Except Stop (Given × List String)
  | 0, _, _ => .error .usage
  | _ + 1, g, [] => .ok (g, [])
  | fuel + 1, g, arg :: args =>
    match arg.toList with
    | ['-', '-'] =>
      if grammar.isOuter then .error .usage
      else (args.foldlM (addArgument grammar) g).map (·, [])
    | '-' :: '-' :: text => do
      let (g, args) ← readLong grammar g text args
      read grammar fuel g args
    | '-' :: c :: cs => do
      let g ← readShort grammar g (c :: cs)
      read grammar fuel g args
    | _ =>
      if grammar.isOuter then .ok (g, arg :: args)
      else do
        let g ← addArgument grammar g arg
        read grammar fuel g args

end Grammar

/-- The options for all tasks. -/
def outer : Grammar where
  valued := ["job-dir", "workers"]
  flags := ["verbose"]
  isOuter := true

/-- The options and arguments of a task. -/
def grammarOf? (task : String) : Option Grammar :=
  let common : Grammar := { outer with isOuter := false }
  let repository : Grammar :=
    { common with valued := ["org", "repo"] ++ common.valued, arguments := 1 }
  match task with
  | "shard" => some { repository with flags := "dry-run" :: common.flags }
  | "diff" => some repository
  | "list" => some { common with flags := "json" :: common.flags }
  | "dump" => some common
  | _ => none

/-- The task of a name with its options and arguments. -/
def taskOf? (name : String) (g : Given) : Option Task :=
  match name with
  | "list" => some (.list (g.flags.contains "json"))
  | "dump" => some .dump
  | _ => do
    let generated := Path.ofString (← g.arguments.head?)
    let org ← g.value? "org"
    let repo ← g.value? "repo"
    match name with
    | "shard" => return .shard generated org repo (g.flags.contains "dry-run")
    | "diff" => return .diff generated org repo
    | _ => none

/-- The variable of the environment that stands in for an option. -/
def variableOf (name : String) : String :=
  if name = "job-dir" then "JOBSHARD_JOB_DIR" else "JOBSHARD_WORKERS"

/-- Whether the environment has only values that options admit, where they are needed in a place. -/
def admitsEnvironment (env : String → Option String) (g : Given) : Bool :=
  outer.valued.all fun name =>
    (g.value? name).isSome || (env (variableOf name)).all (admits name)

/-- The directory of the job files if none is given. -/
def defaultDir : String := "."

/-- The value of an option for all tasks. -/
def valueOf? (env : String → Option String) (before after : Given) (name : String) :
    Option String :=
  ((after.value? name).or (before.value? name)).or (env (variableOf name))

/-- Read a command line. -/
def parse (env : String → Option String) (args : List String) : Except Stop Invocation := do
  let (before, rest) ← outer.read (args.length + 1) {} args
  match rest with
  | [] => .error .usage
  | name :: rest =>
    if name = "help" then
      if rest.all fun s => (grammarOf? s).isSome || s == "help" then .error .help else .error .usage
    else
      let some grammar := grammarOf? name | .error .usage
      let (after, _) ← grammar.read (rest.length + 1) {} rest
      let some task := taskOf? name after | .error .usage
      if admitsEnvironment env before && admitsEnvironment env after then
        let value? := valueOf? env before after
        return {
          jobDir := .ofString ((value? "job-dir").getD defaultDir)
          workers? := (value? "workers").bind workers?
          task }
      else .error .usage

end JobConfig.Command
