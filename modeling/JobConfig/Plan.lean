import JobConfig.Reconcile.Merge
import JobConfig.Reconcile.Prune
import JobConfig.Reconcile.Sort
import JobConfig.Scan
import JobConfig.Shard

/-!
# Planning the files of a repository

The jobs generated for a repository are reconciled with its files, in the order in which a scan
hands these over. A file gets the shard of its own name, and the first file of a name takes it;
shards that no file takes become new files. In all files jobs that were not renewed are dropped.
-/

namespace JobConfig

/-- What a file shall hold. -/
structure Planned where
  path : Path
  jobs : JobSet
deriving DecidableEq, Inhabited

/-- The directory of a repository. -/
def repoDir (jobDir : Path) (org repo : String) : Path :=
  (jobDir.join (.ofString org)).join (.ofString repo)

/-- The name by which a file takes a shard. -/
def shardName (p : Path) : String :=
  (p.fileName?.map Utf8.decodeLossy).getD ""

/-- The jobs that a file shall hold. -/
def reconcile (considered : Considered) (old : JobSet) (shard? : Option JobSet) : JobSet :=
  match shard? with
  | some new => if new.isEmpty then old else old.merge considered new
  | none => old

/-- Plan the files that are there; the shards that they do not take are left. -/
def planFiles (considered : Considered) (shards : Shards) :
    List (Identity × JobSet) → List Planned × Shards
  | [] => ([], shards)
  | (i, old) :: rest =>
    let name := shardName i.file
    let jobs := reconcile considered old (shards.get? name)
    let (planned, left) := planFiles considered (shards.erase name) rest
    (⟨i.file, jobs.prune.sort⟩ :: planned, left)

/-- The names that the generator has considered for a repository. -/
def JobSet.considered (org repo : String) (s : JobSet) : Considered :=
  .ofJobSets (s.shards org repo).values

/-- The plan for files that are handed over one after the other, in the order of the planned
paths. -/
def planOf (jobDir : Path) (org repo : String) (generated : JobSet)
    (found : List (Identity × JobSet)) : List Planned :=
  let settled := planFiles (generated.considered org repo) (generated.shards org repo) found
  let fresh := settled.2.entries.map fun e =>
    ⟨(repoDir jobDir org repo).join (.ofString e.1), e.2.prune.sort⟩
  sortBy (·.path.sortKey) (settled.1 ++ fresh)

namespace FileTree

/-- The files that a plan starts from, as a scan hands them over. -/
def found (t : FileTree) (dir : Path) (scan : Scanner := .inOrder) : List (Identity × JobSet) :=
  if t.isDirectory dir then scan.deliver t dir else []

/-- The files of a repository after its generated jobs are reconciled. -/
def plan (t : FileTree) (jobDir : Path) (org repo : String) (generated : JobSet)
    (scan : Scanner := .inOrder) : List Planned :=
  planOf jobDir org repo generated (t.found (repoDir jobDir org repo) scan)

end FileTree

end JobConfig
