import JobConfig.Scan.Parallel
import JobConfig.StableSort

/-!
# A pool of workers as a scanner

Nothing is promised on the order in which several workers hand over what they load. In the pool the
one who gets done first moves first, and that is a worker with less to read.
-/

namespace JobConfig.Scan

/-- How many bytes a worker has to read before it sends or skips. -/
def Worker.unread (t : FileTree) : Worker → Nat
  | reading i => ((t.readFile i.file).toOption.getD []).length
  | waiting | sending _ | stopped => 0

namespace State

variable (t : FileTree) (f : Handler)

/-- All who may move, the faster ones first. -/
def movers (s : State) : List Mover :=
  .receiver :: .walker ::
    (sortBy Prod.fst (s.workers.map (Worker.unread t)).zipIdx).map fun e => .worker e.2

/-- The state after at most `fuel` moves, each by the fastest who is not held up. -/
def proceed : (fuel : Nat) → State → State
  | 0, s => s
  | fuel + 1, s =>
    match (s.movers t).findSome? (s.move t f) with
    | some s => proceed fuel s
    | none => s

end State

/-- What a pool of `n` workers hands over, in the order in which it does. -/
def handed (t : FileTree) (root : Path) (n : Nat) : List Identity :=
  let fuel := 5 * (t.identities root).length + n + 3
  ((start t root n).proceed t (fun _ _ => .ok ()) fuel).calls.map (·.1)

/-- The number of workers that a pool of `n` makes use of: one at least, and no more than find
something to read. -/
def inUse (t : FileTree) (root : Path) (n : Nat) : Nat :=
  min (max 1 n) (max 1 (t.identities root).length)

end JobConfig.Scan

namespace JobConfig

open Scan in
/-- A pool of `n` workers. -/
def Scanner.pool (n : Nat) : Scanner where
  deliver t root :=
    if inUse t root n = 1 then t.loaded root
    else
      let order := handed t root (inUse t root n)
      sortBy (fun e => order.idxOf e.1) (t.loaded root)
  perm t root := by
    dsimp only
    split
    · exact .refl _
    · exact sortBy_perm _ _

end JobConfig
