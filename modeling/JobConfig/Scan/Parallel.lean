import JobConfig.Scan

/-!
# A scan by several workers

A walker puts the identities that it meets into a queue with room for two of each worker. The
workers take them from it, read the files, and send what can be loaded to the receiver, who hands it
over. All of them work at the same time: any that is not held up may move next.
-/

namespace JobConfig.Scan

/-- What the walker has yet to meet, or how its walk has ended. -/
inductive Walker where
  | walking (rest : List Identity)
  | stopped (result : Except Failure Unit)

/-- The identities that the walker has yet to meet. -/
def Walker.rest : Walker → List Identity
  | walking rest => rest
  | stopped _ => []

/-- Whether the walk has ended. -/
def Walker.isStopped : Walker → Bool
  | walking _ => false
  | stopped _ => true

/-- What a worker is about to do. -/
inductive Worker where
  | waiting
  | reading (i : Identity)
  | sending (e : Identity × JobSet)
  | stopped
deriving DecidableEq, Inhabited

/-- What the receiver is about to do, or what it has returned. -/
inductive Receiver where
  | receiving
  | joining
  | returned (result : Except Failure Unit)

/-- What takes the job sets that are handed over. Its answer may depend on all that it was given
before. -/
abbrev Handler := List (Identity × JobSet) → Identity × JobSet → Except Failure Unit

/-- A scan under way. It keeps account of which worker has taken which identity, and of what was
handed over. -/
structure State where
  walker : Walker
  queue : List Identity := []
  workers : List Worker
  results : List (Identity × JobSet) := []
  receiver : Receiver := .receiving
  taken : List (Nat × Identity) := []
  calls : List (Identity × JobSet) := []
  failures : List Failure := []

/-- Who moves. -/
inductive Mover where
  | walker
  | worker (w : Nat)
  | receiver

/-- A scan of a tree with `n` workers before anyone has moved. -/
def start (t : FileTree) (root : Path) (n : Nat) : State where
  walker := .walking (t.identities root)
  workers := .replicate n .waiting

namespace State

variable (t : FileTree) (f : Handler) (s : State)

/-- Whether all workers have stopped. -/
def isUnattended : Bool :=
  s.workers.all (· = .stopped)

/-- Whether the scan is over. -/
def isOver : Bool :=
  match s.receiver with
  | .returned _ => true
  | _ => false

/-- The walker waits while the queue is full, and fails if nobody is left to take from it. -/
def moveWalker : Option State :=
  match s.walker with
  | .walking [] => some { s with walker := .stopped (.ok ()) }
  | .walking (i :: rest) =>
    if s.isUnattended then some { s with walker := .stopped (.error .lostWorker) }
    else if s.queue.length < 2 * s.workers.length then
      some { s with walker := .walking rest, queue := s.queue ++ [i] }
    else none
  | .stopped _ => none

/-- A worker waits while the queue is empty, and stops if the walk has ended. A file that cannot be
loaded is skipped. -/
def moveWorker (w : Nat) : Option State :=
  match s.workers[w]? with
  | some .waiting =>
    match s.queue with
    | i :: queue =>
      some { s with
        queue
        workers := s.workers.set w (.reading i)
        taken := s.taken ++ [(w, i)] }
    | [] =>
      if s.walker.isStopped then some { s with workers := s.workers.set w .stopped } else none
  | some (.reading i) =>
    match t.load i.file with
    | .ok jobs => some { s with workers := s.workers.set w (.sending (i, jobs)) }
    | .error _ => some { s with workers := s.workers.set w .waiting }
  | some (.sending e) =>
    some { s with workers := s.workers.set w .waiting, results := s.results ++ [e] }
  | some .stopped => none
  | none => none

/-- The receiver waits while a worker may send more, then for the walker. It returns all failures
together. -/
def moveReceiver : Option State :=
  match s.receiver with
  | .receiving =>
    match s.results with
    | e :: results =>
      some { s with
        results
        calls := s.calls ++ [e]
        failures := s.failures ++ (failure? (f s.calls e)).toList }
    | [] => if s.isUnattended then some { s with receiver := .joining } else none
  | .joining =>
    match s.walker with
    | .stopped result =>
      some { s with
        receiver := .returned (Failure.aggregate (s.failures ++ (failure? result).toList)) }
    | .walking _ => none
  | .returned _ => none

/-- The state after a move, if the mover is not held up. -/
def move : Mover → Option State
  | .walker => s.moveWalker
  | .worker w => s.moveWorker t w
  | .receiver => s.moveReceiver f

/-- The state after moves one after the other. -/
def run : List Mover → State → Option State
  | [], s => some s
  | m :: ms, s => (s.move t f m).bind (run ms)

end State

end JobConfig.Scan
