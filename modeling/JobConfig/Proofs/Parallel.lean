import JobConfig.Proofs.Run
import JobConfig.Scan.Parallel
import Mathlib.Algebra.GroupWithZero.Nat
import Mathlib.Data.List.Nodup

/-!
# What a scan by several workers hands over

Each identity that the walk meets is in one place: not met yet, in the queue, or taken by a worker.
What is loaded from the files that are taken is in one place as well: with a worker, on its way to
the receiver, or handed over. When the scan is over, everything was handed over once. It comes to
its end whoever moves when: until it is over somebody can move, and each move leaves less to do.
-/

namespace JobConfig.Scan

variable {t : FileTree} {root : Path} {f : Handler} {n w : Nat} {s s' : State} {m : Mover}

/-! ### Moves -/

/-- What a move does, and when the mover is not held up. -/
inductive Moves (t : FileTree) (f : Handler) (s : State) : State → Prop where
  | finish (hw : s.walker = .walking []) : Moves t f s { s with walker := .stopped (.ok ()) }
  | giveUp {i : Identity} {rest : List Identity} (hw : s.walker = .walking (i :: rest))
      (hall : ∀ x ∈ s.workers, x = .stopped) :
      Moves t f s { s with walker := .stopped (.error .lostWorker) }
  | push {i : Identity} {rest : List Identity} (hw : s.walker = .walking (i :: rest))
      (hroom : s.queue.length < 2 * s.workers.length) :
      Moves t f s { s with walker := .walking rest, queue := s.queue ++ [i] }
  | take {as bs : List Worker} {i : Identity} {queue : List Identity}
      (hs : s.workers = as ++ .waiting :: bs) (hq : s.queue = i :: queue) :
      Moves t f s { s with
        queue
        workers := as ++ .reading i :: bs
        taken := s.taken ++ [(as.length, i)] }
  | stop {as bs : List Worker} (hs : s.workers = as ++ .waiting :: bs) (hq : s.queue = [])
      (hw : s.walker.isStopped = true) : Moves t f s { s with workers := as ++ .stopped :: bs }
  | read {as bs : List Worker} {i : Identity} {jobs : JobSet}
      (hs : s.workers = as ++ .reading i :: bs) (hl : t.load i.file = .ok jobs) :
      Moves t f s { s with workers := as ++ .sending (i, jobs) :: bs }
  | skip {as bs : List Worker} {i : Identity} {e : Failure}
      (hs : s.workers = as ++ .reading i :: bs) (hl : t.load i.file = .error e) :
      Moves t f s { s with workers := as ++ .waiting :: bs }
  | send {as bs : List Worker} {e : Identity × JobSet} (hs : s.workers = as ++ .sending e :: bs) :
      Moves t f s { s with workers := as ++ .waiting :: bs, results := s.results ++ [e] }
  | receive {e : Identity × JobSet} {results : List (Identity × JobSet)}
      (hr : s.receiver = .receiving) (he : s.results = e :: results) :
      Moves t f s { s with
        results
        calls := s.calls ++ [e]
        failures := s.failures ++ (failure? (f s.calls e)).toList }
  | close (hr : s.receiver = .receiving) (he : s.results = [])
      (hall : ∀ x ∈ s.workers, x = .stopped) : Moves t f s { s with receiver := .joining }
  | leave {result : Except Failure Unit} (hr : s.receiver = .joining)
      (hw : s.walker = .stopped result) :
      Moves t f s { s with
        receiver := .returned (Failure.aggregate (s.failures ++ (failure? result).toList)) }

theorem isUnattended_iff : s.isUnattended = true ↔ ∀ x ∈ s.workers, x = .stopped := by
  simp [State.isUnattended]

/-- A list with one of its elements replaced. -/
theorem exists_of_getElem? {α : Type} {as : List α} {a : α} (h : as[w]? = some a) :
    ∃ bs cs, as = bs ++ a :: cs ∧ bs.length = w ∧ ∀ b, as.set w b = bs ++ b :: cs := by
  obtain ⟨hlt, ha⟩ := List.getElem?_eq_some_iff.1 h
  refine ⟨as.take w, as.drop (w + 1), ?_, ?_, fun b => ?_⟩
  · rw [← ha, ← List.drop_eq_getElem_cons hlt, List.take_append_drop]
  · rw [List.length_take]
    omega
  · rw [List.set_eq_take_append_cons_drop, if_pos hlt]

theorem moves_of_moveWalker (h : s.moveWalker = some s') : Moves t f s s' := by
  unfold State.moveWalker at h
  split at h
  · rename_i hw
    cases h
    exact .finish hw
  · rename_i hw
    split at h
    · rename_i hall
      cases h
      exact .giveUp hw (isUnattended_iff.1 hall)
    · split at h
      · rename_i hroom
        cases h
        exact .push hw hroom
      · cases h
  · cases h

theorem moves_of_moveWorker (h : s.moveWorker t w = some s') : Moves t f s s' := by
  unfold State.moveWorker at h
  split at h
  · rename_i hx
    obtain ⟨as, bs, hs, rfl, hset⟩ := exists_of_getElem? hx
    split at h
    · rename_i hq
      cases h
      rw [hset]
      exact .take hs hq
    · rename_i hq
      split at h
      · rename_i hw
        cases h
        rw [hset]
        exact .stop hs hq hw
      · cases h
  · rename_i hx
    obtain ⟨as, bs, hs, rfl, hset⟩ := exists_of_getElem? hx
    split at h
    · rename_i hl
      cases h
      rw [hset]
      exact .read hs hl
    · rename_i hl
      cases h
      rw [hset]
      exact .skip hs hl
  · rename_i hx
    obtain ⟨as, bs, hs, rfl, hset⟩ := exists_of_getElem? hx
    cases h
    rw [hset]
    exact .send hs
  · cases h
  · cases h

theorem moves_of_moveReceiver (h : s.moveReceiver f = some s') : Moves t f s s' := by
  unfold State.moveReceiver at h
  split at h
  · rename_i hr
    split at h
    · rename_i he
      cases h
      exact .receive hr he
    · rename_i he
      split at h
      · rename_i hall
        cases h
        exact .close hr he (isUnattended_iff.1 hall)
      · cases h
  · rename_i hr
    split at h
    · rename_i hw
      cases h
      exact .leave hr hw
    · cases h
  · cases h

theorem moves_of_move (h : s.move t f m = some s') : Moves t f s s' := by
  cases m with
  | walker => exact moves_of_moveWalker h
  | worker w => exact moves_of_moveWorker h
  | receiver => exact moves_of_moveReceiver h

/-! ### What a move preserves -/

/-- The failures of a handler that is given job sets one after the other. -/
def Handler.failures (f : Handler) (past : List (Identity × JobSet)) :
    List (Identity × JobSet) → List Failure
  | [] => []
  | e :: es => (failure? (f past e)).toList ++ failures f (past ++ [e]) es

theorem Handler.failures_concat (f : Handler) (past es : List (Identity × JobSet))
    (e : Identity × JobSet) : f.failures past (es ++ [e]) =
      f.failures past es ++ (failure? (f (past ++ es) e)).toList := by
  induction es generalizing past with
  | nil => simp [failures]
  | cons x es ih => simp [failures, ih, List.append_assoc]

theorem Handler.failures_const (g : Identity → JobSet → Except Failure Unit)
    (past es : List (Identity × JobSet)) : Handler.failures (fun _ e => g e.1 e.2) past es =
      es.filterMap fun e => failure? (g e.1 e.2) := by
  induction es generalizing past with
  | nil => rfl
  | cons e es ih =>
    rw [failures, ih, List.filterMap_cons]
    cases failure? (g e.1 e.2) <;> rfl

/-- The job sets that a worker will send before it takes the next identity. -/
def Worker.held (t : FileTree) : Worker → List (Identity × JobSet)
  | waiting => []
  | reading i => (t.loaded? i).toList
  | sending e => [e]
  | stopped => []

/-- What is known of a scan under way. -/
structure Sound (t : FileTree) (root : Path) (f : Handler) (n : Nat) (s : State) : Prop where
  size : s.workers.length = n
  room : s.queue.length ≤ 2 * n
  met : s.taken.map (·.2) ++ s.queue ++ s.walker.rest = t.identities root
  takers : ∀ e ∈ s.taken, e.1 < n
  loads : (s.calls ++ s.results ++ s.workers.flatMap (Worker.held t)).Perm
    ((s.taken.map (·.2)).filterMap t.loaded?)
  single : n = 1 → s.calls ++ s.results ++ s.workers.flatMap (Worker.held t) =
    (s.taken.map (·.2)).filterMap t.loaded?
  stops : .stopped ∈ s.workers → s.walker.isStopped = true ∧ s.queue = []
  walked : ∀ result, s.walker = .stopped result → result = .ok ()
  closed : s.receiver ≠ .receiving → s.results = [] ∧ ∀ x ∈ s.workers, x = .stopped
  failures : s.failures = f.failures [] s.calls
  returned : ∀ result, s.receiver = .returned result →
    s.walker.isStopped = true ∧ result = Failure.aggregate s.failures

theorem sound_start (t : FileTree) (root : Path) (f : Handler) (n : Nat) :
    Sound t root f n (start t root n) where
  size := List.length_replicate
  room := Nat.zero_le _
  met := rfl
  takers _ h := absurd h List.not_mem_nil
  loads := by simp [start, Worker.held]
  single _ := by simp [start, Worker.held]
  stops h := by simp [start] at h
  walked _ h := by cases h
  closed h := absurd rfl h
  failures := rfl
  returned _ h := by cases h

/-- The receiver does not leave before the workers. -/
theorem Sound.receiving (h : Sound t root f n s) {as bs : List Worker} {x : Worker}
    (hs : s.workers = as ++ x :: bs) (hx : x ≠ .stopped) : s.receiver = .receiving := by
  by_contra hr
  exact hx ((h.closed hr).2 x (by simp [hs]))

/-- There are workers, and none of them stops before the walker. -/
theorem Sound.of_unattended (hn : 0 < n) (h : Sound t root f n s)
    (hall : ∀ x ∈ s.workers, x = .stopped) : s.walker.isStopped = true ∧ s.queue = [] := by
  obtain ⟨x, hx⟩ := List.exists_mem_of_length_pos (h.size ▸ hn)
  apply h.stops
  rwa [← hall x hx]

theorem Sound.size_append (h : Sound t root f n s) {as bs : List Worker} {x : Worker}
    (hs : s.workers = as ++ x :: bs) : as.length + (bs.length + 1) = n := by
  rw [← h.size, hs, List.length_append, List.length_cons]

/-- A single worker has no others beside it. -/
theorem Sound.alone (h : Sound t root f 1 s) {as bs : List Worker} {x : Worker}
    (hs : s.workers = as ++ x :: bs) : as = [] ∧ bs = [] := by
  have hsize := h.size_append hs
  rw [← List.length_eq_zero_iff, ← List.length_eq_zero_iff]
  omega

/-- The walker puts the next identity into the queue. -/
theorem Sound.push (h : Sound t root f n s) {i : Identity} {rest : List Identity}
    (hw : s.walker = .walking (i :: rest)) (hroom : s.queue.length < 2 * s.workers.length) :
    Sound t root f n { s with walker := .walking rest, queue := s.queue ++ [i] } := by
  have hwalking : s.walker.isStopped ≠ true := by simp [hw, Walker.isStopped]
  exact { h with
    room := by
      rw [List.length_append, List.length_singleton, ← h.size]
      omega
    met := by simpa [hw, Walker.rest] using h.met
    stops := fun hs => absurd (h.stops hs).1 hwalking
    walked := fun _ hr => by cases hr
    returned := fun _ hr => absurd (h.returned _ hr).1 hwalking }

/-- A worker goes on to something else with the same job sets. -/
theorem Sound.replace (h : Sound t root f n s) {as bs : List Worker} {x y : Worker}
    (hs : s.workers = as ++ x :: bs) (hx : x ≠ .stopped) (hheld : y.held t = x.held t)
    (hy : y = .stopped → s.walker.isStopped = true ∧ s.queue = []) :
    Sound t root f n { s with workers := as ++ y :: bs } := by
  have hsame : (as ++ y :: bs).flatMap (Worker.held t) = s.workers.flatMap (Worker.held t) := by
    simp [hs, hheld]
  exact { h with
    size := by simpa using h.size_append hs
    loads := by simpa only [hsame] using h.loads
    single := by simpa only [hsame] using h.single
    stops := fun hmem => by
      by_cases hstop : y = .stopped
      · exact hy hstop
      · refine h.stops ?_
        rw [hs, List.mem_append, List.mem_cons]
        exact (List.mem_append.1 hmem).imp_right fun hmem =>
          .inr ((List.mem_cons.1 hmem).resolve_left (Ne.symm hstop))
    closed := fun hr => absurd (h.receiving hs hx) hr }

/-- A worker takes an identity from the queue. -/
theorem Sound.take (h : Sound t root f n s) {as bs : List Worker} {i : Identity}
    {queue : List Identity} (hs : s.workers = as ++ .waiting :: bs) (hq : s.queue = i :: queue) :
    Sound t root f n { s with
      queue
      workers := as ++ .reading i :: bs
      taken := s.taken ++ [(as.length, i)] } := by
  have hsize := h.size_append hs
  have hroom : queue.length + 1 ≤ 2 * n := by simpa [hq] using h.room
  have hr := h.receiving hs (by simp)
  have htaken : ((s.taken ++ [(as.length, i)]).map (·.2)).filterMap t.loaded? =
      (s.taken.map (·.2)).filterMap t.loaded? ++ (t.loaded? i).toList := by
    rw [List.map_append, List.filterMap_append]
    cases hi : t.loaded? i <;> simp [hi]
  exact { h with
    size := by simpa using hsize
    room := Nat.le_of_succ_le hroom
    met := by simpa [hq] using h.met
    takers := by
      intro e he
      rcases List.mem_append.1 he with he | he
      · exact h.takers e he
      · rw [List.mem_singleton.1 he]
        show as.length < n
        omega
    loads := by
      refine List.perm_iff_count.2 fun e => ?_
      have he := List.perm_iff_count.1 h.loads e
      simp only [htaken, hs, List.flatMap_append, List.flatMap_cons, Worker.held,
        List.count_append, List.count_nil] at he ⊢
      omega
    single := by
      rintro rfl
      obtain ⟨rfl, rfl⟩ := h.alone hs
      rw [htaken, ← h.single rfl]
      simp [hs, Worker.held]
    stops := fun hmem => by
      have hempty := (h.stops (by simpa [hs] using hmem)).2
      rw [hq] at hempty
      cases hempty
    closed := fun hne => absurd hr hne }

/-- A worker sends what it has loaded. -/
theorem Sound.send (h : Sound t root f n s) {as bs : List Worker} {e : Identity × JobSet}
    (hs : s.workers = as ++ .sending e :: bs) :
    Sound t root f n { s with workers := as ++ .waiting :: bs, results := s.results ++ [e] } := by
  have hr := h.receiving hs (by simp)
  exact { h with
    size := by simpa using h.size_append hs
    loads := by
      refine List.perm_iff_count.2 fun x => ?_
      have hx := List.perm_iff_count.1 h.loads x
      simp only [hs, List.flatMap_append, List.flatMap_cons, Worker.held, List.count_append,
        List.count_nil] at hx ⊢
      omega
    single := by
      rintro rfl
      obtain ⟨rfl, rfl⟩ := h.alone hs
      simpa [hs, Worker.held] using h.single rfl
    stops := fun hmem => h.stops (by simpa [hs] using hmem)
    closed := fun hne => absurd hr hne }

/-- The receiver hands over what it receives. -/
theorem Sound.receive (h : Sound t root f n s) {e : Identity × JobSet}
    {results : List (Identity × JobSet)} (hr : s.receiver = .receiving)
    (he : s.results = e :: results) :
    Sound t root f n { s with
      results
      calls := s.calls ++ [e]
      failures := s.failures ++ (failure? (f s.calls e)).toList } := by
  have hsame : s.calls ++ [e] ++ results = s.calls ++ s.results := by simp [he]
  exact { h with
    loads := by simpa only [hsame] using h.loads
    single := by simpa only [hsame] using h.single
    closed := fun hne => absurd hr hne
    failures := by
      rw [f.failures_concat, ← h.failures]
      rfl
    returned := fun _ hret => by
      rw [show s.receiver = _ from hret] at hr
      cases hr }

/-- A move preserves what is known of a scan. -/
theorem Sound.step (hn : 0 < n) (h : Sound t root f n s) (hm : Moves t f s s') :
    Sound t root f n s' := by
  cases hm with
  | finish hw =>
    exact { h with
      met := by simpa [hw, Walker.rest] using h.met
      stops := fun hs => ⟨rfl, (h.stops hs).2⟩
      walked := fun _ hr => by cases hr; rfl
      returned := fun _ hr => ⟨rfl, (h.returned _ hr).2⟩ }
  | giveUp hw hall =>
    have hstopped := (h.of_unattended hn hall).1
    rw [hw] at hstopped
    cases hstopped
  | push hw hroom => exact h.push hw hroom
  | take hs hq => exact h.take hs hq
  | stop hs hq hw => exact h.replace hs (by simp) rfl fun _ => ⟨hw, hq⟩
  | read hs hl =>
    refine h.replace hs (by simp) ?_ (by simp)
    simp [Worker.held, FileTree.loaded?, hl, Except.toOption]
  | skip hs hl =>
    refine h.replace hs (by simp) ?_ (by simp)
    simp [Worker.held, FileTree.loaded?, hl, Except.toOption]
  | send hs => exact h.send hs
  | receive hr he => exact h.receive hr he
  | close hr he hall =>
    exact { h with
      closed := fun _ => ⟨he, hall⟩
      returned := fun _ hret => by cases hret }
  | leave hr hw =>
    exact { h with
      closed := fun _ => h.closed (by simp [hr])
      returned := fun _ hret => by
        cases hret
        refine ⟨by simp [hw, Walker.isStopped], ?_⟩
        rw [h.walked _ hw, failure?, Option.toList_none, List.append_nil] }

/-! ### Progress -/

/-- A worker that has not stopped can move, unless it waits for a walk that goes on. -/
theorem exists_moveWorker {x : Worker} (hx : s.workers[w]? = some x) (hne : x ≠ .stopped)
    (hwait : x = .waiting → s.queue ≠ [] ∨ s.walker.isStopped = true) :
    ∃ s', s.moveWorker t w = some s' := by
  unfold State.moveWorker
  rw [hx]
  cases x with
  | waiting =>
    cases hq : s.queue with
    | cons i queue => exact ⟨_, rfl⟩
    | nil =>
      have hw := (hwait rfl).resolve_left (not_not.2 hq)
      exact ⟨_, if_pos hw⟩
  | reading i =>
    dsimp only
    cases t.load i.file <;> exact ⟨_, rfl⟩
  | sending e => exact ⟨_, rfl⟩
  | stopped => exact absurd rfl hne

/-- The walker can move on if there is room in the queue. -/
theorem exists_moveWalker (hw : s.walker.isStopped = false)
    (hroom : s.queue.length < 2 * s.workers.length) : ∃ s', s.moveWalker = some s' := by
  unfold State.moveWalker
  cases hwalker : s.walker with
  | stopped result => simp [hwalker, Walker.isStopped] at hw
  | walking rest =>
    cases rest with
    | nil => exact ⟨_, rfl⟩
    | cons i rest =>
      by_cases hall : s.isUnattended
      · exact ⟨_, if_pos hall⟩
      · exact ⟨_, (if_neg hall).trans (if_pos hroom)⟩

/-- The receiver can move if there is something to receive, or the workers have stopped. -/
theorem exists_moveReceiver (hr : s.receiver = .receiving)
    (h : s.results ≠ [] ∨ s.isUnattended = true) : ∃ s', s.moveReceiver f = some s' := by
  unfold State.moveReceiver
  rw [hr]
  cases he : s.results with
  | cons e results => exact ⟨_, rfl⟩
  | nil => exact ⟨_, if_pos (h.resolve_left (not_not.2 he))⟩

/-- Until the scan is over somebody can move. -/
theorem Sound.exists_move (hn : 0 < n) (h : Sound t root f n s) (hover : s.isOver = false) :
    ∃ m s', s.move t f m = some s' := by
  cases hr : s.receiver with
  | returned result => simp [State.isOver, hr] at hover
  | joining =>
    -- the workers have stopped, so the walker has
    have hall := (h.closed (by simp [hr])).2
    have hw := (h.of_unattended hn hall).1
    cases hwalker : s.walker with
    | walking rest => simp [hwalker, Walker.isStopped] at hw
    | stopped result =>
      refine ⟨.receiver, ?_⟩
      rw [State.move, State.moveReceiver, hr, hwalker]
      exact ⟨_, rfl⟩
  | receiving =>
    by_cases hidle : s.results ≠ [] ∨ s.isUnattended = true
    · exact ⟨.receiver, exists_moveReceiver hr hidle⟩
    · obtain ⟨-, hall⟩ := not_or.1 hidle
      obtain ⟨x, hx, hne⟩ : ∃ x ∈ s.workers, x ≠ .stopped := by
        simpa [isUnattended_iff] using hall
      obtain ⟨w, hw⟩ := List.mem_iff_getElem?.1 hx
      by_cases hwait : x = .waiting → s.queue ≠ [] ∨ s.walker.isStopped = true
      · exact ⟨.worker w, exists_moveWorker hw hne hwait⟩
      · -- the worker waits for the walker, who finds the queue empty
        simp only [Classical.not_imp, not_or, not_not, Bool.not_eq_true] at hwait
        refine ⟨.walker, exists_moveWalker hwait.2.2 ?_⟩
        rw [hwait.2.1, h.size, List.length_nil]
        omega

/-- Nobody moves after the scan is over. -/
theorem Sound.isOver_of_move (h : Sound t root f n s) (hm : s.move t f m = some s') :
    s.isOver = false := by
  cases hr : s.receiver with
  | receiving => rw [State.isOver, hr]
  | joining => rw [State.isOver, hr]
  | returned result =>
    have hw := (h.returned _ hr).1
    have hall := (h.closed (by simp [hr])).2
    have hstopped : ∀ {as bs : List Worker} {x : Worker}, s.workers = as ++ x :: bs →
        x = .stopped := fun hs => hall _ (by simp [hs])
    cases moves_of_move hm with
    | finish hwalker => simp [hwalker, Walker.isStopped] at hw
    | giveUp hwalker => simp [hwalker, Walker.isStopped] at hw
    | push hwalker => simp [hwalker, Walker.isStopped] at hw
    | take hs => cases hstopped hs
    | stop hs => cases hstopped hs
    | read hs => cases hstopped hs
    | skip hs => cases hstopped hs
    | send hs => cases hstopped hs
    | receive hreceiver => simp [hr] at hreceiver
    | close hreceiver => simp [hr] at hreceiver
    | leave hreceiver => simp [hr] at hreceiver

/-! ### What is left to do -/

/-- How often the walker will still move, and others with what it is going to meet. -/
def Walker.work : Walker → Nat
  | walking rest => 5 * rest.length + 1
  | stopped _ => 0

/-- How often a worker will still move, and the receiver with what it holds. -/
def Worker.work : Worker → Nat
  | waiting => 1
  | reading _ => 4
  | sending _ => 3
  | stopped => 0

/-- How often the receiver will still move after the last result. -/
def Receiver.work : Receiver → Nat
  | receiving => 2
  | joining => 1
  | returned _ => 0

/-- How many moves are left at most. -/
def State.work (s : State) : Nat :=
  s.walker.work + 4 * s.queue.length + (s.workers.map Worker.work).sum + s.results.length +
    s.receiver.work

/-- Each move leaves less to do. -/
theorem Moves.work_lt (hm : Moves t f s s') : s'.work < s.work := by
  cases hm with
  | finish hw =>
    simp only [State.work, hw, Walker.work]
    omega
  | giveUp hw hall =>
    simp only [State.work, hw, Walker.work]
    omega
  | push hw hroom =>
    simp only [State.work, hw, Walker.work, List.length_append, List.length_cons,
      List.length_nil]
    omega
  | take hs hq =>
    simp only [State.work, hs, hq, Worker.work, List.map_append, List.map_cons, List.sum_append,
      List.sum_cons, List.length_cons]
    omega
  | stop hs hq hw =>
    simp only [State.work, hs, Worker.work, List.map_append, List.map_cons, List.sum_append,
      List.sum_cons]
    omega
  | read hs hl =>
    simp only [State.work, hs, Worker.work, List.map_append, List.map_cons, List.sum_append,
      List.sum_cons]
    omega
  | skip hs hl =>
    simp only [State.work, hs, Worker.work, List.map_append, List.map_cons, List.sum_append,
      List.sum_cons]
    omega
  | send hs =>
    simp only [State.work, hs, Worker.work, List.map_append, List.map_cons, List.sum_append,
      List.sum_cons, List.length_append, List.length_cons, List.length_nil]
    omega
  | receive hr he =>
    simp only [State.work, he, List.length_cons]
    omega
  | close hr he hall =>
    simp only [State.work, hr, Receiver.work]
    omega
  | leave hr hw =>
    simp only [State.work, hr, Receiver.work]
    omega

theorem work_start (t : FileTree) (root : Path) (n : Nat) :
    (start t root n).work = 5 * (t.identities root).length + n + 3 := by
  have hworkers : ((List.replicate n Worker.waiting).map Worker.work).sum = n := by
    simp [Worker.work]
  simp only [State.work, start, hworkers, Walker.work, Receiver.work, List.length_nil]
  omega

/-! ### Runs -/

/-- What is known of a scan is known after any moves, and each of them has left less to do. -/
theorem Sound.run (hn : 0 < n) {schedule : List Mover} (h : Sound t root f n s)
    (hrun : s.run t f schedule = some s') :
    Sound t root f n s' ∧ schedule.length + s'.work ≤ s.work := by
  induction schedule generalizing s with
  | nil =>
    cases hrun
    exact ⟨h, by simp⟩
  | cons m schedule ih =>
    obtain ⟨s₁, hm, hrest⟩ := Option.bind_eq_some_iff.1 hrun
    have hmoves := moves_of_move hm
    have hlt := hmoves.work_lt
    obtain ⟨hsound, hle⟩ := ih (h.step hn hmoves) hrest
    constructor
    · exact hsound
    · rw [List.length_cons]
      omega

/-- When the scan is over, every identity is taken, and what could be loaded is handed over. -/
theorem Sound.of_isOver (hn : 0 < n) (h : Sound t root f n s) (hover : s.isOver = true) :
    s.taken.map (·.2) = t.identities root ∧ s.calls.Perm (t.loaded root) ∧
      (n = 1 → s.calls = t.loaded root) ∧
      s.receiver = .returned (Failure.aggregate (f.failures [] s.calls)) := by
  cases hr : s.receiver with
  | receiving => simp [State.isOver, hr] at hover
  | joining => simp [State.isOver, hr] at hover
  | returned result =>
    obtain ⟨hw, hresult⟩ := h.returned _ hr
    obtain ⟨hresults, hall⟩ := h.closed (by simp [hr])
    have hqueue := (h.of_unattended hn hall).2
    have hrest : s.walker.rest = [] := by
      cases hwalker : s.walker with
      | walking rest => simp [hwalker, Walker.isStopped] at hw
      | stopped result => rfl
    have hheld : s.workers.flatMap (Worker.held t) = [] :=
      List.flatMap_eq_nil_iff.2 fun y hy => by rw [hall y hy, Worker.held]
    have htaken : s.taken.map (·.2) = t.identities root := by
      simpa [hqueue, hrest] using h.met
    have hloads := h.loads
    have hsingle := h.single
    rw [hresults, hheld, List.append_nil, List.append_nil, htaken, ← t.loaded_eq] at hloads hsingle
    exact ⟨htaken, hloads, hsingle, by rw [hresult, h.failures]⟩

/-- At no time anything was handed over twice, or anything that a walk does not find. -/
theorem Sound.nodup_calls (h : Sound t root f n s) :
    s.calls.Nodup ∧ ∀ e ∈ s.calls, e ∈ t.loaded root := by
  have htaken : ((s.taken.map (·.2)).filterMap t.loaded?).Sublist (t.loaded root) := by
    rw [t.loaded_eq, ← h.met, List.append_assoc]
    exact (List.sublist_append_left _ _).filterMap _
  have hcalls : s.calls.Sublist (s.calls ++ s.results ++ s.workers.flatMap (Worker.held t)) := by
    rw [List.append_assoc]
    exact List.sublist_append_left _ _
  have hnodup := (t.nodup_loaded root).sublist htaken
  exact ⟨(h.loads.nodup_iff.2 hnodup).sublist hcalls,
    fun e he => htaken.subset (h.loads.mem_iff.1 (hcalls.subset he))⟩

/-- Whoever moves when, the queue never holds more than two identities for each worker, no identity
is lost or taken twice, and nothing is handed over twice. Until the scan is over somebody can move,
and it is over after some number of moves. Then each identity that a walk meets was taken by one
worker, and each job set that a walk finds was handed over once. -/
theorem run_accounts (hn : 0 < n) {schedule : List Mover}
    (hrun : (start t root n).run t f schedule = some s) :
    s.queue.length ≤ 2 * n ∧
    (t.identities root).Nodup ∧
    s.taken.map (·.2) ++ s.queue ++ s.walker.rest = t.identities root ∧
    (s.calls.Nodup ∧ ∀ e ∈ s.calls, e ∈ t.loaded root) ∧
    (s.isOver = false ↔ ∃ m s', s.move t f m = some s') ∧
    schedule.length ≤ 5 * (t.identities root).length + n + 3 ∧
    (s.isOver = true →
      (∀ i ∈ t.identities root, ∃ w < n, ∀ w', (w', i) ∈ s.taken ↔ w' = w) ∧
      s.calls.Perm (t.loaded root) ∧
      (n = 1 → s.calls = t.loaded root) ∧
      s.receiver = .returned (Failure.aggregate (f.failures [] s.calls))) := by
  obtain ⟨h, hwork⟩ := (sound_start t root f n).run hn hrun
  rw [work_start] at hwork
  have hnodup := t.nodup_identities root
  refine ⟨h.room, hnodup, h.met, h.nodup_calls, ⟨h.exists_move hn, ?_⟩, by omega, fun hover => ?_⟩
  · rintro ⟨m, s', hm⟩
    exact h.isOver_of_move hm
  · obtain ⟨htaken, hcalls, hsingle, hresult⟩ := h.of_isOver hn hover
    refine ⟨fun i hi => ?_, hcalls, hsingle, hresult⟩
    rw [← htaken] at hi hnodup
    obtain ⟨⟨w, j⟩, hw, rfl⟩ := List.mem_map.1 hi
    refine ⟨w, h.takers _ hw, fun w' => ⟨fun hw' => ?_, ?_⟩⟩
    · exact congrArg Prod.fst (List.inj_on_of_nodup_map hnodup hw' hw rfl)
    · rintro rfl
      exact hw

/-- A handler whose answers depend on nothing else gets the result of handing over the job sets one
by one. -/
theorem returned_handOver (hn : 0 < n) {g : Identity → JobSet → Except Failure Unit}
    {schedule : List Mover}
    (hrun : (start t root n).run t (fun _ e => g e.1 e.2) schedule = some s)
    (hover : s.isOver = true) : s.receiver = .returned (handOver g s.calls) := by
  obtain ⟨h, -⟩ := (sound_start t root _ n).run hn hrun
  obtain ⟨-, -, -, hresult⟩ := h.of_isOver hn hover
  rw [hresult, Handler.failures_const, handOver]

/-- A tree with a file that can be loaded and one that is empty. -/
def halfTree : FileTree :=
  FileTree.smallTree [("o-r-x-presubmits.yaml", "presubmits:\n  o/r:\n  - name: b\n"),
    ("o-r-y-presubmits.yaml", "")]

/-- The moves of a scan by two workers. The second one takes the first file, and the first one has
skipped the other file before that is read. -/
def halfSchedule : List Mover :=
  [.walker, .worker 1, .walker, .worker 0, .worker 0, .walker, .worker 0, .worker 1, .worker 1,
    .receiver, .worker 1, .receiver, .receiver]

set_option maxRecDepth 100000 in
/-- The handler is called for one of two files, and what it fails with is returned. -/
theorem run_accounts_halfTree : 0 < 2 ∧
    ∃ s, (start halfTree FileTree.smallDir 2).run halfTree (fun _ e => .error (.empty e.1.file))
        halfSchedule = some s ∧
      s.isOver = true ∧ (halfTree.identities FileTree.smallDir).length = 2 ∧
      s.taken.map (·.1) = [1, 0] ∧ s.calls.length = 1 ∧
      s.calls.Perm (halfTree.loaded FileTree.smallDir) ∧
      (∀ i ∈ halfTree.identities FileTree.smallDir,
        ∃ w < 2, ∀ w', (w', i) ∈ s.taken ↔ w' = w) := by
  have hn : 0 < 2 := by decide
  have hall : ((start halfTree FileTree.smallDir 2).run halfTree
      (fun _ e => .error (.empty e.1.file)) halfSchedule).any (fun s => s.isOver &&
        s.taken.map (·.1) == [1, 0] && s.calls.length == 1) = true := by decide +kernel
  have hlen : (halfTree.identities FileTree.smallDir).length = 2 := by decide +kernel
  obtain ⟨s, hrun, hs⟩ := (Option.any_eq_true _ _).1 hall
  simp only [Bool.and_eq_true, beq_iff_eq] at hs
  obtain ⟨⟨hover, htakers⟩, hcalls⟩ := hs
  obtain ⟨-, -, -, -, -, -, hfinal⟩ := run_accounts hn hrun
  obtain ⟨htaken, hperm, -, -⟩ := hfinal hover
  exact ⟨hn, s, hrun, hover, hlen, htakers, hcalls, hperm, htaken⟩

end JobConfig.Scan
