import JobConfig.Proofs.Failures
import JobConfig.Proofs.Namesakes
import JobConfig.Scan.Pool

/-!
# Scanners and the workers behind them

What several workers have handed over when their scan is over, some scanner delivers, in the same
order; and what a pool delivers its workers have handed over. So what is known of plans and runs for
every scanner is known whatever moves the workers make.
-/

namespace JobConfig.Scan

variable {t : FileTree} {root : Path} {f : Handler} {n w : Nat} {m : Mover} {s s' : State}

/-! ### Plans from what workers hand over -/

/-- What was handed over in a scan that is over is what some scanner delivers. -/
theorem exists_scanner (hn : 0 < n) {schedule : List Mover}
    (hrun : (start t root n).run t f schedule = some s) (hover : s.isOver = true) :
    ∃ scan : Scanner, scan.deliver t root = s.calls := by
  obtain ⟨h, -⟩ := (sound_start t root f n).run hn hrun
  obtain ⟨-, hcalls, -, -⟩ := h.of_isOver hn hover
  exact FileTree.exists_deliver hcalls

/-- What workers have handed over from the directory of a repository some scanner finds there, and
so the plan for it is one of those that a scanner leads to. -/
theorem planOf_calls {jobDir : Path} {org repo : String} (generated : JobSet) (hn : 0 < n)
    (hd : t.isDirectory (repoDir jobDir org repo) = true) {schedule : List Mover}
    (hrun : (start t (repoDir jobDir org repo) n).run t f schedule = some s)
    (hover : s.isOver = true) :
    ∃ scan, t.found (repoDir jobDir org repo) scan = s.calls ∧
      t.plan jobDir org repo generated scan = planOf jobDir org repo generated s.calls := by
  obtain ⟨scan, hscan⟩ := exists_scanner hn hrun hover
  have hfound : t.found (repoDir jobDir org repo) scan = s.calls := by
    rw [FileTree.found, if_pos hd, hscan]
  exact ⟨scan, hfound, by rw [FileTree.plan, hfound]⟩

/-! ### Pools -/

/-- Whoever is not held up is among the movers. -/
theorem mem_movers (hm : s.move t f m = some s') : m ∈ s.movers t := by
  rw [State.movers]
  cases m with
  | receiver => simp
  | walker => simp
  | worker w =>
    obtain ⟨x, hx⟩ : ∃ x, s.workers[w]? = some x := by
      rw [State.move, State.moveWorker] at hm
      cases hx : s.workers[w]? with
      | none => simp [hx] at hm
      | some x => exact ⟨x, rfl⟩
    refine List.mem_cons_of_mem _ (List.mem_cons_of_mem _
      (List.mem_map.2 ⟨(x.unread t, w), ?_, rfl⟩))
    rw [mem_sortBy, List.mem_zipIdx_iff_getElem?]
    simp [hx]

/-- The fastest move one after the other until nobody can. -/
theorem exists_run_proceed (t : FileTree) (f : Handler) (fuel : Nat) (s : State) :
    ∃ schedule, s.run t f schedule = some (s.proceed t f fuel) ∧
      (schedule.length = fuel ∨ ∀ m, (s.proceed t f fuel).move t f m = none) := by
  induction fuel generalizing s with
  | zero => exact ⟨[], rfl, .inl rfl⟩
  | succ fuel ih =>
    rw [State.proceed]
    cases hs : (s.movers t).findSome? (s.move t f) with
    | none =>
      refine ⟨[], rfl, .inr fun m => ?_⟩
      rw [List.findSome?_eq_none_iff] at hs
      rw [Option.eq_none_iff_forall_ne_some]
      intro s' hm
      rw [hs m (mem_movers hm)] at hm
      cases hm
    | some s₁ =>
      obtain ⟨m, -, hm⟩ := List.exists_of_findSome?_eq_some hs
      obtain ⟨schedule, hrun, hend⟩ := ih s₁
      refine ⟨m :: schedule, by rw [State.run, hm]; exact hrun, hend.imp_left fun hlen => ?_⟩
      rw [List.length_cons, hlen]

/-- A pool has moves enough to bring its scan to its end. -/
theorem exists_run_pool (t : FileTree) (root : Path) (hn : 0 < n) : ∃ schedule s,
    (start t root n).run t (fun _ _ => .ok ()) schedule = some s ∧ s.isOver = true ∧
      handed t root n = s.calls.map (·.1) := by
  obtain ⟨schedule, hrun, hend⟩ := exists_run_proceed t (fun _ _ => .ok ())
    (5 * (t.identities root).length + n + 3) (start t root n)
  refine ⟨schedule, _, hrun, ?_, rfl⟩
  obtain ⟨h, hwork⟩ := (sound_start t root _ n).run hn hrun
  by_contra hover
  obtain ⟨m, s', hm⟩ := h.exists_move hn (by simpa using hover)
  rcases hend with hlen | hnone
  · -- all there is to do is done
    have hlt := (moves_of_move hm).work_lt
    rw [work_start] at hwork
    omega
  · rw [hnone m] at hm
    cases hm

/-- Job sets in some order are sorted into it by the places of their identities. -/
theorem sortBy_idxOf {order loaded : List (Identity × JobSet)} (hp : order.Perm loaded)
    (hnodup : (order.map (·.1)).Nodup) :
    sortBy (fun e => (order.map (·.1)).idxOf e.1) loaded = order := by
  have hmem : ∀ e ∈ loaded, e ∈ order := fun e => hp.mem_iff.2
  have hinj : ∀ a ∈ loaded, ∀ b ∈ loaded,
      (order.map (·.1)).idxOf a.1 = (order.map (·.1)).idxOf b.1 → a = b := by
    intro a ha b hb hidx
    have hfst := (List.idxOf_inj (List.mem_map_of_mem (hmem a ha))).1 hidx
    exact List.inj_on_of_nodup_map hnodup (hmem a ha) (hmem b hb) hfst
  rw [sortBy_eq_of_perm hp.symm hinj]
  refine sortBy_of_ascending (List.pairwise_iff_getElem.2 fun i j hi hj hij => ?_)
  -- the place of an identity is where it stands
  have hplace : ∀ k (hk : k < order.length), (order.map (·.1)).idxOf (order[k]).1 = k := by
    intro k hk
    have hidx := hnodup.idxOf_getElem k (by simpa using hk)
    rwa [List.getElem_map] at hidx
  simp only [hplace i hi, hplace j hj]
  rw [Nat.compare_ne_lt]
  exact hij.le

/-- A pool delivers what its workers have handed over when their scan is over, and a single worker
what a walk finds. -/
theorem deliver_pool (t : FileTree) (root : Path) (n : Nat) : ∃ schedule s,
    (start t root (inUse t root n)).run t (fun _ _ => .ok ()) schedule = some s ∧
      s.isOver = true ∧ (Scanner.pool n).deliver t root = s.calls := by
  have hn : 0 < inUse t root n := by
    rw [inUse]
    omega
  obtain ⟨schedule, s, hrun, hover, hhanded⟩ := exists_run_pool t root hn
  obtain ⟨h, -⟩ := (sound_start t root _ _).run hn hrun
  obtain ⟨-, hcalls, hsingle, -⟩ := h.of_isOver hn hover
  refine ⟨schedule, s, hrun, hover, ?_⟩
  rw [Scanner.pool]
  dsimp only
  split
  · rename_i hone
    exact (hsingle hone).symm
  · rw [hhanded]
    refine sortBy_idxOf hcalls ?_
    have hfiles : ((s.calls.map (·.1)).map Identity.file).Nodup := by
      rw [List.map_map]
      exact (hcalls.map _).nodup_iff.2 (t.nodup_files_loaded root)
    exact hfiles.of_map

/-! ### Two workers and two files of one name -/

/-- The moves of a scan by two workers, of which the first reads longer. -/
def twinSchedule : List Mover :=
  [.walker, .walker, .walker, .worker 0, .worker 1, .worker 1, .worker 1, .receiver, .worker 0,
    .worker 0, .receiver, .worker 0, .worker 1, .receiver, .receiver]

set_option maxRecDepth 100000 in
/-- Two workers may hand over two files of one name the other way round than a walk meets them. -/
theorem calls_twinTree : ∃ s,
    (start twinTree (repoDir FileTree.smallDir "o" "r") 2).run twinTree (fun _ _ => .ok ())
      twinSchedule = some s ∧ s.isOver = true ∧
    s.calls = Scanner.reversed.deliver twinTree (repoDir FileTree.smallDir "o" "r") ∧
    s.calls ≠ twinTree.loaded (repoDir FileTree.smallDir "o" "r") := by
  have hall : ((start twinTree (repoDir FileTree.smallDir "o" "r") 2).run twinTree
      (fun _ _ => .ok ()) twinSchedule).any (fun s => s.isOver &&
        s.calls == Scanner.reversed.deliver twinTree (repoDir FileTree.smallDir "o" "r") &&
        s.calls != twinTree.loaded (repoDir FileTree.smallDir "o" "r")) = true := by
    decide +kernel
  obtain ⟨s, hrun, hs⟩ := (Option.any_eq_true _ _).1 hall
  simp only [Bool.and_eq_true, beq_iff_eq, bne_iff_ne] at hs
  exact ⟨s, hrun, hs.1.1, hs.1.2, hs.2⟩

end JobConfig.Scan
