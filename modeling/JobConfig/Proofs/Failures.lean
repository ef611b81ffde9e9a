import JobConfig.Proofs.Parallel
import JobConfig.Proofs.Walk

/-!
# Failures in a scan

What cannot be read and what has no identity is passed over, and a handler that fails gets the
other job sets all the same; all its failures are returned together. A callback for identities, on
the other hand, is not called again after it has failed.
-/

namespace JobConfig

namespace FileTree

variable {t : FileTree} {root : Path} {i : Identity} {s : JobSet}

theorem loaded?_eq_some_iff {e : Identity × JobSet} :
    t.loaded? i = some e ↔ e.1 = i ∧ t.load i.file = .ok e.2 := by
  obtain ⟨j, s⟩ := e
  rw [loaded?]
  cases t.load i.file with
  | error r => simp [Except.toOption]
  | ok s' => simp [Except.toOption, eq_comm]

/-- What a scan hands over: the files that it meets that conform and can be loaded. -/
theorem mem_loaded_iff : (i, s) ∈ t.loaded root ↔
    ∃ p ∈ t.files root, Identity.ofJobFile? p = some i ∧ t.load p = .ok s := by
  rw [loaded_eq, List.mem_filterMap]
  constructor
  · rintro ⟨j, hj, he⟩
    obtain ⟨rfl, hload⟩ := loaded?_eq_some_iff.1 he
    obtain ⟨p, hp, hi⟩ := List.mem_filterMap.1 hj
    exact ⟨p, hp, hi, by rwa [(Identity.file_of_ofJobFile? hi).1] at hload⟩
  · rintro ⟨p, hp, hi, hload⟩
    refine ⟨i, List.mem_filterMap.2 ⟨p, hp, hi⟩, loaded?_eq_some_iff.2 ⟨rfl, ?_⟩⟩
    rwa [(Identity.file_of_ofJobFile? hi).1]

/-- A scan hands over no file twice. -/
theorem nodup_files_loaded (t : FileTree) (root : Path) :
    ((t.loaded root).map (·.1.file)).Nodup := by
  refine (t.nodup_loaded root).map_on fun a ha b hb hab => ?_
  obtain ⟨p, -, hpi, hpl⟩ := mem_loaded_iff.1 ha
  obtain ⟨q, -, hqi, hql⟩ := mem_loaded_iff.1 hb
  obtain rfl : p = q := by
    rw [← (Identity.file_of_ofJobFile? hpi).1, hab, (Identity.file_of_ofJobFile? hqi).1]
  exact Prod.ext (Option.some.inj (hpi.symm.trans hqi)) (Except.ok.inj (hpl.symm.trans hql))

end FileTree

/-- Failures that are not alone are returned together. -/
theorem Failure.aggregate_of_two_le {fs : List Failure} (h : 2 ≤ fs.length) :
    Failure.aggregate fs = .error (.several fs) := by
  match fs, h with
  | _ :: _ :: _, _ => rfl

namespace Scan

variable {t : FileTree} {root : Path} {f : Handler} {n : Nat} {s : State}

/-- A scan can always be brought to its end. -/
theorem Sound.exists_run (hn : 0 < n) (h : Sound t root f n s) :
    ∃ schedule s', s.run t f schedule = some s' ∧ s'.isOver = true := by
  induction hw : s.work using Nat.strong_induction_on generalizing s with
  | _ k ih =>
    by_cases hover : s.isOver = true
    · exact ⟨[], s, rfl, hover⟩
    · obtain ⟨m, s₁, hm⟩ := h.exists_move hn (by simpa using hover)
      have hmoves := moves_of_move hm
      obtain ⟨schedule, s', hrun, hover'⟩ :=
        ih s₁.work (hw ▸ hmoves.work_lt) (h.step hn hmoves) rfl
      exact ⟨m :: schedule, s', by rw [State.run, hm]; exact hrun, hover'⟩

/-- Whether the job sets were handed over in the order in which a walk meets the files. -/
def State.InWalkOrder (s : State) (t : FileTree) (root : Path) : Prop :=
  (s.calls.map (·.1)).Sublist (t.identities root)

/-- What a scan has handed over in the order of the walk is what the walk finds. -/
theorem Sound.calls_eq_loaded (hn : 0 < n) (h : Sound t root f n s) (hover : s.isOver = true)
    (horder : s.InWalkOrder t root) : s.calls = t.loaded root := by
  obtain ⟨-, hperm, -, -⟩ := h.of_isOver hn hover
  have hself : (s.calls.map (·.1)).filterMap t.loaded? = s.calls := by
    have hsome : ∀ e ∈ s.calls, t.loaded? e.1 = some e := by
      intro e he
      have hmem := hperm.mem_iff.1 he
      rw [t.loaded_eq] at hmem
      obtain ⟨i, -, hi⟩ := List.mem_filterMap.1 hmem
      rwa [(FileTree.loaded?_eq_some_iff.1 hi).1]
    rw [List.filterMap_map]
    exact (List.filterMap_congr hsome).trans List.filterMap_some
  have hsub : s.calls.Sublist (t.loaded root) := by
    rw [← hself, t.loaded_eq]
    exact horder.filterMap _
  exact hsub.eq_of_length hperm.length_eq

/-- A scan hands over what conforms and can be loaded, whatever the handler fails on. It returns
nothing if no call has failed, the failure itself if one has, and otherwise all of them in the order
of the calls. The walk from a directory calls its callback up to and including the first identity
that it fails on, and returns that failure. -/
theorem failures_isolated (t : FileTree) (dir part : Path) :
    ((t.loaded (scanRoot dir part)).map (·.1.file)).Nodup ∧
    (∀ i s, (i, s) ∈ t.loaded (scanRoot dir part) ↔
      ∃ p ∈ t.files (scanRoot dir part), Identity.ofJobFile? p = some i ∧ t.load p = .ok s) ∧
    (∀ (f : Handler) (n : Nat) (schedule : List Mover) (s : State), 0 < n →
      (start t (scanRoot dir part) n).run t f schedule = some s →
      (∃ more s', s.run t f more = some s' ∧ s'.isOver = true) ∧
      (s.isOver = true → n = 1 ∨ s.InWalkOrder t (scanRoot dir part) →
        s.calls = t.loaded (scanRoot dir part) ∧
        (f.failures [] s.calls = [] → s.receiver = .returned (.ok ())) ∧
        (∀ e, f.failures [] s.calls = [e] → s.receiver = .returned (.error e)) ∧
        (2 ≤ (f.failures [] s.calls).length →
          s.receiver = .returned (.error (.several (f.failures [] s.calls)))))) ∧
    ∀ f : Identity → Except Failure Unit,
      ((∀ i ∈ t.identities (scanRoot dir part), f i = .ok ()) ∧
        t.walkFrom f (scanRoot dir part) = (t.identities (scanRoot dir part), .ok ())) ∨
      ∃ before i after e, t.identities (scanRoot dir part) = before ++ i :: after ∧
        (∀ j ∈ before, f j = .ok ()) ∧ f i = .error e ∧
        t.walkFrom f (scanRoot dir part) = (before ++ [i], .error e) := by
  refine ⟨t.nodup_files_loaded _, fun i s => FileTree.mem_loaded_iff, ?_, fun f => ?_⟩
  · intro f n schedule s hn hrun
    obtain ⟨h, -⟩ := (sound_start t _ f n).run hn hrun
    refine ⟨h.exists_run hn, fun hover horder => ?_⟩
    obtain ⟨-, -, hsingle, hresult⟩ := h.of_isOver hn hover
    have hcalls : s.calls = t.loaded (scanRoot dir part) := by
      rcases horder with hone | horder
      · exact hsingle hone
      · exact h.calls_eq_loaded hn hover horder
    refine ⟨hcalls, fun hnone => ?_, fun e hone => ?_, fun hseveral => ?_⟩
    · rw [hresult, hnone, Failure.aggregate]
    · rw [hresult, hone, Failure.aggregate]
    · rw [hresult, Failure.aggregate_of_two_le hseveral]
  · rw [t.walkFrom_eq_visit]
    exact visit_cases f _

/-- A tree with a file of no job set and one of no identity among those of one repository, and a
file in the directory of another. -/
def mixedTree : FileTree :=
  (((FileTree.smallTree [("notes.yaml", ""), ("o-r-x-presubmits.yaml", "presubmits: {}\n"),
    ("o-r-y-presubmits.yaml", "")]).put (["jobs", "o", "s"].map Utf8.encode) .directory).put
    (["jobs", "o", "s", "o-s-x-presubmits.yaml"].map Utf8.encode)
    (.file (Utf8.encode "presubmits: {}\n")))

/-- The moves of a scan by two workers, of which one does all the work. -/
def mixedSchedule : List Mover :=
  [.walker, .walker, .walker, .walker, .worker 0, .worker 0, .worker 0, .worker 0, .worker 0,
    .worker 0, .worker 0, .worker 0, .worker 0, .worker 1, .receiver, .receiver, .receiver,
    .receiver]

/-- The directory that holds both repositories. -/
def mixedRoot : Path :=
  scanRoot (.ofString "jobs") ⟨[]⟩

/-- A handler that fails on every file. -/
def alwaysFails : Handler := fun _ e => .error (.empty e.1.file)

set_option maxRecDepth 100000 in
/-- A handler that always fails is called for both files that can be loaded, and its failures are
returned together. -/
theorem failures_isolated_mixedTree : 0 < 2 ∧
    ∃ s, (start mixedTree mixedRoot 2).run mixedTree alwaysFails mixedSchedule = some s ∧
      s.isOver = true ∧ s.InWalkOrder mixedTree mixedRoot ∧
      (mixedTree.identities mixedRoot).length = 3 ∧ s.calls.length = 2 ∧
      s.calls = mixedTree.loaded mixedRoot ∧
      s.receiver = .returned (.error (.several (s.calls.map fun e => .empty e.1.file))) := by
  have hn : 0 < 2 := by decide
  have hall : ((start mixedTree mixedRoot 2).run mixedTree alwaysFails mixedSchedule).any
      (fun s => s.isOver && (s.calls.map (·.1)).isSublist (mixedTree.identities mixedRoot) &&
        s.calls.length == 2) = true := by decide +kernel
  have hlen : (mixedTree.identities mixedRoot).length = 3 := by decide +kernel
  obtain ⟨s, hrun, hs⟩ := (Option.any_eq_true _ _).1 hall
  simp only [Bool.and_eq_true, beq_iff_eq, List.isSublist_iff_sublist] at hs
  obtain ⟨⟨hover, horder⟩, hcalls⟩ := hs
  obtain ⟨-, -, hscan, -⟩ := failures_isolated mixedTree (.ofString "jobs") ⟨[]⟩
  obtain ⟨-, hfinal⟩ := hscan alwaysFails 2 mixedSchedule s hn hrun
  obtain ⟨hloaded, -, -, hseveral⟩ := hfinal hover (.inr horder)
  have hfailures : alwaysFails.failures [] s.calls = s.calls.map fun e => .empty e.1.file := by
    refine (Handler.failures_const (fun i _ => .error (.empty i.file)) [] s.calls).trans ?_
    exact congrFun List.filterMap_eq_map' s.calls
  rw [hfailures, List.length_map, hcalls] at hseveral
  exact ⟨hn, s, hrun, hover, horder, hlen, hcalls, hloaded, hseveral le_rfl⟩

end Scan

end JobConfig
