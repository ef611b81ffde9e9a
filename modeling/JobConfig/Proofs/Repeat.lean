import JobConfig.Proofs.Generated
import JobConfig.Proofs.Preview

/-!
# Repeating a run

A run with the same generated jobs as the one before it plans nothing but what is there, if each
shard has the receiver that it had: settling again changes nothing. If a shard has another receiver,
that one is given jobs that it had not. In the order of the walk the receivers stay, and so they do
in any order if no two files have the name of a shard.
-/

namespace JobConfig

variable {org repo n : String}

/-- Whether all jobs that are generated for a repository are of the present run, and each shard has
them under distinct names. -/
structure JobSet.Fresh (s : JobSet) (org repo : String) : Prop where
  every : ∀ shard ∈ (s.shards org repo).values, shard.Every Job.IsNew
  distinct : ∀ shard ∈ (s.shards org repo).values, shard.Distinct

theorem JobSet.Fresh.of_get? {s shard : JobSet} (h : s.Fresh org repo)
    (hs : (s.shards org repo).get? n = some shard) : shard.Every Job.IsNew ∧ shard.Distinct := by
  have hmem := KeyMap.mem_values_iff.2 ⟨n, hs⟩
  exact ⟨h.every shard hmem, h.distinct shard hmem⟩

/-- A file that takes a shard with a new job has a marked one. -/
theorem exists_isMarked_settle {c : Considered} {old s : JobSet}
    (hs : IsShard org repo n s) (hnew : s.Every Job.IsNew) (hd : s.Distinct)
    (hold : old.Every fun b => ¬b.IsNew) :
    ∃ g m, m ∈ namesWith Job.IsMarked ((settle c old (some s)).jobs g) := by
  obtain ⟨g, hg⟩ := hs.hasJobs
  obtain ⟨j, hj⟩ := List.exists_mem_of_ne_nil _ hg
  have hmem : nameOf j ∈ namesWith Job.IsNew (s.jobs g) :=
    List.mem_map.2 ⟨j, List.mem_filter.2 ⟨hj, by simpa using hnew g j hj⟩, rfl⟩
  exact ⟨g, _, (namesWith_isMarked_settle c (some s) hold hd g).mem_iff.2 hmem⟩

theorem isEmpty_settle {c : Considered} {old s : JobSet}
    (hs : IsShard org repo n s) (hnew : s.Every Job.IsNew) (hd : s.Distinct)
    (hold : old.Every fun b => ¬b.IsNew) : (settle c old (some s)).isEmpty = false := by
  obtain ⟨g, m, hm⟩ := exists_isMarked_settle (c := c) hs hnew hd hold
  obtain ⟨k, hk, -⟩ := List.mem_map.1 hm
  exact full_settle.isEmpty_eq_false (List.mem_filter.1 hk).1

theorem JobSet.ReadsBack.eq {s s' : JobSet} (h : s.ReadsBack) (h' : s'.ReadsBack)
    (ht : s.text = s'.text) : s = s' := by
  rw [JobSet.ReadsBack, ht, h', Except.ok.injEq] at h
  exact h.symm

namespace FileTree

theorem every_not_isNew_of_isLeft {generated : JobSet} {org repo : String}
    {found : List (Identity × JobSet)} {f : Planned} (hf : IsLeft generated org repo found f) :
    f.jobs.Every fun b => ¬b.IsNew := by
  obtain ⟨e, -, rfl⟩ := hf
  intro g j hj hnew
  rw [Job.IsNew] at hnew
  rcases marker?_settle hj rfl with hm | hm <;> rw [hm] at hnew
  · cases hnew
  · exact absurd hnew (by decide)

variable {jobDir : Path} {t t' : FileTree} {generated s : JobSet}
  {scan scan' : Scanner}

/-- A file that took no shard changes where it takes one. -/
theorem settle_ne_of_isLeft (hnew : generated.Fresh org repo)
    (hold : ∀ e ∈ t.loaded (repoDir jobDir org repo), e.2.Every fun b => ¬b.IsNew) {f : Planned}
    (hs : (generated.shards org repo).get? n = some s)
    (hf : IsLeft generated org repo (t.found (repoDir jobDir org repo) scan) f) :
    settle (generated.considered org repo) f.jobs (some s) ≠ f.jobs := by
  intro heq
  have hnone := namesWith_of_isLeft hold hf
  obtain ⟨hsnew, hd⟩ := hnew.of_get? hs
  obtain ⟨g, m, hm⟩ := exists_isMarked_settle (c := generated.considered org repo)
    (isShard_of_get? hs) hsnew hd (every_not_isNew_of_isLeft hf)
  rw [heq, hnone g] at hm
  cases hm

section

variable (hrun : Run scan jobDir org repo t generated t') (ht : t.LinkFree)
  (h : IsTarget jobDir org repo)

include hrun ht h

/-- What is found after a run was planned under its own path. -/
theorem Run.exists_planned_of_found {e : Identity × JobSet}
    (he : e ∈ t'.found (repoDir jobDir org repo) scan') :
    ∃ f ∈ t.plan jobDir org repo generated scan, f.jobs.isEmpty = false ∧ e.1.file = f.path ∧
      Identity.ofJobFile? f.path = some e.1 ∧ f.jobs = e.2 := by
  exact hrun.exists_planned ht h (mem_found_iff_mem_loaded.1 he).2

/-- Planned files that hold jobs are found after the run. -/
theorem Run.exists_found {f : Planned} (hf : f ∈ t.plan jobDir org repo generated scan)
    (hemp : f.jobs.isEmpty = false) (scan' : Scanner) :
    ∃ i, i.file = f.path ∧ (i, f.jobs) ∈ t'.found (repoDir jobDir org repo) scan' := by
  obtain ⟨i, hi⟩ := hrun.ofJobFile? ht h hf
  exact ⟨i, (Identity.file_of_ofJobFile? hi).1, mem_found_iff_mem_loaded.2
    ⟨hrun.isDirectory ht h, (hrun.mem_loaded ht h).2 ⟨f, hf, hemp, hi, rfl⟩⟩⟩

variable (hnew : generated.Fresh org repo)
  (hold : ∀ e ∈ t.loaded (repoDir jobDir org repo), e.2.Every fun b => ¬b.IsNew)

include hnew hold

/-- The file that takes a shard is found after the run, and it was settled with the shard. -/
theorem Run.takes (hs : (generated.shards org repo).get? n = some s) (scan' : Scanner) :
    ∃ f ∈ t.plan jobDir org repo generated scan, shardName f.path = n ∧
      f.path = receiver (repoDir jobDir org repo) (t.found (repoDir jobDir org repo) scan) n ∧
      (∃ old, old.Every (fun b => ¬b.IsNew) ∧
        f.jobs = settle (generated.considered org repo) old (some s)) ∧
      (∃ i, i.file = f.path ∧ (i, f.jobs) ∈ t'.found (repoDir jobDir org repo) scan') ∧
      ∀ f' ∈ t.plan jobDir org repo generated scan, shardName f'.path = n → f' ≠ f →
        IsLeft generated org repo (t.found (repoDir jobDir org repo) scan) f' := by
  obtain ⟨hsnew, hd⟩ := hnew.of_get? hs
  obtain ⟨f, hf, hn, hreceiver, ⟨old, holdnew, hjobs⟩, hothers⟩ :=
    exists_taker_of_loaded h hold hs hd
  have hemp : f.jobs.isEmpty = false := by
    rw [hjobs]
    exact isEmpty_settle (isShard_of_get? hs) hsnew hd holdnew
  exact ⟨f, hf, hn, hreceiver, ⟨old, holdnew, hjobs⟩, hrun.exists_found ht h hf hemp scan',
    hothers⟩

section Same

variable (hsame : SameReceivers (generated.shards org repo) (repoDir jobDir org repo)
  (t.found (repoDir jobDir org repo) scan) (t'.found (repoDir jobDir org repo) scan'))

include hsame

/-- A file that is left by a run is settled by the next one to what it is. -/
theorem Run.settle_again {f : Planned} (hf : f ∈ t.plan jobDir org repo generated scan)
    (hemp : f.jobs.isEmpty = false) :
    settle (generated.considered org repo) f.jobs (takenShard? (generated.shards org repo)
      (t'.found (repoDir jobDir org repo) scan') f.path) = f.jobs := by
  have hleft : IsLeft generated org repo (t.found (repoDir jobDir org repo) scan) f →
      settle (generated.considered org repo) f.jobs none = f.jobs := by
    rintro ⟨e, he, rfl⟩
    exact settle_settle JobSet.every_empty (hold e (mem_found_iff_mem_loaded.1 he).2)
  cases hs : (generated.shards org repo).get? (shardName f.path) with
  | none =>
    rw [takenShard?_eq_none hs]
    exact hleft (isLeft_of_get?_eq_none h.org h.repo hf hs)
  | some s =>
    obtain ⟨f₁, hf₁, -, hreceiver, ⟨old, holdnew, hjobs⟩, -, hothers⟩ :=
      hrun.takes ht h hnew hold hs scan'
    obtain ⟨i, hi, hmem⟩ := hrun.exists_found ht h hf hemp scan'
    -- the file is the first of its name now if it is the one that took the shard
    have hfirst := isFirst_iff_receiver hmem (repoDir jobDir org repo)
    simp only [hi] at hfirst
    rw [hsame.receiver_eq hs, ← hreceiver] at hfirst
    by_cases hff : f = f₁
    · rw [takenShard?, if_pos (hfirst.2 (by rw [hff])), hs, hff, hjobs]
      exact settle_settle (hnew.of_get? hs).1 holdnew
    · rw [takenShard?, if_neg fun hf' => hff ?_]
      · exact hleft (hothers f hf rfl hff)
      · exact eq_of_path_eq h.org h.repo hf hf₁ (hfirst.1 hf').symm

/-- What the next run plans is there. -/
theorem Run.plan_again {f : Planned} (hf : f ∈ t'.plan jobDir org repo generated scan') :
    f ∈ t.plan jobDir org repo generated scan ∧ f.jobs.isEmpty = false := by
  rcases mem_plan.1 hf with ⟨e, he, rfl⟩ | ⟨n, s, hs, hno, rfl⟩
  · -- what is found was planned and is settled again
    obtain ⟨f, hf, hemp, hfile, -, hjobs⟩ := hrun.exists_planned_of_found ht h he
    rw [← hjobs, hfile, hrun.settle_again ht h hnew hold hsame hf hemp]
    exact ⟨hf, hemp⟩
  · -- no shard is left over: the file that took it is found
    obtain ⟨f, -, hn, -, -, ⟨i, hi, hmem⟩, -⟩ := hrun.takes ht h hnew hold hs scan'
    exact absurd (by rw [hi, hn]) (hno _ hmem)

theorem Run.fileAt?_again {f : Planned} (hf : f ∈ t'.plan jobDir org repo generated scan') :
    t'.Reaches f.path ∧ f.jobs.isEmpty = false ∧ f.jobs.render = .ok f.jobs.text ∧
      t'.fileAt? f.path.place = some (Utf8.encode f.jobs.text) := by
  obtain ⟨hf, hemp⟩ := hrun.plan_again ht h hnew hold hsame hf
  obtain ⟨hr, hc⟩ := hrun.fileAt?_planned ht h hf
  refine ⟨hr, hemp, hrun.render ht h hf hemp, ?_⟩
  rw [hc, contentOfJobs?, hemp]
  rfl

theorem Run.diffOf?_again {f : Planned} (hf : f ∈ t'.plan jobDir org repo generated scan') :
    t'.diffOf? jobDir f = .ok none := by
  obtain ⟨hr, hemp, htext, hc⟩ := hrun.fileAt?_again ht h hnew hold hsame hf
  have hold : t'.textOf f.path = .ok f.jobs.text := by
    rw [textOf, contentOf?, readFile_reaches (hrun.linkFree ht h) hr hc]
    simp [Except.map]
  rw [diffOf?, hold, Planned.text, hemp]
  simp [htext, bind, Except.bind, pure, Except.pure]

/-- A run that is repeated leaves the tree as it is and every file unchanged, if each shard has the
receiver that it had. -/
theorem Run.shardInto_again (dryRun : Bool) (disk : Storage) :
    t'.shardInto jobDir org repo generated dryRun scan' disk =
      (.ok ((t'.plan jobDir org repo generated scan').map fun f => (.unchanged, f.path)), t') := by
  have ht' := hrun.linkFree ht h
  rw [shardInto_of_isDirectory ht' h (hrun.isDirectory ht h)]
  exact writeAll_unchanged ht' (fun f hf => hrun.fileAt?_again ht h hnew hold hsame hf) dryRun disk

end Same

/-- Where a shard has another receiver after a run, both files have its name before the run and
after it. -/
theorem Run.exists_namesakes (hs : (generated.shards org repo).get? n = some s)
    (hne : receiver (repoDir jobDir org repo) (t'.found (repoDir jobDir org repo) scan') n ≠
      receiver (repoDir jobDir org repo) (t.found (repoDir jobDir org repo) scan) n) :
    ∃ f ∈ t.plan jobDir org repo generated scan, ∃ f' ∈ t.plan jobDir org repo generated scan,
      f.path = receiver (repoDir jobDir org repo) (t.found (repoDir jobDir org repo) scan) n ∧
      f'.path = receiver (repoDir jobDir org repo) (t'.found (repoDir jobDir org repo) scan') n ∧
      shardName f.path = n ∧ shardName f'.path = n ∧
      f.jobs.isEmpty = false ∧ f'.jobs.isEmpty = false ∧
      IsLeft generated org repo (t.found (repoDir jobDir org repo) scan) f' ∧
      ∃ e ∈ t.found (repoDir jobDir org repo) scan, e.1.file = f.path := by
  obtain ⟨f, hf, hn, hreceiver, ⟨old, holdnew, hjobs⟩, ⟨i, hi, hmem⟩, hothers⟩ :=
    hrun.takes ht h hnew hold hs scan'
  obtain ⟨e, he, hen, hreceiver', -⟩ := exists_isFirst hmem (repoDir jobDir org repo)
  simp only [hi, hn] at hen hreceiver'
  obtain ⟨f', hf', hemp', hfile, -, -⟩ := hrun.exists_planned_of_found ht h he
  have hn' : shardName f'.path = n := by rw [← hfile, hen]
  have hleft := hothers f' hf' hn' fun heq => hne (by rw [hreceiver', hfile, heq, hreceiver])
  obtain ⟨hsnew, hd⟩ := hnew.of_get? hs
  have hemp : f.jobs.isEmpty = false := by
    rw [hjobs]
    exact isEmpty_settle (isShard_of_get? hs) hsnew hd holdnew
  refine ⟨f, hf, f', hf', hreceiver, by rw [hreceiver', hfile], hn, hn', hemp, hemp', hleft, ?_⟩
  obtain ⟨e₀, he₀, rfl⟩ := hleft
  obtain ⟨e₁, he₁, -, hreceiver₁, -⟩ := exists_isFirst he₀ (repoDir jobDir org repo)
  rw [hn'] at hreceiver₁
  exact ⟨e₁, he₁, by rw [hreceiver, hreceiver₁]⟩

/-- If a repeated run leaves all files unchanged, each shard has the receiver that it had. -/
theorem Run.sameReceivers_of_unchanged
    (hback : ∀ f ∈ t'.plan jobDir org repo generated scan', f.jobs.isEmpty = false →
      f.jobs.ReadsBack)
    {os : List (Outcome × Path)} {disk : Storage} {t'' : FileTree}
    (hagain : t'.shardInto jobDir org repo generated false scan' disk = (.ok os, t''))
    (hos : ∀ r ∈ os, r.1 = .unchanged) :
    SameReceivers (generated.shards org repo) (repoDir jobDir org repo)
      (t.found (repoDir jobDir org repo) scan) (t'.found (repoDir jobDir org repo) scan') := by
  rintro ⟨n, s⟩ hs
  have hs := KeyMap.mem_entries_iff.1 hs
  by_contra hne
  -- the receiver now is another file, which holds what it was left with
  obtain ⟨-, -, f, hf, -, hreceiver, -, hn, -, hemp, hleft, -⟩ :=
    hrun.exists_namesakes ht h hnew hold hs hne
  refine settle_ne_of_isLeft hnew hold hs hleft ?_
  obtain ⟨i, hi, hmem⟩ := hrun.exists_found ht h hf hemp scan'
  have hfirst := (isFirst_iff_receiver hmem (repoDir jobDir org repo)).2 <| by
    simp only [hi, hn, ← hreceiver]
  have hplan := mem_plan_of_mem_found hmem generated
  simp only [hi] at hfirst hplan
  rw [takenShard?, if_pos hfirst, hn, hs] at hplan
  obtain ⟨rfl, -⟩ := shardInto_ok_outcomes h (hrun.linkFree ht h) hagain
  have hout := hos _ (List.mem_map_of_mem hplan)
  obtain ⟨hr, hc⟩ := hrun.fileAt?_planned ht h hf
  rw [contentOfJobs?, hemp, if_neg Bool.false_ne_true, fileAt?_eq_some_iff] at hc
  obtain ⟨hsnew, hd⟩ := hnew.of_get? hs
  have hemp' := isEmpty_settle (c := generated.considered org repo) (isShard_of_get? hs) hsnew hd
    (every_not_isNew_of_isLeft hleft)
  rw [outcome, outcomeOf_eq_unchanged, (hr.sees (hrun.linkFree ht h)).entryAt?, hc,
    entryOfJobs?_eq_some hemp', Option.some.injEq, Entry.file.injEq, Utf8.encode_inj] at hout
  exact (hback _ hplan hemp').eq (hrun.readsBack f hf hemp) hout.symm

/-- A run that is repeated leaves the tree and every file as it is, and a preview shows nothing, if
each shard has the receiver that it had. If the files are left as they are, each shard has. -/
theorem Run.again (scan' : Scanner) :
    (SameReceivers (generated.shards org repo) (repoDir jobDir org repo)
        (t.found (repoDir jobDir org repo) scan) (t'.found (repoDir jobDir org repo) scan') →
      (∀ dryRun disk, t'.shardInto jobDir org repo generated dryRun scan' disk =
        (.ok ((t'.plan jobDir org repo generated scan').map fun f => (.unchanged, f.path)), t')) ∧
      t'.preview jobDir org repo generated scan' = .ok []) ∧
    ((∀ f ∈ t'.plan jobDir org repo generated scan', f.jobs.isEmpty = false →
        f.jobs.ReadsBack) →
      ∀ os disk t'', t'.shardInto jobDir org repo generated false scan' disk = (.ok os, t'') →
        (∀ r ∈ os, r.1 = .unchanged) →
          SameReceivers (generated.shards org repo) (repoDir jobDir org repo)
            (t.found (repoDir jobDir org repo) scan)
            (t'.found (repoDir jobDir org repo) scan')) := by
  refine ⟨fun hsame => ⟨hrun.shardInto_again ht h hnew hold hsame, ?_⟩, ?_⟩
  · rw [preview_eq fun f hf => hrun.diffOf?_again ht h hnew hold hsame hf]
    simp
  · intro hback os disk t'' hagain hos
    exact hrun.sameReceivers_of_unchanged ht h hnew hold hback hagain hos

/-- Where no shard has the name of two files, its receiver stays whatever the orders are. -/
theorem Run.sameReceivers_of_oneTaker
    (hone : OneTaker (generated.shards org repo) (t.found (repoDir jobDir org repo) scan))
    (scan' : Scanner) :
    SameReceivers (generated.shards org repo) (repoDir jobDir org repo)
      (t.found (repoDir jobDir org repo) scan) (t'.found (repoDir jobDir org repo) scan') := by
  rintro ⟨n, s⟩ hs
  have hs := KeyMap.mem_entries_iff.1 hs
  by_contra hne
  obtain ⟨f, -, -, -, hreceiver, hreceiver', -, hn, -, -, ⟨e, he, rfl⟩, -⟩ :=
    hrun.exists_namesakes ht h hnew hold hs hne
  refine hne ?_
  rw [← hreceiver', receiver, ← hn, hone.firstNamed? he (by rw [hn, hs]), Option.getD_some]

end

/-- In the order of the walk each shard has the receiver that it had. -/
theorem Run.sameReceivers_inOrder (hrun : Run .inOrder jobDir org repo t generated t')
    (ht : t.LinkFree) (h : IsTarget jobDir org repo) (hnew : generated.Fresh org repo)
    (hold : ∀ e ∈ t.loaded (repoDir jobDir org repo), e.2.Every fun b => ¬b.IsNew) :
    SameReceivers (generated.shards org repo) (repoDir jobDir org repo)
      (t.found (repoDir jobDir org repo)) (t'.found (repoDir jobDir org repo)) := by
  rintro ⟨n, s⟩ hs
  have hs := KeyMap.mem_entries_iff.1 hs
  by_contra hne
  obtain ⟨f, hf, f', -, hreceiver, hreceiver', hn, hn', hemp, -, ⟨e', he', rfl⟩, -⟩ :=
    hrun.exists_namesakes ht h hnew hold hs hne
  obtain ⟨i, hi, hmem⟩ := hrun.exists_found ht h hf hemp .inOrder
  -- each of the two would be before the other
  have hlt := receiver_eq_or_lt (found_increasing t _) he' (repoDir jobDir org repo)
  have hgt := receiver_eq_or_lt (found_increasing t' _) hmem (repoDir jobDir org repo)
  simp only [hi, hn, hn', ← hreceiver, ← hreceiver'] at hlt hgt
  have hne' : e'.1.file ≠ f.path := fun heq => hne (by rw [← hreceiver', ← hreceiver, heq])
  rcases hlt with heq | hlt
  · exact hne' heq.symm
  · rcases hgt with heq | hgt
    · exact hne' heq
    · rw [Std.OrientedOrd.eq_swap, hgt] at hlt
      cases hlt

set_option maxRecDepth 100000 in
theorem fresh_smallJobs : (smallJobs Job.newlyGenerated).Fresh "o" "r" := by
  have h : ∀ shard ∈ ((smallJobs Job.newlyGenerated).shards "o" "r").values,
      shard.Every Job.IsNew ∧ shard.Distinct := by decide +kernel
  exact ⟨fun shard hs => (h shard hs).1, fun shard hs => (h shard hs).2⟩

set_option maxRecDepth 100000 in
/-- The small run is repeated without effect, though the files are handed over in another order. -/
theorem Run.again_handTree :
    handTreeAfter.shardInto smallDir "o" "r" (smallJobs Job.newlyGenerated) false .reversed =
      (.ok ((handTreeAfter.plan smallDir "o" "r" (smallJobs Job.newlyGenerated) .reversed).map
        fun f => (.unchanged, f.path)), handTreeAfter) ∧
    handTreeAfter.preview smallDir "o" "r" (smallJobs Job.newlyGenerated) .reversed = .ok [] := by
  have hold : ∀ e ∈ handTree.loaded (repoDir smallDir "o" "r"), e.2.Every fun b => ¬b.IsNew := by
    decide +kernel
  have hsame := run_handTree.sameReceivers_of_oneTaker linkFree_handTree isTarget_small
    fresh_smallJobs hold oneTaker_handTree .reversed
  obtain ⟨hagain, hpreview⟩ := (run_handTree.again linkFree_handTree isTarget_small fresh_smallJobs
    hold .reversed).1 hsame
  exact ⟨hagain false .sound, hpreview⟩

/-- A tree with two files of one name, one of which has no jobs. -/
def spareTree : FileTree :=
  nestedTree.put (smallPath "o-r-master-presubmits.yaml").place (.file (Utf8.encode "\x7b\x7d\n"))

/-- A run that hands over the file without jobs first. -/
def spareRun : Except Failure (List (Outcome × Path)) × FileTree :=
  spareTree.shardInto smallDir "o" "r" (smallJobs Job.newlyGenerated) false .reversed

/-- What is planned for that run: the file without jobs receives the shard. -/
def sparePlan : List Planned :=
  [⟨smallPath "o/r/o-r-master-presubmits.yaml", handJobs⟩,
    ⟨smallPath "o-r-master-presubmits.yaml", smallJobs Job.generated⟩]

set_option maxRecDepth 100000 in
theorem spareTree_spec : spareTree.LinkFree ∧
    spareTree.isDirectory (repoDir smallDir "o" "r") = true ∧
    (∀ e ∈ spareTree.loaded (repoDir smallDir "o" "r"), e.2.Every fun b => ¬b.IsNew) ∧
    spareTree.plan smallDir "o" "r" (smallJobs Job.newlyGenerated) .reversed = sparePlan := by
  decide +kernel

theorem spareRun_eq : spareRun = writeAll false spareTree sparePlan := by
  obtain ⟨ht, hd, -, hplan⟩ := spareTree_spec
  rw [spareRun, shardInto_of_isDirectory ht isTarget_small hd, hplan]

set_option maxRecDepth 100000 in
theorem outcomes_spareRun :
    spareRun.1.toOption = some [(.unchanged, smallPath "o/r/o-r-master-presubmits.yaml"),
      (.written, smallPath "o-r-master-presubmits.yaml")] ∧
    (spareRun.2.shardInto smallDir "o" "r" (smallJobs Job.newlyGenerated) false).1.toOption =
      some [(.written, smallPath "o/r/o-r-master-presubmits.yaml"),
        (.deleted, smallPath "o-r-master-presubmits.yaml")] := by
  rw [spareRun_eq]
  decide +kernel

theorem run_spareTree :
    Run .reversed smallDir "o" "r" spareTree (smallJobs Job.newlyGenerated) spareRun.2 := by
  refine ⟨⟨_, .sound, shardInto_eq outcomes_spareRun.1⟩, fun f hf _ => ?_⟩
  rw [spareTree_spec.2.2.2, sparePlan] at hf
  rcases List.mem_pair.1 hf with rfl | rfl
  · exact readsBack_smallJobs.2
  · exact readsBack_smallJobs.1

/-- A run on two files of one name that is repeated moves the jobs from one to the other if the
files are handed over in another order. -/
theorem Run.again_changes_spareTree :
    spareTree.LinkFree ∧ (smallJobs Job.newlyGenerated).Fresh "o" "r" ∧
    (∀ e ∈ spareTree.loaded (repoDir smallDir "o" "r"), e.2.Every fun b => ¬b.IsNew) ∧
    Run .reversed smallDir "o" "r" spareTree (smallJobs Job.newlyGenerated) spareRun.2 ∧
    (spareRun.2.shardInto smallDir "o" "r" (smallJobs Job.newlyGenerated) false).1.toOption =
      some [(.written, smallPath "o/r/o-r-master-presubmits.yaml"),
        (.deleted, smallPath "o-r-master-presubmits.yaml")] :=
  ⟨spareTree_spec.1, fresh_smallJobs, spareTree_spec.2.2.1, run_spareTree, outcomes_spareRun.2⟩

end FileTree

end JobConfig
