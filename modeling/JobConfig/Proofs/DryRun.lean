import JobConfig.Proofs.Completion

/-!
# Dry runs

A dry run leaves the tree as it is, whatever comes of it. If the run would end well, the dry run
does so too, and foretells its outcomes: it decides each of them from the tree as it is, and so do
they turn out, since no file of a plan is in the way of another. The two scan on their own, though,
and have one plan only if each shard has the same receiver in both scans.
-/

namespace JobConfig

/-- The outcome that a dry run gives for another. -/
def Outcome.foretold : Outcome → Outcome
  | written => wouldWrite
  | deleted => wouldDelete
  | o => o

namespace FileTree

variable {t t' : FileTree} {p : Path} {jobDir : Path} {org repo : String} {generated : JobSet}
  (disk : Storage)

/-! ### No change -/

theorem removeJobs_dry_snd (t : FileTree) (p : Path) : (t.removeJobs p true disk).2 = t := by
  rw [removeJobs]
  split <;> rfl

theorem writeJobs_dry_snd (t : FileTree) (p : Path) (jobs : JobSet) :
    (t.writeJobs p jobs true disk).2 = t := by
  rw [writeJobs]
  split
  · exact removeJobs_dry_snd disk t p
  · split
    · rfl
    · rfl
    · split <;> rfl

theorem writeAll_dry_snd (t : FileTree) (fs : List Planned) :
    (writeAll true t fs disk).2 = t := by
  induction fs with
  | nil => rfl
  | cons f fs ih =>
    have hf := writeJobs_dry_snd disk t f.path f.jobs
    rw [writeAll]
    split
    · rename_i h
      rw [h] at hf
      exact hf
    · rename_i h
      rw [h] at hf
      obtain rfl : _ = t := hf
      split <;> rename_i hrest <;> rw [hrest] at ih <;> exact ih

/-- A dry run changes nothing. -/
theorem shardInto_dry_snd (t : FileTree) (jobDir : Path) (org repo : String) (generated : JobSet)
    (scan : Scanner) : (t.shardInto jobDir org repo generated true scan disk).2 = t :=
  writeAll_dry_snd disk t _

/-! ### Outcomes -/

/-- A dry run gives the outcome that what stands at the place decides. -/
theorem writeJobs_dry (ht : t.LinkFree) (hp : t.Sees p) (hd : t.get? p.place ≠ some .directory)
    {jobs : JobSet} (htext : jobs.isEmpty = false → jobs.render = .ok jobs.text) :
    t.writeJobs p jobs true disk = (.ok (outcomeOf (t.get? p.place) jobs).foretold, t) := by
  rw [writeJobs]
  cases he : jobs.isEmpty with
  | true =>
    rw [if_pos rfl, removeJobs, hp.contains, outcomeOf, entryOfJobs?_of_isEmpty he]
    cases t.get? p.place with
    | none => rfl
    | some e => simp [he, Outcome.foretold]
  | false =>
    rw [if_neg (by simp), hp.contentOf? ht hd, htext he]
    by_cases hsame : t.get? p.place = entryOfJobs? jobs
    · have hfile : t.fileAt? p.place = some (Utf8.encode jobs.text) := by
        rw [fileAt?_eq_some_iff, hsame, entryOfJobs?_eq_some he]
      simp [hfile, outcomeOf_eq_unchanged.2 hsame, Outcome.foretold]
    · have hfile : t.fileAt? p.place ≠ some (Utf8.encode jobs.text) := by
        rw [Ne, fileAt?_eq_some_iff, ← entryOfJobs?_eq_some he]
        exact hsame
      simp [hfile, outcomeOf_eq_written.2 ⟨he, hsame⟩, Outcome.foretold]

theorem writeAll_dry (ht : t.LinkFree) {fs : List Planned}
    (h : ∀ f ∈ fs, t.Sees f.path ∧ t.entryAt? f.path ≠ some .directory ∧
      (f.jobs.isEmpty = false → f.jobs.render = .ok f.jobs.text)) :
    writeAll true t fs disk = (.ok (fs.map fun f => ((t.outcome f).foretold, f.path)), t) := by
  induction fs with
  | nil => rfl
  | cons f fs ih =>
    obtain ⟨hs, hd, htext⟩ := h f List.mem_cons_self
    have hentry := hs.entryAt?
    rw [hentry] at hd
    rw [writeAll, writeJobs_dry disk ht hs hd htext, ← hentry, ← outcome]
    simp only [ih fun g hg => h g (List.mem_cons_of_mem _ hg), List.map_cons]

/-- A dry run leaves the tree as it is. Where a run ends well in which each shard has the receiver
that it has in the dry run, this gives the same files in the same order, each with the outcome
foretold. -/
theorem shardInto_dry (ht : t.LinkFree) (h : IsTarget jobDir org repo) (generated : JobSet) :
    (∀ scan disk, (t.shardInto jobDir org repo generated true scan disk).2 = t) ∧
    ∀ scan scan' disk disk' os t',
      SameReceivers (generated.shards org repo) (repoDir jobDir org repo)
        (t.found (repoDir jobDir org repo) scan) (t.found (repoDir jobDir org repo) scan') →
      t.shardInto jobDir org repo generated false scan disk = (.ok os, t') →
        (t.shardInto jobDir org repo generated true scan' disk').1 =
          .ok (os.map fun r => (r.1.foretold, r.2)) := by
  refine ⟨fun scan disk => shardInto_dry_snd disk t jobDir org repo generated scan, ?_⟩
  intro scan scan' disk disk' os t' hsame hrun
  obtain ⟨rfl, hfiles⟩ := shardInto_ok_outcomes h ht hrun
  have hplan := plan_eq_of_sameReceivers (found_perm_found t _ scan scan') hsame
  have hdry : t.shardInto jobDir org repo generated true scan' disk' =
      writeAll true t (t.plan jobDir org repo generated scan') disk' := rfl
  rw [hdry, hplan, writeAll_dry disk' ht fun f hf => ?_, List.map_map]
  · rfl
  · obtain ⟨hs, hd, -, htext⟩ := hfiles f hf
    exact ⟨hs, hd, htext⟩

set_option maxRecDepth 100000 in
/-- The small run foretold by a scan in the other order. -/
theorem shardInto_dry_handTree :
    (handTree.shardInto smallDir "o" "r" (smallJobs Job.newlyGenerated) true .reversed).2 =
      handTree ∧
    (handTree.shardInto smallDir "o" "r" (smallJobs Job.newlyGenerated) true .reversed).1 =
      .ok [(.wouldWrite, smallPath "o-r-master-presubmits.yaml"),
        (.unchanged, smallPath "o-r-x-presubmits.yaml")] := by
  have hsame := oneTaker_handTree.sameReceivers (found_perm_found handTree _ .inOrder .reversed)
    (repoDir smallDir "o" "r")
  obtain ⟨htree, hos⟩ :=
    shardInto_dry linkFree_handTree isTarget_small (smallJobs Job.newlyGenerated)
  exact ⟨htree _ .sound, hos _ _ .sound .sound _ _ hsame shardInto_handTree⟩

set_option maxRecDepth 100000 in
/-- A dry run on two files of one name foretells other outcomes than those of a run whose scan hands
them over in the other order. -/
theorem shardInto_dry_misses_twinTree : twinTree.LinkFree ∧
    (twinTree.shardInto smallDir "o" "r" plainJobs true).1.toOption =
      some [(.wouldWrite, smallPath "o/r/o-r-master-presubmits.yaml"),
        (.unchanged, smallPath "o-r-master-presubmits.yaml")] ∧
    twinRun.1.toOption = some [(.unchanged, smallPath "o/r/o-r-master-presubmits.yaml"),
      (.written, smallPath "o-r-master-presubmits.yaml")] :=
  ⟨twinRun_spec.1, by decide +kernel, twinRun_spec.2.1⟩

end FileTree

end JobConfig
