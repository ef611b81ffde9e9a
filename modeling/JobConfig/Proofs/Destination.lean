import JobConfig.Proofs.Linked
import JobConfig.Proofs.Namesakes

/-!
# Where shards go

A shard goes to the first file of its name that a scan hands over, in whatever directory below that
of the repository it is, and to a new file in the directory of the repository only if there is none.
So it goes to the file of its name in that directory, in whatever order the files are handed over,
if and only if there is no other file of the name.
-/

namespace JobConfig

open JobConfig.Path (isName)

namespace FileTree

variable {t : FileTree} {jobDir : Path} {org repo n : String} {generated s : JobSet} {f : Planned}
  {scan : Scanner}

/-! ### The receiver of a shard -/

/-- Whether a planned file is what becomes of a shard: the first file of its name, merged with it,
or a new file with nothing else. -/
def Receives (t : FileTree) (jobDir : Path) (org repo : String) (generated : JobSet)
    (scan : Scanner) (n : String) (s : JobSet) (f : Planned) : Prop :=
  (∃ e ∈ t.found (repoDir jobDir org repo) scan, shardName e.1.file = n ∧
    IsFirst (t.found (repoDir jobDir org repo) scan) e.1.file ∧
      f = ⟨e.1.file, settle (generated.considered org repo) e.2 (some s)⟩) ∨
  (∀ e ∈ t.found (repoDir jobDir org repo) scan, shardName e.1.file ≠ n) ∧
    f = ⟨(repoDir jobDir org repo).join (.ofString n), s.prune.sort⟩

/-- Whether a planned file is what it would be if there were no shard of a name. -/
def Ignores (t : FileTree) (jobDir : Path) (org repo : String) (generated : JobSet)
    (scan : Scanner) (n : String) (f : Planned) : Prop :=
  let others := (generated.shards org repo).erase n
  (∃ e ∈ t.found (repoDir jobDir org repo) scan,
    f = ⟨e.1.file, settle (generated.considered org repo) e.2
      (takenShard? others (t.found (repoDir jobDir org repo) scan) e.1.file)⟩) ∨
  ∃ n' s', others.get? n' = some s' ∧
    f = ⟨(repoDir jobDir org repo).join (.ofString n'), s'.prune.sort⟩

theorem takenShard?_erase_of_ne {shards : Shards} {found : List (Identity × JobSet)} {p : Path}
    (h : shardName p = n → ¬IsFirst found p) :
    takenShard? (shards.erase n) found p = takenShard? shards found p := by
  unfold takenShard?
  by_cases hfirst : IsFirst found p
  · rw [if_pos hfirst, if_pos hfirst, KeyMap.get?_erase, if_neg fun hn => h hn hfirst]
  · rw [if_neg hfirst, if_neg hfirst]

theorem ignores_of_mem_found {e : Identity × JobSet}
    (he : e ∈ t.found (repoDir jobDir org repo) scan)
    (h : shardName e.1.file = n → ¬IsFirst (t.found (repoDir jobDir org repo) scan) e.1.file) :
    t.Ignores jobDir org repo generated scan n
      ⟨e.1.file, settle (generated.considered org repo) e.2
        (takenShard? (generated.shards org repo) (t.found (repoDir jobDir org repo) scan)
          e.1.file)⟩ :=
  .inl ⟨e, he, by rw [takenShard?_erase_of_ne h]⟩

theorem ignores_of_shard {n' : String} {s' : JobSet} (hne : n' ≠ n)
    (hs : (generated.shards org repo).get? n' = some s') :
    t.Ignores jobDir org repo generated scan n
      ⟨(repoDir jobDir org repo).join (.ofString n'), s'.prune.sort⟩ :=
  .inr ⟨n', s', by rw [KeyMap.get?_erase, if_neg hne, hs], rfl⟩

theorem Receives.path_eq (h : t.Receives jobDir org repo generated scan n s f) :
    f.path = receiver (repoDir jobDir org repo) (t.found (repoDir jobDir org repo) scan) n := by
  rcases h with ⟨e, he, rfl, hfirst, rfl⟩ | ⟨hno, rfl⟩
  · exact ((isFirst_iff_receiver he _).1 hfirst).symm
  · rw [receiver_of_not_found _ hno]

/-- One planned file receives a shard, and all others are as if there were none. -/
theorem exists_receives (hs : (generated.shards org repo).get? n = some s) :
    ∃ f ∈ t.plan jobDir org repo generated scan,
      t.Receives jobDir org repo generated scan n s f ∧
      ∀ f' ∈ t.plan jobDir org repo generated scan, f' ≠ f →
        t.Ignores jobDir org repo generated scan n f' := by
  by_cases htaken : ∃ e ∈ t.found (repoDir jobDir org repo) scan, shardName e.1.file = n
  · obtain ⟨e₀, he₀, hn₀⟩ := htaken
    obtain ⟨e, he, hn, -, hfirst⟩ := exists_isFirst he₀ (repoDir jobDir org repo)
    rw [hn₀] at hn
    have hf := mem_plan_of_mem_found he generated
    rw [takenShard?, if_pos hfirst, hn, hs] at hf
    refine ⟨_, hf, .inl ⟨e, he, hn, hfirst, rfl⟩, fun f' hf' hne => ?_⟩
    rcases mem_plan.1 hf' with ⟨e', he', rfl⟩ | ⟨n', s', hs', hno, rfl⟩
    · refine ignores_of_mem_found he' fun hn' hfirst' => hne ?_
      -- two files of one name cannot both be the first one
      rw [eq_of_file_eq he' he (hfirst.eq hfirst' he (hn'.trans hn.symm)), takenShard?,
        if_pos hfirst, hn, hs]
    · exact ignores_of_shard (fun hn' => hno e he (hn.trans hn'.symm)) hs'
  · simp only [not_exists, not_and] at htaken
    refine ⟨_, mem_plan_of_shard hs htaken, .inr ⟨htaken, rfl⟩, fun f' hf' hne => ?_⟩
    rcases mem_plan.1 hf' with ⟨e', he', rfl⟩ | ⟨n', s', hs', -, rfl⟩
    · exact ignores_of_mem_found he' fun hn' => absurd hn' (htaken e' he')
    · refine ignores_of_shard (fun hn' => hne ?_) hs'
      subst hn'
      rw [hs, Option.some.injEq] at hs'
      rw [hs']

/-! ### The target of a shard -/

theorem LinkFree.isLink (ht : t.LinkFree) (p : Path) : t.isLink p = false := by
  rw [FileTree.isLink]
  split
  · rename_i l target h
    exact absurd (lookup_ok ht h).2 (ht l target)
  · rfl

/-- Every file that is found is the first one of its name in some order. -/
theorem exists_receiver_eq {dir : Path} {e : Identity × JobSet} (he : e ∈ t.found dir) :
    ∃ scan, receiver dir (t.found dir scan) (shardName e.1.file) = e.1.file := by
  obtain ⟨hd, he⟩ := mem_found_iff_mem_loaded.1 he
  obtain ⟨before, after, hsplit⟩ := List.append_of_mem he
  have hperm : (e :: (before ++ after)).Perm (t.loaded dir) := hsplit ▸ List.perm_middle.symm
  obtain ⟨scan, hscan⟩ := exists_deliver hperm
  refine ⟨scan, ?_⟩
  rw [found, if_pos hd, hscan, receiver, firstNamed?_cons, if_pos rfl, Option.getD_some]

/-- A shard goes to the file of its name in the directory of the repository, whatever the order is
in which files are handed over, just if no other file has the name. -/
theorem forall_receiver_eq_iff {dir : Path} :
    (∀ scan, receiver dir (t.found dir scan) n = dir.join (.ofString n)) ↔
      ∀ e ∈ t.found dir, shardName e.1.file = n → e.1.file = dir.join (.ofString n) := by
  constructor
  · rintro h e he rfl
    obtain ⟨scan, hscan⟩ := exists_receiver_eq he
    rw [← h scan, hscan]
  · intro h scan
    by_cases htaken : ∃ e ∈ t.found dir scan, shardName e.1.file = n
    · obtain ⟨e₀, he₀, rfl⟩ := htaken
      obtain ⟨e, he, hn, hreceiver, -⟩ := exists_isFirst he₀ dir
      rw [hreceiver, h e (mem_found_iff_inOrder.1 he) hn]
    · simp only [not_exists, not_and] at htaken
      exact receiver_of_not_found dir htaken

/-- What the file of its name in the directory of the repository holds if it receives a shard. -/
theorem Receives.jobs_eq (ht : t.LinkFree) (ho : Path.IsPlain org) (hr : Path.IsPlain repo)
    (hs : (generated.shards org repo).get? n = some s)
    (h : t.Receives jobDir org repo generated scan n s f)
    (hp : f.path = (repoDir jobDir org repo).join (.ofString n)) : f.jobs =
      match t.load ((repoDir jobDir org repo).join (.ofString n)) with
      | .ok old => settle (generated.considered org repo) old (some s)
      | .error _ => s.prune.sort := by
  rcases h with ⟨e, he, hn, hfirst, rfl⟩ | ⟨hno, rfl⟩
  · have hload := load_of_mem_found he
    simp only at hp
    rw [hp] at hload
    rw [hload]
  · split
    · -- a file that can be loaded would be found
      rename_i old hold
      obtain ⟨i, hi, hmem⟩ := mem_found_of_load ho hr hs hold (ht.isLink _) scan
      refine absurd ?_ (hno _ hmem)
      rw [hi, shardName_join (isPlain_of_get?_shards ho hr hs)]
    · rfl

/-- A shard goes to one planned file, its receiver, and no other has anything of it. If that is the
file of the shard's name in the directory of the repository, it is merged with the shard if it can
be loaded, and made for it if not. It is that file in every order in which files may be handed over,
if and only if no other file of the name is found. -/
theorem shard_goes (ht : t.LinkFree) (ho : Path.IsPlain org) (hr : Path.IsPlain repo)
    (hs : (generated.shards org repo).get? n = some s) :
    (∀ scan, ∃ f ∈ t.plan jobDir org repo generated scan,
      t.Receives jobDir org repo generated scan n s f ∧
      f.path = receiver (repoDir jobDir org repo) (t.found (repoDir jobDir org repo) scan) n ∧
      (∀ f' ∈ t.plan jobDir org repo generated scan, f' ≠ f →
        t.Ignores jobDir org repo generated scan n f') ∧
      (f.path = (repoDir jobDir org repo).join (.ofString n) → f.jobs =
        match t.load ((repoDir jobDir org repo).join (.ofString n)) with
        | .ok old => settle (generated.considered org repo) old (some s)
        | .error _ => s.prune.sort)) ∧
    ((∀ scan, receiver (repoDir jobDir org repo) (t.found (repoDir jobDir org repo) scan) n =
        (repoDir jobDir org repo).join (.ofString n)) ↔
      ∀ e ∈ t.found (repoDir jobDir org repo), shardName e.1.file = n →
        e.1.file = (repoDir jobDir org repo).join (.ofString n)) := by
  refine ⟨fun scan => ?_, forall_receiver_eq_iff⟩
  obtain ⟨f, hf, hreceives, hothers⟩ := exists_receives (t := t) hs
  exact ⟨f, hf, hreceives, hreceives.path_eq, hothers, hreceives.jobs_eq ht ho hr hs⟩

/-- A tree with a file that has the name of a shard. -/
def masterTree : FileTree :=
  smallTree [("o-r-master-presubmits.yaml", "presubmits:\n  o/r:\n  - name: b\n")]

set_option maxRecDepth 100000 in
/-- A file that can be loaded is merged with the shard of its name. -/
theorem shard_goes_masterTree :
    ∃ f ∈ masterTree.plan smallDir "o" "r" (smallJobs Job.newlyGenerated),
      f.path = smallPath "o-r-master-presubmits.yaml" ∧
      f.jobs = settle ((smallJobs Job.newlyGenerated).considered "o" "r") handJobs
        (some (smallJobs Job.newlyGenerated)) := by
  have hs : ((smallJobs Job.newlyGenerated).shards "o" "r").get? "o-r-master-presubmits.yaml" =
      some (smallJobs Job.newlyGenerated) := by decide +kernel
  have hload : masterTree.load ((repoDir smallDir "o" "r").join
      (.ofString "o-r-master-presubmits.yaml")) = .ok handJobs :=
    toOption_eq_some_iff.1 (by decide +kernel)
  have hfound : ∀ e ∈ masterTree.found (repoDir smallDir "o" "r"),
      e.1.file = smallPath "o-r-master-presubmits.yaml" := by decide +kernel
  have hfree : masterTree.LinkFree := by decide +kernel
  obtain ⟨hgoes, htarget⟩ :=
    @shard_goes _ smallDir _ _ _ _ _ hfree (by decide) (by decide) hs
  obtain ⟨f, hf, -, hpath, -, hjobs⟩ := hgoes .inOrder
  have hp : f.path = smallPath "o-r-master-presubmits.yaml" := by
    rw [hpath, htarget.2 fun e he _ => hfound e he]
    rfl
  have hj := hjobs hp
  rw [hload] at hj
  exact ⟨f, hf, hp, hj⟩

set_option maxRecDepth 100000 in
/-- The shard goes to the file of the other directory, and none is made for it. -/
theorem shard_strays_nestedTree : nestedTree.LinkFree ∧
    ((smallJobs Job.newlyGenerated).shards "o" "r").get? "o-r-master-presubmits.yaml" =
      some (smallJobs Job.newlyGenerated) ∧
    (∀ f ∈ nestedTree.plan smallDir "o" "r" (smallJobs Job.newlyGenerated),
      f.path ≠ smallPath "o-r-master-presubmits.yaml") ∧
    ∃ f ∈ nestedTree.plan smallDir "o" "r" (smallJobs Job.newlyGenerated),
      f.path = smallPath "o/r/o-r-master-presubmits.yaml" ∧
        "a" ∈ (f.jobs.jobs (.presubmits "o/r")).map nameOf := by
  decide +kernel

end FileTree

end JobConfig
