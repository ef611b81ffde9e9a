import JobConfig.Proofs.Canonical
import JobConfig.Proofs.Delivery
import JobConfig.Proofs.Destination

/-!
# Well-formed plans

In whatever order its files are handed over, the plan of a repository is in the order of its paths.
It has the files that are found and those of the shards whose names no file has, each once. Each
shard is used for one of them, and what is planned is sorted and made final.
-/

namespace JobConfig

variable {t : FileTree} {jobDir dir : Path} {org repo : String} {generated : JobSet}
  {c : Considered} {shards shards' : Shards} {found loaded delivered : List (Identity × JobSet)}

/-! ### Paths -/

/-- The paths of a plan, of the files that are handed over and of the shards that are left. -/
theorem map_path_planOf (loaded : List (Identity × JobSet)) :
    (planOf jobDir org repo generated loaded).map Planned.path =
      sortBy Path.sortKey ((loaded.map fun e => e.1.file) ++
        (planFiles (generated.considered org repo) (generated.shards org repo)
          loaded).2.keys.map fun n => (repoDir jobDir org repo).join (.ofString n)) := by
  rw [planOf, ← sortBy_map (fun f : Planned => f.path.sortKey) Path.sortKey Planned.path fun _ => rfl,
    List.map_append, map_path_planFiles, KeyMap.keys, List.map_map, List.map_map]
  rfl

/-- The paths of a plan are the same in whatever order the files are handed over. -/
theorem map_path_planOf_of_perm (ht : t.LinkFree) (ho : Path.IsPlain org) (hr : Path.IsPlain repo)
    (generated : JobSet) (hp : (t.found (repoDir jobDir org repo)).Perm delivered) :
    (planOf jobDir org repo generated delivered).map Planned.path =
      (t.plan jobDir org repo generated).map Planned.path := by
  have hnodup : (((t.plan jobDir org repo generated).map Planned.path).map Path.sortKey).Nodup := by
    rw [List.map_map]
    refine List.pairwise_map.2 ((plan_increasing ht ho hr).imp fun hlt heq => ?_)
    rw [Function.comp_apply, Function.comp_apply] at heq
    rw [heq, Std.ReflOrd.compare_self] at hlt
    cases hlt
  rw [FileTree.plan, map_path_planOf] at hnodup ⊢
  rw [map_path_planOf, ← planFiles_snd_perm hp]
  have hinj := List.inj_on_of_nodup_map hnodup
  refine (sortBy_eq_of_perm ((hp.map _).append_right _) fun p hp q hq => ?_).symm
  exact hinj (mem_sortBy.2 hp) (mem_sortBy.2 hq)

/-! ### Shards -/

/-- How a planned file comes about: from a file that is found, or for a shard, and which shard is
used for it. -/
inductive Uses (found : List (Identity × JobSet)) (shards : Shards) (c : Considered) (dir : Path) :
    Planned → Option String → Prop where
  | kept {e : Identity × JobSet} (he : e ∈ found) :
    Uses found shards c dir ⟨e.1.file, settle c e.2 none⟩ none
  | merged {e : Identity × JobSet} {s : JobSet} (he : e ∈ found)
    (hs : shards.get? (shardName e.1.file) = some s) :
    Uses found shards c dir ⟨e.1.file, settle c e.2 (some s)⟩ (some (shardName e.1.file))
  | fresh {n : String} {s : JobSet} (hs : shards.get? n = some s)
    (hno : ∀ e ∈ found, shardName e.1.file ≠ n) :
    Uses found shards c dir ⟨dir.join (.ofString n), s.prune.sort⟩ (some n)

/-- The planned files of those that are handed over, each with the name of the shard that is used
for it. -/
def planUses (c : Considered) : Shards → List (Identity × JobSet) → List (Planned × Option String)
  | _, [] => []
  | shards, (i, old) :: rest =>
    (⟨i.file, settle c old (shards.get? (shardName i.file))⟩,
      (shards.get? (shardName i.file)).map fun _ => shardName i.file) ::
      planUses c (shards.erase (shardName i.file)) rest

theorem map_fst_planUses (c : Considered) (shards : Shards) (loaded : List (Identity × JobSet)) :
    (planUses c shards loaded).map Prod.fst = (planFiles c shards loaded).1 := by
  induction loaded generalizing shards with
  | nil => rfl
  | cons e loaded ih =>
    obtain ⟨i, old⟩ := e
    rw [planUses, List.map_cons, ih, planFiles_cons]

/-- Each shard is used once, or left. -/
theorem planUses_perm (c : Considered) (shards : Shards) (loaded : List (Identity × JobSet)) :
    ((planUses c shards loaded).filterMap Prod.snd ++ (planFiles c shards loaded).2.keys).Perm
      shards.keys := by
  induction loaded generalizing shards with
  | nil => exact .refl _
  | cons e loaded ih =>
    obtain ⟨i, old⟩ := e
    rw [planUses, planFiles_cons, List.filterMap_cons]
    cases hs : shards.get? (shardName i.file) with
    | none =>
      rw [KeyMap.erase_of_get?_eq_none hs]
      exact ih shards
    | some s =>
      have hkeys : shards.keys.Perm (shardName i.file :: (shards.erase (shardName i.file)).keys) :=
        (KeyMap.entries_perm_erase hs).map Prod.fst
      exact ((ih _).cons _).trans hkeys.symm

theorem uses_of_mem_planUses (dir : Path) (hsub : ∀ e ∈ loaded, e ∈ found)
    (hshards : ∀ n s, shards'.get? n = some s → shards.get? n = some s) :
    ∀ u ∈ planUses c shards' loaded, Uses found shards c dir u.1 u.2 := by
  -- the shards that are left are some of all
  induction loaded generalizing shards' with
  | nil => simp [planUses]
  | cons e loaded ih =>
    obtain ⟨i, old⟩ := e
    obtain ⟨he, hloaded⟩ := List.forall_mem_cons.1 hsub
    rw [planUses]
    refine List.forall_mem_cons.2 ⟨?_, ih hloaded fun n s hs => ?_⟩
    · cases hs : shards'.get? (shardName i.file) with
      | none => exact .kept he
      | some s => exact .merged he (hshards _ s hs)
    · rw [KeyMap.get?_erase, Option.ite_none_left_eq_some] at hs
      exact hshards n s hs.2

/-- Each shard is used for one file of a plan and no other. -/
theorem exists_uses (jobDir : Path) (org repo : String) (generated : JobSet)
    (hp : found.Perm delivered) : ∃ us : List (Planned × Option String),
      us.map Prod.fst = planOf jobDir org repo generated delivered ∧
      (us.filterMap Prod.snd).Perm (generated.shards org repo).keys ∧
      ∀ u ∈ us, Uses found (generated.shards org repo) (generated.considered org repo)
        (repoDir jobDir org repo) u.1 u.2 := by
  let c := generated.considered org repo
  let shards := generated.shards org repo
  let left := (planFiles c shards delivered).2
  let fresh : List (Planned × Option String) := left.entries.map fun e =>
    (⟨(repoDir jobDir org repo).join (.ofString e.1), e.2.prune.sort⟩, some e.1)
  refine ⟨sortBy (fun u : Planned × Option String => u.1.path.sortKey)
    (planUses c shards delivered ++ fresh), ?_, ?_, fun u hu => ?_⟩
  · rw [← sortBy_map _ (fun f : Planned => f.path.sortKey) Prod.fst fun _ => rfl, List.map_append,
      map_fst_planUses, List.map_map]
    rfl
  · refine (((sortBy_perm _ _).filterMap _).trans ?_).trans (planUses_perm c shards delivered)
    rw [List.filterMap_append, List.filterMap_map]
    refine .of_eq (congrArg _ ?_)
    exact congrFun List.filterMap_eq_map' left.entries
  · rcases List.mem_append.1 (mem_sortBy.1 hu) with hu | hu
    · exact uses_of_mem_planUses _ (fun e => hp.mem_iff.2) (fun _ _ => id) u hu
    · obtain ⟨⟨n, s⟩, he, rfl⟩ := List.mem_map.1 hu
      rw [KeyMap.mem_entries_iff, get?_planFiles_snd, Option.ite_none_left_eq_some] at he
      exact .fresh he.2 fun e hmem hn => he.1 ⟨e, hp.mem_iff.1 hmem, hn⟩

/-! ### Well-formed plans -/

/-- Whether planned files are a plan for the files that are found and the shards of a directory: they
are in the order of their paths and at different places, each file and each shard without one has
its path among them, each shard is used for one of them, and all they hold is sorted and final. -/
structure WellFormed (found : List (Identity × JobSet)) (shards : Shards) (c : Considered)
    (dir : Path) (plan : List Planned) : Prop where
  increasing : plan.Pairwise fun f g => compare f.path.sortKey g.path.sortKey = .lt
  apart : plan.Pairwise fun f g => f.path.place ≠ g.path.place
  mem_paths : ∀ p, p ∈ plan.map Planned.path ↔ (∃ e ∈ found, e.1.file = p) ∨
    ∃ n s, shards.get? n = some s ∧ (∀ e ∈ found, shardName e.1.file ≠ n) ∧
      p = dir.join (.ofString n)
  uses : ∃ us : List (Planned × Option String), us.map Prod.fst = plan ∧
    (us.filterMap Prod.snd).Perm shards.keys ∧ ∀ u ∈ us, Uses found shards c dir u.1 u.2
  sorted : ∀ f ∈ plan, f.jobs.sort = f.jobs
  full : ∀ f ∈ plan, f.jobs.Full
  final : ∀ f ∈ plan, f.jobs.Every fun b => b.marker? = none ∨ b.marker? = some Job.generated

/-- Every planned file is settled, a new one without a shard. -/
theorem Uses.exists_settle {f : Planned} {o : Option String} (h : Uses found shards c dir f o) :
    ∃ old shard?, f.jobs = settle c old shard? := by
  cases h with
  | kept he => exact ⟨_, _, rfl⟩
  | merged he hs => exact ⟨_, _, rfl⟩
  | @fresh n s hs hno => exact ⟨s, none, rfl⟩

theorem mem_map_path_plan {p : Path} : p ∈ (t.plan jobDir org repo generated).map Planned.path ↔
    (∃ e ∈ t.found (repoDir jobDir org repo), e.1.file = p) ∨
      ∃ n s, (generated.shards org repo).get? n = some s ∧
        (∀ e ∈ t.found (repoDir jobDir org repo), shardName e.1.file ≠ n) ∧
        p = (repoDir jobDir org repo).join (.ofString n) := by
  rw [List.mem_map]
  constructor
  · rintro ⟨f, hf, rfl⟩
    rcases mem_plan.1 hf with ⟨e, he, rfl⟩ | ⟨n, s, hs, hno, rfl⟩
    · exact .inl ⟨e, he, rfl⟩
    · exact .inr ⟨n, s, hs, hno, rfl⟩
  · rintro (⟨e, he, rfl⟩ | ⟨n, s, hs, hno, rfl⟩)
    · exact ⟨_, mem_plan_of_mem_found he generated, rfl⟩
    · exact ⟨_, mem_plan_of_shard hs hno, rfl⟩

/-- No two files are planned for one place. -/
theorem plan_apart (ht : t.LinkFree) (ho : Path.IsPlain org) (hr : Path.IsPlain repo) :
    (t.plan jobDir org repo generated).Pairwise fun f g => f.path.place ≠ g.path.place := by
  refine (plan_increasing ht ho hr).imp_of_mem fun hf hg hlt heq => ?_
  rw [eq_of_mem_plan ht ho hr hf hg heq, Std.ReflOrd.compare_self] at hlt
  cases hlt

theorem planOf_wellFormed (ht : t.LinkFree) (ho : Path.IsPlain org) (hr : Path.IsPlain repo)
    (generated : JobSet) (hp : (t.found (repoDir jobDir org repo)).Perm delivered) :
    WellFormed (t.found (repoDir jobDir org repo)) (generated.shards org repo)
      (generated.considered org repo) (repoDir jobDir org repo)
      (planOf jobDir org repo generated delivered) := by
  have hpaths := map_path_planOf_of_perm ht ho hr generated hp
  have hall {R : Path → Path → Prop}
      (h : (t.plan jobDir org repo generated).Pairwise fun f g => R f.path g.path) :
      (planOf jobDir org repo generated delivered).Pairwise fun f g => R f.path g.path := by
    have hmap := List.pairwise_map.2 h
    rw [← hpaths] at hmap
    exact List.pairwise_map.1 hmap
  obtain ⟨us, hus, hperm, huses⟩ := exists_uses jobDir org repo generated hp
  have hsettle : ∀ f ∈ planOf jobDir org repo generated delivered,
      ∃ old shard?, f.jobs = settle (generated.considered org repo) old shard? := by
    intro f hf
    rw [← hus] at hf
    obtain ⟨u, hu, rfl⟩ := List.mem_map.1 hf
    exact (huses u hu).exists_settle
  exact {
    increasing := hall (R := fun p q => compare p.sortKey q.sortKey = .lt)
      (plan_increasing ht ho hr)
    apart := hall (R := fun p q => p.place ≠ q.place) (plan_apart ht ho hr)
    mem_paths := fun p => by rw [hpaths, mem_map_path_plan]
    uses := ⟨us, hus, hperm, huses⟩
    sorted := fun f hf => by
      obtain ⟨old, shard?, hjobs⟩ := hsettle f hf
      rw [hjobs, settle, JobSet.sort_sort]
    full := fun f hf => by
      obtain ⟨old, shard?, hjobs⟩ := hsettle f hf
      rw [hjobs]
      exact full_settle
    final := fun f hf g j hj => by
      obtain ⟨old, shard?, hjobs⟩ := hsettle f hf
      rw [hjobs] at hj
      exact marker?_settle hj rfl }

/-- The plan of a repository is well formed, whatever scan it starts from, and so is the one made of
its files in any other order. -/
theorem FileTree.plan_wellFormed (ht : t.LinkFree) (ho : Path.IsPlain org)
    (hr : Path.IsPlain repo) (jobDir : Path) (generated : JobSet) :
    (∀ scan, WellFormed (t.found (repoDir jobDir org repo)) (generated.shards org repo)
      (generated.considered org repo) (repoDir jobDir org repo)
      (t.plan jobDir org repo generated scan)) ∧
    ∀ delivered, (t.found (repoDir jobDir org repo)).Perm delivered →
      WellFormed (t.found (repoDir jobDir org repo)) (generated.shards org repo)
        (generated.considered org repo) (repoDir jobDir org repo)
        (planOf jobDir org repo generated delivered) :=
  ⟨fun scan => planOf_wellFormed ht ho hr generated (found_perm t _ scan).symm,
    fun _ hp => planOf_wellFormed ht ho hr generated hp⟩

/-- The files of the tree, in the order of a walk. -/
def twinFound : List (Identity × JobSet) :=
  twinTree.found (repoDir FileTree.smallDir "o" "r")

set_option maxRecDepth 100000 in
/-- Of two files of one name the one that is handed over first uses the shard, and a third file is
new. Both plans are well formed. -/
theorem plan_wellFormed_twinTree : twinTree.LinkFree ∧
    (FileTree.twoJobs.shards "o" "r").keys =
      ["o-r-master-presubmits.yaml", "o-r-x-presubmits.yaml"] ∧
    (twinTree.plan FileTree.smallDir "o" "r" FileTree.twoJobs).map (fun f => f.path.display) =
      ["jobs/o/r/o/r/o-r-master-presubmits.yaml", "jobs/o/r/o-r-master-presubmits.yaml",
        "jobs/o/r/o-r-x-presubmits.yaml"] ∧
    twinTree.plan FileTree.smallDir "o" "r" FileTree.twoJobs ≠
      planOf FileTree.smallDir "o" "r" FileTree.twoJobs twinFound.reverse ∧
    ∀ plan ∈ [twinTree.plan FileTree.smallDir "o" "r" FileTree.twoJobs,
      planOf FileTree.smallDir "o" "r" FileTree.twoJobs twinFound.reverse],
      WellFormed twinFound (FileTree.twoJobs.shards "o" "r")
        (FileTree.twoJobs.considered "o" "r") (repoDir FileTree.smallDir "o" "r") plan := by
  obtain ⟨ht, hkeys, hpaths, hne⟩ : twinTree.LinkFree ∧
      (FileTree.twoJobs.shards "o" "r").keys =
        ["o-r-master-presubmits.yaml", "o-r-x-presubmits.yaml"] ∧
      (twinTree.plan FileTree.smallDir "o" "r" FileTree.twoJobs).map (fun f => f.path.display) =
        ["jobs/o/r/o/r/o-r-master-presubmits.yaml", "jobs/o/r/o-r-master-presubmits.yaml",
          "jobs/o/r/o-r-x-presubmits.yaml"] ∧
      twinTree.plan FileTree.smallDir "o" "r" FileTree.twoJobs ≠
        planOf FileTree.smallDir "o" "r" FileTree.twoJobs twinFound.reverse := by
    decide +kernel
  have hp : twinFound.Perm twinFound.reverse := twinFound.reverse_perm.symm
  have ho : Path.IsPlain "o" := by decide
  have hr : Path.IsPlain "r" := by decide
  obtain ⟨hplan, hdelivered⟩ :=
    FileTree.plan_wellFormed ht ho hr FileTree.smallDir FileTree.twoJobs
  refine ⟨ht, hkeys, hpaths, hne, ?_⟩
  simp only [List.mem_cons, List.not_mem_nil, or_false, forall_eq_or_imp, forall_eq]
  exact ⟨hplan .inOrder, hdelivered _ hp⟩

end JobConfig
