import JobConfig.Proofs.Reconcile
import JobConfig.Proofs.Scan
import JobConfig.Proofs.Shard

/-!
# What a plan holds

The first file of a name takes the shard of that name. A plan settles every file that a scan finds
with the shard that it takes, and has a new file for every shard that none takes.
-/

namespace JobConfig

open FileTree (under Named)
open JobConfig.Path (isName)

/-- The first file of a name. -/
def firstNamed? (found : List (Identity × JobSet)) (n : String) : Option Path :=
  (found.find? fun e => shardName e.1.file = n).map (·.1.file)

/-- Whether no other file of the same name comes before a path. -/
def IsFirst (found : List (Identity × JobSet)) (p : Path) : Prop :=
  ∀ q ∈ firstNamed? found (shardName p), q = p

instance (found : List (Identity × JobSet)) (p : Path) : Decidable (IsFirst found p) := by
  unfold IsFirst
  infer_instance

/-- The shard that a file takes. -/
def takenShard? (shards : Shards) (found : List (Identity × JobSet)) (p : Path) : Option JobSet :=
  if IsFirst found p then shards.get? (shardName p) else none

/-- The file that receives a shard: the first one of its name, or a new one. -/
def receiver (dir : Path) (found : List (Identity × JobSet)) (n : String) : Path :=
  (firstNamed? found n).getD (dir.join (.ofString n))

theorem get?_of_takenShard? {shards : Shards} {found : List (Identity × JobSet)} {p : Path}
    {s : JobSet} (h : takenShard? shards found p = some s) :
    shards.get? (shardName p) = some s := by
  rw [takenShard?] at h
  split at h
  · exact h
  · cases h

theorem takenShard?_eq_none {shards : Shards} {p : Path} (h : shards.get? (shardName p) = none)
    (found : List (Identity × JobSet)) : takenShard? shards found p = none := by
  rw [takenShard?, h, ite_self]

/-! ### Found files and shards -/

section

variable {c : Considered} {found : List (Identity × JobSet)} {n : String}

theorem firstNamed?_cons (e : Identity × JobSet) (found : List (Identity × JobSet)) (n : String) :
    firstNamed? (e :: found) n =
      if shardName e.1.file = n then some e.1.file else firstNamed? found n := by
  rw [firstNamed?, List.find?_cons]
  by_cases hn : shardName e.1.file = n
  · simp [hn]
  · simp [hn, firstNamed?]

theorem firstNamed?_eq_none_iff :
    firstNamed? found n = none ↔ ∀ e ∈ found, shardName e.1.file ≠ n := by
  simp [firstNamed?, List.find?_eq_none]

theorem exists_of_firstNamed? {p : Path} (h : firstNamed? found n = some p) :
    ∃ e ∈ found, e.1.file = p ∧ shardName p = n := by
  obtain ⟨e, he, rfl⟩ := Option.map_eq_some_iff.1 h
  exact ⟨e, List.mem_of_find?_eq_some he, rfl, by simpa using List.find?_some he⟩

/-- What the first file leaves of the shards is enough for the others. -/
theorem takenShard?_erase {e : Identity × JobSet} {p : Path} (h : e.1.file ≠ p)
    (shards : Shards) : takenShard? (shards.erase (shardName e.1.file)) found p =
      takenShard? shards (e :: found) p := by
  simp only [takenShard?, KeyMap.get?_erase, IsFirst, firstNamed?_cons]
  by_cases hn : shardName e.1.file = shardName p
  · simp [hn, h]
  · simp [hn, Ne.symm hn]

theorem planFiles_cons (i : Identity) (old : JobSet) (shards : Shards) :
    planFiles c shards ((i, old) :: found) =
      (⟨i.file, settle c old (shards.get? (shardName i.file))⟩ ::
        (planFiles c (shards.erase (shardName i.file)) found).1,
      (planFiles c (shards.erase (shardName i.file)) found).2) := rfl

theorem planFiles_fst (h : (found.map (·.1.file)).Nodup) (shards : Shards) :
    (planFiles c shards found).1 =
      found.map fun e => ⟨e.1.file, settle c e.2 (takenShard? shards found e.1.file)⟩ := by
  -- the shards that are left change from file to file
  induction found generalizing shards with
  | nil => rfl
  | cons e found ih =>
    obtain ⟨i, old⟩ := e
    obtain ⟨he, hfound⟩ := List.nodup_cons.1 h
    have hfirst : IsFirst ((i, old) :: found) i.file := by simp [IsFirst, firstNamed?_cons]
    rw [planFiles_cons, ih hfound, List.map_cons, takenShard?, if_pos hfirst]
    refine congrArg (_ :: ·) (List.map_congr_left fun e' he' => ?_)
    rw [takenShard?_erase fun heq => he (List.mem_map.2 ⟨e', he', heq.symm⟩)]

theorem map_path_planFiles (c : Considered) (shards : Shards)
    (found : List (Identity × JobSet)) :
    (planFiles c shards found).1.map Planned.path = found.map fun e => e.1.file := by
  induction found generalizing shards with
  | nil => rfl
  | cons e found ih =>
    obtain ⟨i, old⟩ := e
    rw [planFiles_cons, List.map_cons, ih, List.map_cons]

theorem path_of_mem_planFiles {shards : Shards} {f : Planned}
    (h : f ∈ (planFiles c shards found).1) : ∃ e ∈ found, f.path = e.1.file := by
  have hp : f.path ∈ found.map fun e => e.1.file := by
    rw [← map_path_planFiles c shards]
    exact List.mem_map_of_mem h
  obtain ⟨e, he, hp⟩ := List.mem_map.1 hp
  exact ⟨e, he, hp.symm⟩

theorem get?_planFiles_snd (found : List (Identity × JobSet)) (shards : Shards) (n : String) :
    (planFiles c shards found).2.get? n =
      if ∃ e ∈ found, shardName e.1.file = n then none else shards.get? n := by
  induction found generalizing shards with
  | nil => simp [planFiles]
  | cons e found ih =>
    obtain ⟨i, old⟩ := e
    rw [planFiles_cons, ih, KeyMap.get?_erase]
    simp only [List.exists_mem_cons_iff]
    by_cases hn : n = shardName i.file
    · simp [hn]
    · simp only [Ne.symm hn, false_or, if_neg hn]

end

/-! ### Plans -/

section

variable {t : FileTree} {jobDir : Path} {org repo : String} {generated : JobSet} {scan : Scanner}
  {f : Planned}

/-- A scan hands over what a walk finds, in some order. -/
theorem found_perm (t : FileTree) (dir : Path) (scan : Scanner) :
    (t.found dir scan).Perm (t.found dir) := by
  unfold FileTree.found
  split
  · exact scan.perm t dir
  · exact .refl _

/-- In the order of a walk the files are in the order of their paths, whatever links there are. -/
theorem found_increasing (t : FileTree) (dir : Path) : (t.found dir).Pairwise fun a b =>
    compare a.1.file.sortKey b.1.file.sortKey = .lt := by
  unfold FileTree.found
  split
  · exact t.loaded_increasing dir
  · exact .nil

/-- No path is found twice, whatever links there are. -/
theorem nodup_files_found (t : FileTree) (dir : Path) (scan : Scanner) :
    ((t.found dir scan).map (·.1.file)).Nodup := by
  refine ((found_perm t dir scan).map _).nodup_iff.2 (List.pairwise_map.2 ?_)
  refine (found_increasing t dir).imp fun {a b} hab heq => ?_
  simp only [heq, Std.ReflOrd.compare_self] at hab
  cases hab

theorem mem_found_iff_inOrder {dir : Path} {e : Identity × JobSet} :
    e ∈ t.found dir scan ↔ e ∈ t.found dir :=
  (found_perm t dir scan).mem_iff

theorem mem_found_iff_mem_loaded {dir : Path} {e : Identity × JobSet} :
    e ∈ t.found dir scan ↔ t.isDirectory dir = true ∧ e ∈ t.loaded dir := by
  rw [FileTree.found]
  split
  · rename_i hd
    rw [(scan.perm t dir).mem_iff, and_iff_right hd]
  · rename_i hd
    simp [hd]

/-- What is found holds what its path leads to, whatever links there are. -/
theorem load_of_mem_found {dir : Path} {e : Identity × JobSet} (h : e ∈ t.found dir scan) :
    t.load e.1.file = .ok e.2 := by
  obtain ⟨i, -, hi⟩ := List.mem_filterMap.1 (mem_found_iff_mem_loaded.1 h).2
  obtain ⟨s, hs, rfl⟩ := Option.map_eq_some_iff.1 hi
  exact toOption_eq_some_iff.1 hs

theorem mem_found {dir : Path} {e : Identity × JobSet} (ht : t.LinkFree) :
    e ∈ t.found dir scan ↔ t.isDirectory dir = true ∧ ∃ names, names ≠ [] ∧
      t.Loads (dir.place ++ names) e.2 ∧ Identity.ofJobFile? (under dir names) = some e.1 := by
  rw [mem_found_iff_mem_loaded]
  exact and_congr_right fun hd => FileTree.mem_loaded ht hd

/-- What is planned: files that are found, and the shards that none of them takes. -/
theorem mem_plan_iff : f ∈ t.plan jobDir org repo generated scan ↔
    f ∈ (planFiles (generated.considered org repo) (generated.shards org repo)
      (t.found (repoDir jobDir org repo) scan)).1 ∨
    ∃ n s, (generated.shards org repo).get? n = some s ∧
      (∀ e ∈ t.found (repoDir jobDir org repo) scan, shardName e.1.file ≠ n) ∧
      f = ⟨(repoDir jobDir org repo).join (.ofString n), s.prune.sort⟩ := by
  rw [FileTree.plan, planOf, mem_sortBy, List.mem_append]
  refine or_congr_right ?_
  simp only [List.mem_map, Prod.exists, KeyMap.mem_entries_iff, get?_planFiles_snd,
    Option.ite_none_left_eq_some]
  constructor
  · rintro ⟨n, s, ⟨hn, hs⟩, rfl⟩
    exact ⟨n, s, hs, fun e he h => hn ⟨e.1, e.2, he, h⟩, rfl⟩
  · rintro ⟨n, s, hs, hn, rfl⟩
    exact ⟨n, s, ⟨fun ⟨i, s', he, h⟩ => hn (i, s') he h, hs⟩, rfl⟩

/-- Each found file is planned with the shard that it takes, whatever links there are. -/
theorem mem_plan : f ∈ t.plan jobDir org repo generated scan ↔
    (∃ e ∈ t.found (repoDir jobDir org repo) scan,
      f = ⟨e.1.file, settle (generated.considered org repo) e.2
        (takenShard? (generated.shards org repo) (t.found (repoDir jobDir org repo) scan)
          e.1.file)⟩) ∨
    ∃ n s, (generated.shards org repo).get? n = some s ∧
      (∀ e ∈ t.found (repoDir jobDir org repo) scan, shardName e.1.file ≠ n) ∧
      f = ⟨(repoDir jobDir org repo).join (.ofString n), s.prune.sort⟩ := by
  rw [mem_plan_iff, planFiles_fst (nodup_files_found t _ scan)]
  refine or_congr_left ?_
  simp only [List.mem_map, eq_comm]

/-- Files are planned for the same paths whatever the order is in which they are handed over. -/
theorem exists_path_eq_of_mem_plan (hf : f ∈ t.plan jobDir org repo generated scan)
    (scan' : Scanner) : ∃ f' ∈ t.plan jobDir org repo generated scan', f'.path = f.path := by
  have hfound : ∀ e, e ∈ t.found (repoDir jobDir org repo) scan ↔
      e ∈ t.found (repoDir jobDir org repo) scan' := fun e =>
    mem_found_iff_inOrder.trans mem_found_iff_inOrder.symm
  rcases mem_plan.1 hf with ⟨e, he, rfl⟩ | ⟨n, s, hs, hno, rfl⟩
  · exact ⟨_, mem_plan.2 (.inl ⟨e, (hfound e).1 he, rfl⟩), rfl⟩
  · exact ⟨_, mem_plan.2 (.inr ⟨n, s, hs, fun e he => hno e ((hfound e).2 he), rfl⟩), rfl⟩

theorem mem_plan_of_mem_found {e : Identity × JobSet}
    (he : e ∈ t.found (repoDir jobDir org repo) scan) (generated : JobSet) :
    ⟨e.1.file, settle (generated.considered org repo) e.2
      (takenShard? (generated.shards org repo) (t.found (repoDir jobDir org repo) scan) e.1.file)⟩ ∈
        t.plan jobDir org repo generated scan :=
  mem_plan.2 (.inl ⟨e, he, rfl⟩)

theorem mem_plan_of_shard {n : String} {s : JobSet}
    (hs : (generated.shards org repo).get? n = some s)
    (hno : ∀ e ∈ t.found (repoDir jobDir org repo) scan, shardName e.1.file ≠ n) :
    ⟨(repoDir jobDir org repo).join (.ofString n), s.prune.sort⟩ ∈
      t.plan jobDir org repo generated scan :=
  mem_plan.2 (.inr ⟨n, s, hs, hno, rfl⟩)

end

/-! ### Planned paths -/

theorem shardName_join {name : String} (h : Path.IsPlain name) (p : Path) :
    shardName (p.join (.ofString name)) = name := by
  rw [shardName, Path.ofString, Path.fileName?_join (Path.isName_encode.2 h)]
  simp

theorem FileTree.Loads.eq {t : FileTree} {l : Location} {s s' : JobSet} (h : t.Loads l s)
    (h' : t.Loads l s') : s = s' := by
  obtain ⟨c, hc, hs⟩ := h
  obtain ⟨c', hc', hs'⟩ := h'
  rw [hc, Option.some.injEq] at hc'
  rw [← hc', hs, Except.ok.injEq] at hs'
  exact hs'

theorem FileTree.Loads.named {t : FileTree} {l names : Location} {s : JobSet} (hn : names ≠ [])
    (h : t.Loads (l ++ names) s) : Named names := by
  obtain ⟨c, hc, -⟩ := h
  exact (FileTree.directory_of_get?_append (FileTree.fileAt?_eq_some_iff.1 hc) hn).1

/-- A found file and the names that lead to it. -/
theorem names_of_mem_found {t : FileTree} {dir : Path} {scan : Scanner} {e : Identity × JobSet}
    (ht : t.LinkFree) (h : e ∈ t.found dir scan) :
    ∃ names, names ≠ [] ∧ Named names ∧ e.1.file = under dir names ∧
      e.1.file.place = dir.place ++ names ∧ t.Loads e.1.file.place e.2 ∧
      t.Reaches e.1.file ∧ Identity.ofJobFile? e.1.file = some e.1 := by
  obtain ⟨hd, names, hn, hs, hi⟩ := (mem_found ht).1 h
  have hnames := hs.named hn
  obtain ⟨c, hc, -⟩ := id hs
  have hr := FileTree.reaches_under ht hd hn (FileTree.fileAt?_eq_some_iff.1 hc)
  rw [(Identity.file_of_ofJobFile? hi).1, FileTree.place_under hnames]
  exact ⟨names, hn, hnames, rfl, rfl, hs, hr, hi⟩

theorem eq_of_mem_found {t : FileTree} {dir : Path} {scan : Scanner} {e e' : Identity × JobSet}
    (ht : t.LinkFree) (h : e ∈ t.found dir scan) (h' : e' ∈ t.found dir scan)
    (hp : e.1.file.place = e'.1.file.place) : e = e' := by
  obtain ⟨names, -, -, hf, hl, hs, -, hi⟩ := names_of_mem_found ht h
  obtain ⟨names', -, -, hf', hl', hs', -, hi'⟩ := names_of_mem_found ht h'
  have hnames : names = names' := List.append_cancel_left (by rw [← hl, hp, hl'])
  have hfile : e.1.file = e'.1.file := by rw [hf, hf', hnames]
  rw [hfile, hi', Option.some.injEq] at hi
  rw [hfile] at hs
  exact Prod.ext hi.symm (hs.eq hs')

section Paths

variable {t : FileTree} {jobDir : Path} {org repo : String} {generated s : JobSet} {n : String}
  {scan : Scanner} {f f' : Planned}

theorem isPlain_of_get?_shards (ho : Path.IsPlain org) (hr : Path.IsPlain repo)
    (h : (generated.shards org repo).get? n = some s) : Path.IsPlain n := by
  obtain ⟨label, kind, rfl, hl⟩ := (isShard_of_get? h).isFileName
  exact isPlain_fileName ho.2.1 hr.2.1 hl kind

/-- The new file of a shard is a job file. -/
theorem ofJobFile?_of_get?_shards (ho : Path.IsPlain org) (hr : Path.IsPlain repo)
    (h : (generated.shards org repo).get? n = some s) (jobDir : Path) :
    ∃ i, Identity.ofJobFile? ((repoDir jobDir org repo).join (.ofString n)) = some i := by
  obtain ⟨label, kind, rfl, hl⟩ := (isShard_of_get? h).isFileName
  exact ⟨_, Identity.ofJobFile?_fileName ho hr hl kind jobDir⟩

/-- The path of a planned file leads to a place below the directory and is that of a job file. -/
theorem path_of_mem_plan (ht : t.LinkFree) (ho : Path.IsPlain org) (hr : Path.IsPlain repo)
    (hd : t.isDirectory (repoDir jobDir org repo) = true)
    (hf : f ∈ t.plan jobDir org repo generated scan) :
    ∃ names, names ≠ [] ∧ Named names ∧ f.path = under (repoDir jobDir org repo) names ∧
      t.Reaches f.path ∧ ∃ i, Identity.ofJobFile? f.path = some i := by
  rcases mem_plan.1 hf with ⟨e, he, rfl⟩ | ⟨n, s, hs, -, rfl⟩
  · obtain ⟨names, hn, hnames, hfile, -, -, hreach, hi⟩ := names_of_mem_found ht he
    exact ⟨names, hn, hnames, hfile, hreach, e.1, hi⟩
  · have hname := Path.isName_encode.2 (isPlain_of_get?_shards ho hr hs)
    exact ⟨[_], by simp, by simpa [Named] using hname, rfl, ⟨_, _, rfl, hname, hd⟩,
      ofJobFile?_of_get?_shards ho hr hs jobDir⟩

/-- No two files are planned for one place. -/
theorem eq_of_mem_plan (ht : t.LinkFree) (ho : Path.IsPlain org) (hr : Path.IsPlain repo)
    (hf : f ∈ t.plan jobDir org repo generated scan)
    (hf' : f' ∈ t.plan jobDir org repo generated scan) (hp : f.path.place = f'.path.place) :
    f = f' := by
  have hfresh : ∀ {e : Identity × JobSet} {n : String}, e ∈ t.found (repoDir jobDir org repo) scan →
      Path.IsPlain n → e.1.file.place = ((repoDir jobDir org repo).join (.ofString n)).place →
      shardName e.1.file = n := by
    intro e n he hn hp
    obtain ⟨names, -, -, hfile, hl, -⟩ := names_of_mem_found ht he
    have hnames : names = [Utf8.encode n] := by
      rw [hl, Path.ofString, Path.place_join (Path.isName_encode.2 hn)] at hp
      exact List.append_cancel_left hp
    rw [hfile, hnames]
    exact shardName_join hn _
  rcases mem_plan.1 hf with ⟨e, he, rfl⟩ | ⟨n, s, hs, hn, rfl⟩ <;>
    rcases mem_plan.1 hf' with ⟨e', he', rfl⟩ | ⟨n', s', hs', hn', rfl⟩
  · rw [eq_of_mem_found ht he he' hp]
  · exact absurd (hfresh he (isPlain_of_get?_shards ho hr hs') hp) (hn' e he)
  · exact absurd (hfresh he' (isPlain_of_get?_shards ho hr hs) hp.symm) (hn e' he')
  · rw [Path.ofString, Path.ofString,
      Path.place_join (Path.isName_encode.2 (isPlain_of_get?_shards ho hr hs)),
      Path.place_join (Path.isName_encode.2 (isPlain_of_get?_shards ho hr hs'))] at hp
    have hnn : n = n' := Utf8.encode_inj.1 (by simpa using hp)
    subst hnn
    rw [hs, Option.some.injEq] at hs'
    rw [hs']

/-- No path is found twice, whatever links there are. -/
theorem eq_of_file_eq {dir : Path} {e e' : Identity × JobSet} (he : e ∈ t.found dir scan)
    (he' : e' ∈ t.found dir scan) (h : e.1.file = e'.1.file) : e = e' :=
  List.inj_on_of_nodup_map (nodup_files_found t dir scan) he he' h

/-- No path is planned twice, whatever links there are. -/
theorem eq_of_path_eq (ho : Path.IsPlain org) (hr : Path.IsPlain repo)
    (hf : f ∈ t.plan jobDir org repo generated scan)
    (hf' : f' ∈ t.plan jobDir org repo generated scan) (hp : f.path = f'.path) : f = f' := by
  have hname : ∀ {n : String} {s : JobSet}, (generated.shards org repo).get? n = some s →
      shardName ((repoDir jobDir org repo).join (.ofString n)) = n := fun hs =>
    shardName_join (isPlain_of_get?_shards ho hr hs) _
  rcases mem_plan.1 hf with ⟨e, he, rfl⟩ | ⟨n, s, hs, hno, rfl⟩ <;>
    rcases mem_plan.1 hf' with ⟨e', he', rfl⟩ | ⟨n', s', hs', hno', rfl⟩
  · rw [eq_of_file_eq he he' hp]
  · exact absurd ((congrArg shardName hp).trans (hname hs')) (hno' e he)
  · exact absurd ((congrArg shardName hp).symm.trans (hname hs)) (hno e' he')
  · have hnn : n = n' := (hname hs).symm.trans ((congrArg shardName hp).trans (hname hs'))
    subst hnn
    rw [hs, Option.some.injEq] at hs'
    rw [hs']

theorem names_of_sortKey_under {p : Path} {names names' : Location} (hn : Named names)
    (hn' : Named names') (h : (under p names).sortKey = (under p names').sortKey) :
    names = names' := by
  rw [FileTree.sortKey_under hn, FileTree.sortKey_under hn', List.append_cancel_left_eq] at h
  exact List.map_injective_iff.2 (fun a b hab => (List.cons.inj hab).2) h

/-- A plan is in the order of its paths, and has no path twice. -/
theorem plan_increasing (ht : t.LinkFree) (ho : Path.IsPlain org) (hr : Path.IsPlain repo) :
    (t.plan jobDir org repo generated scan).Pairwise fun f g =>
      compare f.path.sortKey g.path.sortKey = .lt := by
  have hleft : ∀ e ∈ ((planFiles (generated.considered org repo) (generated.shards org repo)
      (t.found (repoDir jobDir org repo) scan)).2.entries), Path.IsPlain e.1 ∧
        ∀ e' ∈ t.found (repoDir jobDir org repo) scan, shardName e'.1.file ≠ e.1 := by
    intro e he
    rw [KeyMap.mem_entries_iff, get?_planFiles_snd, Option.ite_none_left_eq_some] at he
    exact ⟨isPlain_of_get?_shards ho hr he.2, fun e' he' hn => he.1 ⟨e', he', hn⟩⟩
  have hnamed : ∀ {n : String}, Path.IsPlain n → Named [Utf8.encode n] := fun hn => by
    simpa [Named] using Path.isName_encode.2 hn
  refine increasing_sortBy (List.pairwise_append.2 ⟨?_, ?_, ?_⟩)
  · -- no path is found twice
    rw [planFiles_fst (nodup_files_found t _ scan)]
    refine List.pairwise_map.2 ((List.pairwise_map.1 (nodup_files_found t _ scan)).imp_of_mem
      fun {a b} ha hb hne heq => hne ?_)
    obtain ⟨names, -, hnames, hfile, -⟩ := names_of_mem_found ht ha
    obtain ⟨names', -, hnames', hfile', -⟩ := names_of_mem_found ht hb
    simp only [hfile, hfile'] at heq ⊢
    rw [names_of_sortKey_under hnames hnames' heq]
  · -- the names of the shards that are left differ
    refine List.pairwise_map.2 ((KeyMap.increasing _).imp_of_mem fun {a b} ha hb hab heq => ?_)
    have hnames := names_of_sortKey_under (hnamed (hleft a ha).1) (hnamed (hleft b hb).1) heq
    have hab' : a.1 = b.1 := Utf8.encode_inj.1 (by simpa using hnames)
    simp [hab'] at hab
  · -- and no file that is found has one of them
    intro f hf g hg heq
    obtain ⟨e, he, hp⟩ := path_of_mem_planFiles hf
    obtain ⟨e', he', rfl⟩ := List.mem_map.1 hg
    obtain ⟨names, -, hnames, hfile, -⟩ := names_of_mem_found ht he
    rw [hp, hfile] at heq
    have h := names_of_sortKey_under hnames (hnamed (hleft e' he').1) heq
    refine (hleft e' he').2 e he ?_
    rw [hfile, h]
    exact shardName_join (hleft e' he').1 _

end Paths

/-! ### Who takes a shard -/

section Taker

variable {t : FileTree} {jobDir : Path} {org repo : String} {generated s : JobSet} {n : String}
  {scan : Scanner} {found : List (Identity × JobSet)}

/-- Of the files of a name there is a first one, which receives the shard of the name. -/
theorem exists_isFirst {e : Identity × JobSet} (he : e ∈ found) (dir : Path) :
    ∃ e' ∈ found, shardName e'.1.file = shardName e.1.file ∧
      receiver dir found (shardName e.1.file) = e'.1.file ∧ IsFirst found e'.1.file := by
  cases hp : firstNamed? found (shardName e.1.file) with
  | none => exact absurd rfl (firstNamed?_eq_none_iff.1 hp e he)
  | some p =>
    obtain ⟨e', he', rfl, hn⟩ := exists_of_firstNamed? hp
    refine ⟨e', he', hn, by rw [receiver, hp, Option.getD_some], fun q hq => ?_⟩
    rw [hn, hp] at hq
    exact (Option.some.inj hq).symm

/-- No two files of a name are the first one. -/
theorem IsFirst.eq {e e' : Identity × JobSet} (hf : IsFirst found e.1.file)
    (hf' : IsFirst found e'.1.file) (he : e ∈ found)
    (hn : shardName e'.1.file = shardName e.1.file) : e'.1.file = e.1.file := by
  obtain ⟨q, hq⟩ : ∃ q, firstNamed? found (shardName e.1.file) = some q := by
    rw [← Option.ne_none_iff_exists', Ne, firstNamed?_eq_none_iff]
    exact fun h => h e he rfl
  rw [← hf q hq, ← hf' q (by rw [hn]; exact hq)]

/-- A file that is found is the first one of its name if it is the one that receives the shard. -/
theorem isFirst_iff_receiver {e : Identity × JobSet} (he : e ∈ found) (dir : Path) :
    IsFirst found e.1.file ↔ receiver dir found (shardName e.1.file) = e.1.file := by
  obtain ⟨e', he', hn, hreceiver, hfirst⟩ := exists_isFirst he dir
  rw [hreceiver]
  constructor
  · intro hf
    exact hf.eq hfirst he hn
  · intro h
    rwa [← h]

theorem receiver_of_not_found (dir : Path) (h : ∀ e ∈ found, shardName e.1.file ≠ n) :
    receiver dir found n = dir.join (.ofString n) := by
  rw [receiver, firstNamed?_eq_none_iff.2 h, Option.getD_none]

/-- What a file holds that takes no shard. -/
def IsLeft (generated : JobSet) (org repo : String) (found : List (Identity × JobSet))
    (f : Planned) : Prop :=
  ∃ e ∈ found, f = ⟨e.1.file, settle (generated.considered org repo) e.2 none⟩

/-- Each shard goes to one of the planned files of its name; the others are settled without a
shard. -/
theorem exists_taker (ho : Path.IsPlain org) (hr : Path.IsPlain repo)
    (hs : (generated.shards org repo).get? n = some s) (hd : s.Distinct) :
    ∃ f ∈ t.plan jobDir org repo generated scan, shardName f.path = n ∧
      f.path = receiver (repoDir jobDir org repo) (t.found (repoDir jobDir org repo) scan) n ∧
      (∃ old, (old = ∅ ∨ ∃ i, (i, old) ∈ t.found (repoDir jobDir org repo) scan) ∧
        f.jobs = settle (generated.considered org repo) old (some s)) ∧
      ∀ f' ∈ t.plan jobDir org repo generated scan, shardName f'.path = n → f' ≠ f →
        IsLeft generated org repo (t.found (repoDir jobDir org repo) scan) f' := by
  by_cases htaken : ∃ e ∈ t.found (repoDir jobDir org repo) scan, shardName e.1.file = n
  · obtain ⟨e₀, he₀, hn₀⟩ := htaken
    obtain ⟨e, he, hn, hreceiver, hfirst⟩ := exists_isFirst he₀ (repoDir jobDir org repo)
    rw [hn₀] at hn hreceiver
    refine ⟨_, mem_plan_of_mem_found he generated, hn, hreceiver.symm,
      ⟨e.2, .inr ⟨e.1, he⟩, ?_⟩, fun f' hf' hn' hne => ?_⟩
    · rw [takenShard?, if_pos hfirst, hn, hs]
    · rcases mem_plan.1 hf' with ⟨e', he', rfl⟩ | ⟨n', s', hs', hno, rfl⟩
      · have hfile : e'.1.file ≠ e.1.file := fun h => hne (by rw [eq_of_file_eq he' he h])
        refine ⟨e', he', ?_⟩
        rw [takenShard?, if_neg fun hf => hfile (hfirst.eq hf he (hn'.trans hn.symm))]
      · rw [shardName_join (isPlain_of_get?_shards ho hr hs')] at hn'
        exact absurd (hn.trans hn'.symm) (hno e he)
  · -- a new file is made, which is as if the shard were merged into no jobs
    simp only [not_exists, not_and] at htaken
    have hname := shardName_join (isPlain_of_get?_shards ho hr hs) (repoDir jobDir org repo)
    refine ⟨_, mem_plan_of_shard hs htaken, hname, (receiver_of_not_found _ htaken).symm,
      ⟨∅, .inl rfl, (settle_empty hd).symm⟩, fun f' hf' hn' hne => ?_⟩
    rcases mem_plan.1 hf' with ⟨e', he', rfl⟩ | ⟨n', s', hs', -, rfl⟩
    · exact absurd hn' (htaken e' he')
    · rw [shardName_join (isPlain_of_get?_shards ho hr hs')] at hn'
      subst hn'
      rw [hs, Option.some.injEq] at hs'
      exact absurd (by rw [hs']) hne

/-- Without a shard of their name files are settled without one. -/
theorem isLeft_of_get?_eq_none (ho : Path.IsPlain org) (hr : Path.IsPlain repo)
    {f : Planned} (hf : f ∈ t.plan jobDir org repo generated scan)
    (hs : (generated.shards org repo).get? (shardName f.path) = none) :
    IsLeft generated org repo (t.found (repoDir jobDir org repo) scan) f := by
  rcases mem_plan.1 hf with ⟨e, he, rfl⟩ | ⟨n, s, hs', -, rfl⟩
  · refine ⟨e, he, ?_⟩
    rw [takenShard?_eq_none hs]
  · rw [shardName_join (isPlain_of_get?_shards ho hr hs'), hs'] at hs
    cases hs

/-- Every planned file is settled in some way. -/
theorem exists_settle {f : Planned}
    (hf : f ∈ t.plan jobDir org repo generated scan) :
    ∃ old shard?, f.jobs = settle (generated.considered org repo) old shard? := by
  rcases mem_plan.1 hf with ⟨e, -, rfl⟩ | ⟨n, s, -, -, rfl⟩
  · exact ⟨_, _, rfl⟩
  · exact ⟨s, none, rfl⟩

end Taker

end JobConfig
