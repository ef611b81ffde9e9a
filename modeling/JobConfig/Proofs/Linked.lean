import JobConfig.Proofs.HandAuthored

/-!
# Files behind links

A plan asks for the directory of a repository through links, and a file is loaded through links, but
a walk does not enter a directory whose path ends at a link. So the file of a shard is merged with
the shard if it can be loaded, wherever links lead to it, unless the directory itself is a link:
there it is overwritten.
-/

namespace JobConfig

open JobConfig.Path (isName)

namespace FileTree

variable {t : FileTree} {dir p : Path} {k : Location} {n : Bytes} {c : Bytes}

/-! ### Finding what can be loaded -/

/-- Whether a path ends at a link. -/
def isLink (t : FileTree) (p : Path) : Bool :=
  match t.lookup false p with
  | .ok (_, .link _) => true
  | _ => false

theorem isLink_of_resolve {l : Location} {target : Path}
    (h : t.resolve false p = .ok (.at l (.link target))) : t.isLink p = true := by
  rw [isLink, lookup, h]

theorem resolve_false_of_isLink (h : t.resolve true p = .ok (.at k .directory))
    (hl : t.isLink p = false) : t.resolve false p = .ok (.at k .directory) := by
  refine (resolve_false_of_directory h).resolve_right ?_
  rintro ⟨j, target, hj⟩
  rw [isLink_of_resolve hj] at hl
  cases hl

theorem loaded_eq_nil_of_isLink (h : t.resolve true p = .ok (.at k .directory))
    (hl : t.isLink p = true) : t.loaded p = [] := by
  rcases resolve_false_of_directory h with hd | ⟨j, target, hj⟩
  · rw [isLink, lookup, hd] at hl
    cases hl
  · exact loaded_eq_nil_of_link h hj

theorem resolve_of_readFile (h : t.readFile p = .ok c) :
    ∃ l, t.resolve true p = .ok (.at l (.file c)) := by
  rw [readFile, lookup] at h
  split at h
  · rename_i l c' hl
    split at hl <;> cases hl
    cases h
    exact ⟨l, by assumption⟩
  · cases h
  · cases h

theorem readFile_of_load {s : JobSet} (h : t.load p = .ok s) : ∃ c, t.readFile p = .ok c := by
  rw [load] at h
  split at h
  · cases h
  · exact ⟨_, by assumption⟩

/-- A file that can be read by its name in a directory is an entry of the directory, or what a link
of that name leads to. -/
theorem get?_of_readFile_join (hn : isName n = true)
    (hd : t.resolve true dir = .ok (.at k .directory)) (h : t.readFile (dir.join ⟨n⟩) = .ok c) :
    ∃ e, t.get? (k ++ [n]) = some e ∧ e ≠ .directory := by
  obtain ⟨l, hl⟩ := resolve_of_readFile h
  cases hno : t.linkAt? (k ++ [n]) with
  | some target => exact ⟨_, linkAt?_eq_some_iff.1 hno, by simp⟩
  | none =>
    rw [resolve_join_directory hn hd hno true, spot] at hl
    cases hg : t.get? (k ++ [n]) with
    | none =>
      rw [hg] at hl
      cases hl
    | some e =>
      rw [hg] at hl
      cases hl
      exact ⟨.file c, rfl, by simp⟩

/-- A job file that can be loaded is found, unless the path of its directory ends at a link. -/
theorem mem_loaded_of_load {i : Identity} {s : JobSet} (hn : isName n = true)
    (hd : t.resolve true dir = .ok (.at k .directory)) (hlink : t.isLink dir = false)
    (hi : Identity.ofJobFile? (dir.join ⟨n⟩) = some i) (hs : t.load (dir.join ⟨n⟩) = .ok s) :
    (i, s) ∈ t.loaded dir := by
  obtain ⟨c, hc⟩ := readFile_of_load hs
  obtain ⟨e, he, hne⟩ := get?_of_readFile_join hn hd hc
  have hfile : dir.join ⟨n⟩ ∈ t.files dir :=
    (mem_files_iff (resolve_false_of_isLink hd hlink)).2 ⟨[n], e, by simp, he, hne, rfl⟩
  refine List.mem_filterMap.2 ⟨i, List.mem_filterMap.2 ⟨_, hfile, hi⟩, ?_⟩
  rw [(Identity.file_of_ofJobFile? hi).1, hs]
  rfl

/-! ### Planning it -/

section

variable {jobDir : Path} {org repo file : String} {generated shard s : JobSet}

theorem directory_of_load (ho : Path.IsPlain org) (hr : Path.IsPlain repo)
    (hshard : (generated.shards org repo).get? file = some shard)
    (hs : t.load ((repoDir jobDir org repo).join (.ofString file)) = .ok s) :
    ∃ k, t.resolve true (repoDir jobDir org repo) = .ok (.at k .directory) := by
  obtain ⟨c, hc⟩ := readFile_of_load hs
  obtain ⟨l, hl⟩ := resolve_of_readFile hc
  have hn : isName (Path.ofString file).bytes = true :=
    Path.isName_encode.2 (isPlain_of_get?_shards ho hr hshard)
  exact directory_of_resolve_join hn (Path.join_bytes_ne_nil (Path.isName_encode.2 hr) _) hl

/-- The file of a shard is found if it can be loaded, unless the path of its directory ends at a
link. -/
theorem mem_found_of_load (ho : Path.IsPlain org) (hr : Path.IsPlain repo)
    (hshard : (generated.shards org repo).get? file = some shard)
    (hs : t.load ((repoDir jobDir org repo).join (.ofString file)) = .ok s)
    (hlink : t.isLink (repoDir jobDir org repo) = false) (scan : Scanner) :
    ∃ i, i.file = (repoDir jobDir org repo).join (.ofString file) ∧
      (i, s) ∈ t.found (repoDir jobDir org repo) scan := by
  obtain ⟨k, hk⟩ := directory_of_load ho hr hshard hs
  obtain ⟨i, hi⟩ := ofJobFile?_of_get?_shards ho hr hshard jobDir
  refine ⟨i, (Identity.file_of_ofJobFile? hi).1, ?_⟩
  exact mem_found_iff_mem_loaded.2 ⟨isDirectory_iff.2 ⟨k, hk⟩,
    mem_loaded_of_load (Path.isName_encode.2 (isPlain_of_get?_shards ho hr hshard)) hk hlink hi hs⟩

/-- The file of a shard that can be loaded is planned once. If the path of the directory ends at a
link, the shard alone is planned. If not, the last job of a name stays where it has no marker and
the name is not generated for its kind. -/
theorem plan_of_load (ho : Path.IsPlain org) (hr : Path.IsPlain repo)
    (hshard : (generated.shards org repo).get? file = some shard)
    (hs : t.load ((repoDir jobDir org repo).join (.ofString file)) = .ok s) (scan : Scanner) :
    ∃ f ∈ t.plan jobDir org repo generated scan,
      f.path = (repoDir jobDir org repo).join (.ofString file) ∧
      (∀ f' ∈ t.plan jobDir org repo generated scan, f'.path = f.path → f' = f) ∧
      if t.isLink (repoDir jobDir org repo) then f.jobs = shard.prune.sort
      else ∀ g m o, lastNamed m (s.jobs g) = some o → (JobLike.toJob o).marker? = none →
        ¬generated.Generates org repo g.kind m →
          lastNamed m (f.jobs.jobs g) = some (modifyJob Job.sortSpec o) := by
  have hunique : ∀ f ∈ t.plan jobDir org repo generated scan,
      ∀ f' ∈ t.plan jobDir org repo generated scan, f'.path = f.path → f' = f :=
    fun f hf f' hf' hp => eq_of_path_eq ho hr hf' hf hp
  cases hlink : t.isLink (repoDir jobDir org repo) with
  | true =>
    -- nothing is found, so that the shard goes to a new file
    obtain ⟨k, hk⟩ := directory_of_load ho hr hshard hs
    have hno : ∀ e ∈ t.found (repoDir jobDir org repo) scan, shardName e.1.file ≠ file := by
      intro e he
      rw [mem_found_iff_mem_loaded, loaded_eq_nil_of_isLink hk hlink] at he
      cases he.2
    have hf := mem_plan_of_shard hshard hno
    exact ⟨_, hf, rfl, hunique _ hf, by rw [if_pos rfl]⟩
  | false =>
    obtain ⟨i, hi, he⟩ := mem_found_of_load ho hr hshard hs hlink scan
    have hf := mem_plan_of_mem_found he generated
    refine ⟨_, hf, hi, hunique _ hf, ?_⟩
    rw [if_neg (by simp)]
    exact fun g m o ho hm hgen => lastNamed_settle_handAuthored ho hm hgen _ _

end

/-- A tree in which the file of a shard is a link to a file beside it. -/
def aliasTree : FileTree :=
  (smallTree [("hand.yaml", "presubmits:\n  o/r:\n  - name: b\n")]).put
    (["jobs", "o", "r", "o-r-master-presubmits.yaml"].map Utf8.encode)
    (.link (.ofString "hand.yaml"))

set_option maxRecDepth 100000 in
/-- The file behind the link is merged with the shard. -/
theorem plan_of_load_aliasTree :
    ∃ f ∈ aliasTree.plan smallDir "o" "r" (smallJobs Job.newlyGenerated),
      f.path = smallPath "o-r-master-presubmits.yaml" ∧
      lastNamed "b" (f.jobs.jobs (.presubmits "o/r")) =
        some (modifyJob Job.sortSpec ({ name := "b" } : Presubmit)) := by
  have hshard : ∃ shard, ((smallJobs Job.newlyGenerated).shards "o" "r").get?
      "o-r-master-presubmits.yaml" = some shard :=
    Option.isSome_iff_exists.1 (by decide +kernel)
  have hs : (aliasTree.load (smallPath "o-r-master-presubmits.yaml")).toOption = some handJobs := by
    decide +kernel
  have hlink : aliasTree.isLink (repoDir smallDir "o" "r") = false := by decide +kernel
  have hn : ¬(smallJobs Job.newlyGenerated).Generates "o" "r" .presubmit "b" := by decide +kernel
  have hb : lastNamed "b" (handJobs.jobs (.presubmits "o/r")) =
      some ({ name := "b" } : Presubmit) := by decide +kernel
  obtain ⟨shard, hshard⟩ := hshard
  obtain ⟨f, hf, hp, -, hkept⟩ := plan_of_load (t := aliasTree) (by decide) (by decide) hshard
    (toOption_eq_some_iff.1 hs) .inOrder
  rw [hlink] at hkept
  exact ⟨f, hf, hp, hkept (.presubmits "o/r") "b" _ hb rfl hn⟩

/-- A tree in which the directory of a repository is a link to another directory. -/
def behindTree : FileTree :=
  let place (names : List String) : Location := names.map Utf8.encode
  ((((((∅ : FileTree).put (place ["real"]) .directory).put
    (place ["real", "o-r-master-presubmits.yaml"])
      (.file (Utf8.encode "presubmits:\n  o/r:\n  - name: b\n"))).put
    (place ["jobs"]) .directory).put (place ["jobs", "o"]) .directory).put
    (place ["jobs", "o", "r"]) (.link (.ofString "../../real")))

set_option maxRecDepth 100000 in
/-- The file behind the directory can be loaded, but what it holds is not planned. -/
theorem plan_loses_behindTree :
    (behindTree.load (smallPath "o-r-master-presubmits.yaml")).toOption = some handJobs ∧
    (∃ shard, ((smallJobs Job.newlyGenerated).shards "o" "r").get?
      "o-r-master-presubmits.yaml" = some shard) ∧
    lastNamed "b" (handJobs.jobs (.presubmits "o/r")) = some ({ name := "b" } : Presubmit) ∧
    ({ name := "b" } : Job).marker? = none ∧
    ¬(smallJobs Job.newlyGenerated).Generates "o" "r" .presubmit "b" ∧
    ∀ f ∈ behindTree.plan smallDir "o" "r" (smallJobs Job.newlyGenerated),
      f.path = smallPath "o-r-master-presubmits.yaml" →
        "b" ∉ (f.jobs.jobs (.presubmits "o/r")).map nameOf := by
  exact ⟨by decide +kernel, Option.isSome_iff_exists.1 (by decide +kernel), by decide +kernel,
    by decide +kernel, by decide +kernel, by decide +kernel⟩

end FileTree

end JobConfig
