import JobConfig.Proofs.Completion
import JobConfig.Proofs.Partition

/-!
# What a fresh directory is given

A run in a job directory that is empty or missing writes the shards of the repository and nothing
else. So what is read back from it are the jobs of the repository, settled.
-/

namespace JobConfig.FileTree

open JobConfig.Path (isName)

variable {t t' : FileTree} {jobDir p q : Path} {org repo : String} {generated : JobSet}
  {k l : Location} {n : Bytes} {scan : Scanner}

/-! ### Bare directories -/

/-- Whether a path leads to an empty directory, if it leads anywhere. A link at its end is no
directory. -/
def Fresh (t : FileTree) (p : Path) : Prop :=
  ∀ l e, t.lookup false p = .ok (l, e) → e = .directory ∧ t.below l = []

theorem fresh_of_missing (h : (t.lookup false p).toOption = none) : t.Fresh p := by
  intro l e he
  rw [he] at h
  cases h

/-- Whether a path leads to a directory that holds no more than directories. -/
structure IsBare (t : FileTree) (p : Path) (l : Location) : Prop where
  resolves : ∀ follow, t.resolve follow p = .ok (.at l .directory)
  below : ∀ names e, t.get? (l ++ names) = some e → e = .directory

section IsBare

variable (h : t.IsBare p l)

include h

theorem IsBare.fileAt? (names : Location) : t.fileAt? (l ++ names) = none := by
  rw [Option.eq_none_iff_forall_ne_some]
  intro c hc
  cases h.below names _ (fileAt?_eq_some_iff.1 hc)

theorem IsBare.linkAt? (names : Location) : t.linkAt? (l ++ names) = none := by
  rw [Option.eq_none_iff_forall_ne_some]
  intro target hl
  cases h.below names _ (linkAt?_eq_some_iff.1 hl)

theorem IsBare.reachesAt (hn : isName n = true) : t.ReachesAt (p.join ⟨n⟩) (l ++ [n]) :=
  ⟨p, l, n, rfl, rfl, hn, h.resolves true, h.linkAt? _⟩

/-- A directory in a bare one is bare. -/
theorem IsBare.join (hn : isName n = true)
    (hk : t.resolve true (p.join ⟨n⟩) = .ok (.at k .directory)) :
    t.IsBare (p.join ⟨n⟩) (l ++ [n]) := by
  have hd : t.spot (l ++ [n]) = .at (l ++ [n]) .directory := by
    rw [(h.reachesAt hn).resolve, spot] at hk
    rw [spot]
    split at hk
    · cases hk
      rfl
    · cases hk
  refine ⟨fun follow => by rw [(h.reachesAt hn).resolve, hd], fun names e he => ?_⟩
  rw [List.append_assoc] at he
  exact h.below _ e he

end IsBare

theorem isBare_of_extends {t₁ : FileTree} (hext : t₁.Extends t)
    (hp : ∀ follow, t₁.resolve follow p = .ok (.at l .directory))
    (hno : ∀ names, names ≠ [] → t.get? (l ++ names) = none) : t₁.IsBare p l := by
  refine ⟨hp, fun names e he => ?_⟩
  by_cases hn : names = []
  · rw [hn, List.append_nil, (leads_of_resolve (hp true)).2, Option.some.injEq] at he
    exact he.symm
  · rcases hext (l ++ names) with heq | ⟨-, hd⟩
    · rw [heq, hno names hn] at he
      cases he
    · rw [hd, Option.some.injEq] at he
      exact he.symm

/-- A fresh directory is bare once it is there. -/
theorem Fresh.isBare {t₁ : FileTree} (hf : t.Fresh p) (hext : t₁.Extends t)
    (ho : t.Opened t₁ p) : ∃ l, t₁.IsBare p l := by
  rcases ho with ⟨k, hk⟩ | ⟨k, hk, hp⟩
  · rcases resolve_false_of_directory hk with hd | ⟨j, target, hl⟩
    · obtain ⟨-, hempty⟩ := hf k .directory (by rw [lookup, hd])
      have hp : ∀ follow, t₁.resolve follow p = .ok (.at k .directory) := fun follow =>
        hext.keepsWays.resolve hd (by simp)
      refine ⟨k, isBare_of_extends hext hp fun names hn => ?_⟩
      rw [Option.eq_none_iff_forall_ne_some]
      intro e he
      have hmem := mem_below.2 ⟨hn, he⟩
      rw [hempty] at hmem
      cases hmem
    · cases (hf j (.link target) (by rw [lookup, hl])).1
  · exact ⟨k, isBare_of_extends hext hp fun names _ => get?_append_eq_none hk names⟩

/-- Where the directory of a repository is made in a fresh one, both are bare. -/
theorem Fresh.isBare_makeDirectories {t₁ : FileTree} (h : IsTarget jobDir org repo)
    (hp : jobDir.bytes ≠ []) (hf : t.Fresh jobDir)
    (hm : t.makeDirectories (repoDir jobDir org repo) = (.ok (), t₁)) :
    ∃ l, t₁.IsBare jobDir l ∧
      t₁.IsBare (repoDir jobDir org repo) (l ++ [Utf8.encode org, Utf8.encode repo]) := by
  have ho := Path.isName_encode.2 h.org
  have hext := extends_of_makeDirectories hm
  obtain ⟨hopened, k, hk⟩ := opened_makeDirectories h.jobDir ho h.isName hp hm
  obtain ⟨l, hl⟩ := hf.isBare hext hopened
  obtain ⟨j, hj⟩ := directory_of_resolve_join h.isName (Path.join_bytes_ne_nil ho jobDir) hk
  have hrepo := (hl.join ho hj).join h.isName hk
  rw [List.append_assoc] at hrepo
  exact ⟨l, hl, hrepo⟩

/-! ### Plans in bare directories -/

theorem IsBare.found (h : t.IsBare p l) (scan : Scanner) : t.found p scan = [] := by
  rw [List.eq_nil_iff_forall_not_mem]
  rintro ⟨i, s⟩ he
  obtain ⟨names, -, ⟨c, hc, -⟩, -⟩ := (mem_loaded_of_resolve (h.resolves false) h.linkAt?).1
    (mem_found_iff_mem_loaded.1 he).2
  rw [h.fileAt?] at hc
  cases hc

/-- In a bare directory each shard is given to a new file. -/
theorem IsBare.mem_plan (h : t.IsBare (repoDir jobDir org repo) l) {f : Planned} :
    f ∈ t.plan jobDir org repo generated scan ↔ ∃ n s, (generated.shards org repo).get? n = some s ∧
      f = ⟨(repoDir jobDir org repo).join (.ofString n), s.prune.sort⟩ := by
  rw [mem_plan_iff, h.found scan]
  simp [planFiles]

/-- Where a path leads if a link at its end is not followed. -/
def aim (t : FileTree) (p : Path) : Location :=
  (t.leads false p).getD []

theorem ReachesAt.aim_eq (h : t.ReachesAt p l) : t.aim p = l := by
  rw [aim, h.leads, Option.getD_some]

theorem aims_aim (h : ∀ k, t.leads false p = some k → t.linkAt? k = none) :
    t.Aims p (t.aim p) := by
  refine ⟨fun follow k hk => ?_, ?_⟩
  · cases follow with
    | false => rw [aim, hk, Option.getD_some]
    | true =>
      obtain ⟨j, hj⟩ := exists_leads_false hk
      rw [leads_true_of_false hj (h j hj), Option.some.injEq] at hk
      rw [aim, hj, Option.getD_some, hk]
  · rw [aim]
    cases hk : t.leads false p with
    | none => rfl
    | some k => exact h k hk

/-- A job file is never where a file beside another one goes. -/
theorem ReachesAt.ne_aim_besides (h : t.ReachesAt q l) (hq : q.extension? = some jobExtension)
    (p : Path) : l ≠ t.aim (besides p) := by
  obtain ⟨d, k, n, rfl, rfl, hn, -⟩ := h
  obtain ⟨ps, m, hp, hm⟩ := pieces_besides p
  rw [aim]
  cases hj : t.leads false (besides p) with
  | none => simp
  | some j =>
    obtain ⟨i, rfl⟩ := location_of_leads_false hp hm hj
    intro heq
    have hlast := congrArg List.getLast? heq
    exact name_ne_temporary hn hq m (by simpa using hlast)

/-- The file beside a new one in a bare directory is not a link, unless the path is no text and
there is a link of such a name. -/
theorem IsBare.linkAt?_besides (h : t.IsBare p l) (hn : isName n = true)
    (hlinks : (p.join ⟨n⟩).IsText ∨ ∀ l m, t.linkAt? (l ++ [m ++ temporarySuffix]) = none)
    (hk : t.leads false (besides (p.join ⟨n⟩)) = some k) : t.linkAt? k = none := by
  rcases hlinks with htext | hno
  · have hr := h.reachesAt (isName_temporary (Path.isName_iff.1 hn).2.2)
    rw [besides_join hn htext, hr.leads, Option.some.injEq] at hk
    rw [← hk, h.linkAt?]
  · obtain ⟨ps, m, hp, hm⟩ := pieces_besides (p.join ⟨n⟩)
    obtain ⟨j, rfl⟩ := location_of_leads_false hp hm hk
    exact hno j m

/-! ### What is written -/

/-- What it means that shards are written to a directory: each one that has jobs is a file there,
and no others are new. -/
structure Filled (t t' : FileTree) (l : Location) (shards : Shards) : Prop where
  keepsWays : t.KeepsWays t'
  shard : ∀ n s, shards.get? n = some s →
    t'.fileAt? (l ++ [Utf8.encode n]) = contentOfJobs? s.prune.sort
  other : ∀ k, (∀ n s, shards.get? n = some s → k ≠ l ++ [Utf8.encode n]) →
    t.fileAt? k = none → t'.fileAt? k = none

theorem Filled.resolve {shards : Shards} (h : Filled t t' k shards) (hb : t.IsBare p l) :
    t'.resolve false p = .ok (.at l .directory) :=
  h.keepsWays.resolve (hb.resolves false) id

section Filled

variable (h : IsTarget jobDir org repo) (hb : t.IsBare (repoDir jobDir org repo) l)

include h in
theorem extension?_of_get?_shards {n : String} {s : JobSet}
    (hs : (generated.shards org repo).get? n = some s) :
    ((repoDir jobDir org repo).join (.ofString n)).extension? = some jobExtension := by
  obtain ⟨i, hi⟩ := ofJobFile?_of_get?_shards h.org h.repo hs jobDir
  exact (Identity.file_of_ofJobFile? hi).2

include h hb

theorem IsBare.reachesAt_shard {n : String} {s : JobSet}
    (hs : (generated.shards org repo).get? n = some s) :
    t.ReachesAt ((repoDir jobDir org repo).join (.ofString n)) (l ++ [Utf8.encode n]) :=
  hb.reachesAt (Path.isName_encode.2 (isPlain_of_get?_shards h.org h.repo hs))

variable (hlinks : jobDir.IsText ∨ ∀ l m, t.linkAt? (l ++ [m ++ temporarySuffix]) = none)

include hlinks

theorem IsBare.aims_plan (generated : JobSet) (scan : Scanner) :
    ∀ f ∈ t.plan jobDir org repo generated scan,
    t.Aims f.path (t.aim f.path) ∧ t.Aims (besides f.path) (t.aim (besides f.path)) := by
  intro f hf
  obtain ⟨n, s, hs, rfl⟩ := hb.mem_plan.1 hf
  have hplain := isPlain_of_get?_shards h.org h.repo hs
  have htext := hlinks.imp_left fun ht => ((ht.join h.org).join h.repo).join hplain
  have hr := hb.reachesAt_shard h hs
  refine ⟨?_, aims_aim fun k hk =>
    hb.linkAt?_besides (Path.isName_encode.2 hplain) htext hk⟩
  rw [hr.aim_eq]
  exact hr.aims

/-- What is planned in a bare directory fills it. -/
theorem IsBare.filled {os : List (Outcome × Path)}
    (hw : writeAll false t (t.plan jobDir org repo generated scan) = (.ok os, t')) :
    Filled t t' l (generated.shards org repo) := by
  have haims := hb.aims_plan h hlinks generated scan
  refine ⟨writeAll_keepsWays haims hw, fun n s hs => ?_, fun k hk hnone => ?_⟩
  · rw [← (hb.reachesAt_shard h hs).aim_eq]
    refine fileAt?_goal_writeAll (f := ⟨_, s.prune.sort⟩) haims hw (fun f hf => ?_)
      (fun f hf g hg hfg => ?_) (fun f hf g _ => ?_) (hb.mem_plan.2 ⟨n, s, hs, rfl⟩)
    · obtain ⟨n, s, hs, rfl⟩ := hb.mem_plan.1 hf
      rw [(hb.reachesAt_shard h hs).aim_eq]
      exact hb.reachesAt_shard h hs
    · obtain ⟨n, s, hs, rfl⟩ := hb.mem_plan.1 hf
      obtain ⟨n', s', hs', rfl⟩ := hb.mem_plan.1 hg
      rw [(hb.reachesAt_shard h hs).aim_eq, (hb.reachesAt_shard h hs').aim_eq] at hfg
      obtain rfl : n = n' := Utf8.encode_inj.1 (by simpa using hfg)
      rw [hs, Option.some.injEq] at hs'
      rw [hs']
    · obtain ⟨n, s, hs, rfl⟩ := hb.mem_plan.1 hf
      have hr := hb.reachesAt_shard h hs
      rw [hr.aim_eq]
      exact hr.ne_aim_besides (extension?_of_get?_shards h hs) g.path
  · rw [fileAt?_writeAll_of_aims haims hw fun f hf => ?_, hnone, ite_self]
    obtain ⟨n, s, hs, rfl⟩ := hb.mem_plan.1 hf
    rw [(hb.reachesAt_shard h hs).aim_eq]
    exact hk n s hs

end Filled

/-! ### What is read back -/

/-- The job file that a shard is read back from, if it has jobs. -/
def fileOfShard? (jobDir : Path) (org repo : String) (e : String × JobSet) :
    Option (Identity × JobSet) :=
  if e.2.prune.sort.isEmpty then none
  else
    (Identity.ofJobFile? ((repoDir jobDir org repo).join (.ofString e.1))).map (·, e.2.prune.sort)

theorem fileOfShard?_eq_some_iff {e : String × JobSet} {i : Identity} {s : JobSet} :
    fileOfShard? jobDir org repo e = some (i, s) ↔ e.2.prune.sort.isEmpty = false ∧
      e.2.prune.sort = s ∧
      Identity.ofJobFile? ((repoDir jobDir org repo).join (.ofString e.1)) = some i := by
  rw [fileOfShard?, Option.ite_none_left_eq_some, Bool.not_eq_true, Option.map_eq_some_iff]
  refine and_congr_right fun _ => ?_
  constructor
  · rintro ⟨j, hj, heq⟩
    cases heq
    exact ⟨rfl, hj⟩
  · rintro ⟨rfl, hi⟩
    exact ⟨i, hi, rfl⟩

section Shards

variable (h : IsTarget jobDir org repo)

include h

theorem nodup_filesOfShards :
    ((generated.shards org repo).entries.filterMap (fileOfShard? jobDir org repo)).Nodup := by
  rw [List.Nodup, List.pairwise_filterMap]
  refine (KeyMap.increasing _).imp_of_mem fun {a b} ha hb hab x hx y hy heq => ?_
  -- the path of a file tells the name of its shard
  have hname : ∀ {e}, e ∈ (generated.shards org repo).entries →
      ∀ {z}, fileOfShard? jobDir org repo e = some z → shardName z.1.file = e.1 := by
    intro e he z hz
    rw [(Identity.file_of_ofJobFile? (fileOfShard?_eq_some_iff.1 hz).2.2).1]
    exact shardName_join (isPlain_of_get?_shards h.org h.repo (KeyMap.mem_entries_iff.1 he)) _
  rw [← hname ha hx, ← hname hb hy, heq, Std.ReflOrd.compare_self] at hab
  cases hab

/-- The files of the shards hold the settled jobs of each of them. -/
theorem flatMap_jobs_filesOfShards (g : Grouping) :
    (((generated.shards org repo).entries.filterMap (fileOfShard? jobDir org repo)).flatMap
      fun e => e.2.jobs g) =
        (generated.shards org repo).values.flatMap fun s => s.prune.sort.jobs g := by
  rw [List.filterMap_eq_flatMap_toList, List.flatMap_assoc, KeyMap.values, List.flatMap_map]
  refine List.flatMap_congr fun e he => ?_
  rw [fileOfShard?]
  cases hemp : e.2.prune.sort.isEmpty with
  | true => simp [(JobSet.full_prune _).sort.isEmpty_iff.1 hemp g]
  | false =>
    obtain ⟨i, hi⟩ :=
      ofJobFile?_of_get?_shards h.org h.repo (KeyMap.mem_entries_iff.1 he) jobDir
    simp [hi]

end Shards

section ReadBack

variable {i : Identity} {s : JobSet} (hb : t.IsBare jobDir l)
  (hfilled : Filled t t' (l ++ [Utf8.encode org, Utf8.encode repo]) (generated.shards org repo))
  (hback : ∀ s ∈ (generated.shards org repo).values, s.prune.sort.isEmpty = false →
    s.prune.sort.ReadsBack)

include hb hfilled hback

/-- What is read back from the job directory are the shards that have jobs. -/
theorem mem_loaded_of_filled : (i, s) ∈ t'.loaded jobDir ↔
    ∃ n shard, (generated.shards org repo).get? n = some shard ∧
      shard.prune.sort.isEmpty = false ∧ shard.prune.sort = s ∧
      Identity.ofJobFile? ((repoDir jobDir org repo).join (.ofString n)) = some i := by
  have hno : ∀ names, t'.linkAt? (l ++ names) = none := fun names => by
    rw [hfilled.keepsWays.links, hb.linkAt?]
  have hloads : ∀ {n shard}, (generated.shards org repo).get? n = some shard →
      (t'.Loads (l ++ [Utf8.encode org, Utf8.encode repo, Utf8.encode n]) s ↔
        shard.prune.sort.isEmpty = false ∧ shard.prune.sort = s) := by
    intro n shard hn
    have hfile := hfilled.shard n shard hn
    rw [List.append_assoc] at hfile
    exact loads_iff_of_readsBack hfile (hback shard (KeyMap.mem_values_iff.2 ⟨n, hn⟩))
  rw [mem_loaded_of_resolve (hfilled.resolve hb) hno]
  constructor
  · rintro ⟨names, -, hload, hi⟩
    obtain ⟨n, shard, hn, rfl⟩ : ∃ n shard, (generated.shards org repo).get? n = some shard ∧
        names = [Utf8.encode org, Utf8.encode repo, Utf8.encode n] := by
      by_contra hnot
      obtain ⟨c, hc, -⟩ := hload
      rw [hfilled.other _ (fun n shard hn hk => hnot ⟨n, shard, hn, ?_⟩) (hb.fileAt? names)] at hc
      · cases hc
      · rwa [List.append_assoc, List.append_cancel_left_eq] at hk
    obtain ⟨hemp, hs⟩ := (hloads hn).1 hload
    exact ⟨n, shard, hn, hemp, hs, hi⟩
  · rintro ⟨n, shard, hn, hemp, hs, hi⟩
    exact ⟨_, by simp, (hloads hn).2 ⟨hemp, hs⟩, hi⟩

theorem full_of_mem_loaded_of_filled {e : Identity × JobSet} (he : e ∈ t'.loaded jobDir) :
    e.2.Full := by
  obtain ⟨n, shard, -, -, hs, -⟩ := (mem_loaded_of_filled hb hfilled hback).1 he
  rw [← hs]
  exact (JobSet.full_prune _).sort

theorem loaded_perm_of_filled (h : IsTarget jobDir org repo) : (t'.loaded jobDir).Perm
    ((generated.shards org repo).entries.filterMap (fileOfShard? jobDir org repo)) := by
  refine (List.perm_ext_iff_of_nodup (t'.nodup_loaded jobDir) (nodup_filesOfShards h)).2
    fun ⟨i, s⟩ => ?_
  simp only [mem_loaded_of_filled hb hfilled hback, List.mem_filterMap, Prod.exists,
    KeyMap.mem_entries_iff, fileOfShard?_eq_some_iff]

end ReadBack

/-- A fresh directory reads back as what was sharded: after a run that ends well and was no dry run,
the job files below it, put together in whatever order they are handed over, are the settled jobs of
the repository. There may be links on the way to the directory. If its path is a text, the files
beside the new ones lie in it as well. If not, they lie where its path is shown to lead, and a link
that is called like one of them would be moved to the place of a new file. -/
theorem sort_allJobs_of_fresh {os : List (Outcome × Path)} {disk : Storage}
    (h : IsTarget jobDir org repo) (hp : jobDir.bytes ≠ []) (hfresh : t.Fresh jobDir)
    (hlinks : jobDir.IsText ∨ ∀ l m, t.linkAt? (l ++ [m ++ temporarySuffix]) = none)
    (hd : generated.Distinct)
    (hback : ∀ s ∈ (generated.shards org repo).values, s.prune.sort.isEmpty = false →
      s.prune.sort.ReadsBack)
    (hrun : t.shardInto jobDir org repo generated false scan disk = (.ok os, t')) :
    (∀ scan', (t'.allJobs jobDir scan').sort = (generated.restrict org repo).prune.sort) ∧
      ∀ delivered, delivered.Perm (t'.loaded jobDir) →
        (JobSet.joined delivered).sort = (generated.restrict org repo).prune.sort := by
  obtain ⟨t₁, hm, hw⟩ := exists_writeAll_of_shardInto hrun
  obtain ⟨l, hb, hrepo⟩ := hfresh.isBare_makeDirectories h hp hm
  have hlinks₁ : jobDir.IsText ∨ ∀ l m, t₁.linkAt? (l ++ [m ++ temporarySuffix]) = none := by
    rwa [(extends_of_makeDirectories hm).linkAt?]
  have hfilled := hrepo.filled h hlinks₁ hw
  have hall : ∀ delivered, delivered.Perm (t'.loaded jobDir) →
      (JobSet.joined delivered).sort = (generated.restrict org repo).prune.sort := by
    intro delivered hdel
    have hperm := hdel.trans (loaded_perm_of_filled hb hfilled hback h)
    refine JobSet.sort_joined hd (fun e he => ?_) fun g => ?_
    · exact full_of_mem_loaded_of_filled hb hfilled hback (hdel.mem_iff.1 he)
    · rw [← flatMap_jobs_filesOfShards h g]
      exact hperm.flatMap_right _
  exact ⟨fun scan' => hall _ (scan'.perm t' jobDir), hall⟩

/-- A tree with a directory and a link to it. -/
def linkedTree : FileTree :=
  ((∅ : FileTree).put [Utf8.encode "real"] .directory).put [Utf8.encode "link"]
    (.link (.ofString "real"))

/-- A directory behind the link, which is missing. -/
def linkedDir : Path :=
  .ofString "link/jobs"

/-- Jobs of two repositories and of none; one of them is stale. -/
def scatteredJobs : JobSet where
  presubmits := .ofList [("o/q", [{ name := "c" }]),
    ("o/r", [{ name := "b", branches := ["x/y"] }, { name := "a" }])]
  postsubmits := .ofList
    [("o/r", [{ name := "p", labels := .ofList [(Job.markerLabel, Job.generated)] }])]
  periodics := [{ name := "e" },
    { name := "d", extraRefs := [{ org := "o", repo := "r", baseRef := "x/y" }] }]

set_option maxRecDepth 100000 in
theorem readsBack_scatteredJobs : ∀ s ∈ (scatteredJobs.shards "o" "r").values,
    s.prune.sort.isEmpty = false → s.prune.sort.ReadsBack := by
  decide +kernel

set_option maxRecDepth 100000 in
/-- The jobs are written to three files behind the link; the stale one has none. -/
theorem sort_allJobs_linkedTree : ∃ os t',
    linkedTree.shardInto linkedDir "o" "r" scatteredJobs false = (.ok os, t') ∧
      os.map Prod.fst = [.unchanged, .written, .written, .written] ∧
      (t'.allJobs linkedDir).sort = (scatteredJobs.restrict "o" "r").prune.sort ∧
      ∀ delivered, delivered.Perm (t'.loaded linkedDir) →
        (JobSet.joined delivered).sort = (scatteredJobs.restrict "o" "r").prune.sort := by
  have hos : ∃ os,
      (linkedTree.shardInto linkedDir "o" "r" scatteredJobs false).1.toOption = some os ∧
        os.map Prod.fst = [.unchanged, .written, .written, .written] := by
    decide +kernel
  obtain ⟨os, hos, houtcomes⟩ := hos
  have hrun := shardInto_eq hos
  obtain ⟨hall, hdelivered⟩ := sort_allJobs_of_fresh ⟨by decide, by decide, by decide +kernel⟩
    (by decide +kernel) (fresh_of_missing (by decide +kernel)) (.inl ⟨"link/jobs", rfl⟩)
    (by decide +kernel) readsBack_scatteredJobs hrun
  exact ⟨os, _, hrun, houtcomes, hall .inOrder, hdelivered⟩

/-- A tree with a link that is called as the file beside a new one is shown. -/
def bystanderLinkTree : FileTree :=
  bystanderTree.put bystander (.link (.ofString "x"))

set_option maxRecDepth 100000 in
/-- The job is lost where the link is moved to the place of the new file, and where a dry run writes
no file at all. -/
theorem sort_allJobs_loses :
    (IsTarget lossyDir "o" "r" ∧ lossyDir.bytes ≠ [] ∧ bystanderLinkTree.Fresh lossyDir ∧
      plainJobs.Distinct ∧
      (∀ s ∈ (plainJobs.shards "o" "r").values, s.prune.sort.isEmpty = false →
        s.prune.sort.ReadsBack) ∧
      (bystanderLinkTree.shardInto lossyDir "o" "r" plainJobs false).1.toOption.isSome ∧
      ((bystanderLinkTree.shardInto lossyDir "o" "r" plainJobs false).2.allJobs lossyDir).sort ≠
        (plainJobs.restrict "o" "r").prune.sort) ∧
    ((∅ : FileTree).Fresh smallDir ∧
      ((∅ : FileTree).shardInto smallDir "o" "r" plainJobs true).1.toOption.isSome ∧
      (((∅ : FileTree).shardInto smallDir "o" "r" plainJobs true).2.allJobs smallDir).sort ≠
        (plainJobs.restrict "o" "r").prune.sort) := by
  exact ⟨⟨isTarget_lossyDir, by decide, fresh_of_missing (by decide +kernel),
    by decide +kernel, by decide +kernel, by decide +kernel, by decide +kernel⟩,
    fresh_of_missing (by decide +kernel), by decide +kernel, by decide +kernel⟩

end JobConfig.FileTree
