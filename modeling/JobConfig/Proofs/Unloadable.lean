import JobConfig.Proofs.Frame
import JobConfig.Proofs.Run

/-!
# Files that cannot be loaded

A file that cannot be loaded is not found by a scan, so a plan does not know it. A run leaves it
alone, with two exceptions: it stands where a shard that no found file takes is written to, or it is
called as the file beside a planned one. Then it is overwritten or removed.
-/

namespace JobConfig.FileTree

variable {jobDir p : Path} {org repo : String} {t t' : FileTree} {generated : JobSet}
  {l : Location} {c : Bytes} {scan : Scanner} {disk : Storage}

/-! ### Found files and files that cannot be loaded -/

theorem loads_of_mem_found {dir : Path} {e : Identity × JobSet} (h : e ∈ t.found dir scan) :
    ∃ k, t.leads true e.1.file = some k ∧ t.Loads k e.2 := by
  have hs := load_of_mem_found h
  rw [load] at hs
  cases hc : t.readFile e.1.file with
  | error r => simp [hc] at hs
  | ok c =>
    obtain ⟨k, hk, hf⟩ := readFile_leads hc
    refine ⟨k, hk, c, hf, ?_⟩
    rw [hc] at hs
    cases hl : JobSet.ofContent c with
    | error f => simp [hl, Except.mapError] at hs
    | ok s' => simpa [hl, Except.mapError] using hs

/-- Whether a run writes a new file or a file on the way to a location: where a shard leads that no
found file takes, or where the file beside a planned one leads. -/
def Overwrites (t : FileTree) (jobDir : Path) (org repo : String) (generated : JobSet)
    (l : Location) : Prop :=
  (∃ shard ∈ (generated.shards org repo).entries,
    (∀ e ∈ t.found (repoDir jobDir org repo), shardName e.1.file ≠ shard.1) ∧
      ∃ follow, t.leads follow ((repoDir jobDir org repo).join (.ofString shard.1)) = some l) ∨
  ∃ f ∈ t.plan jobDir org repo generated, ∃ follow, t.leads follow (besides f.path) = some l

/-- Whether a run writes where there is a link. -/
def WritesLink (t : FileTree) (jobDir : Path) (org repo : String) (generated : JobSet) : Prop :=
  ∃ f ∈ t.plan jobDir org repo generated, ∃ p ∈ [f.path, besides f.path], ∃ follow,
    ((t.leads follow p).bind t.linkAt?).isSome = true

instance (t : FileTree) (jobDir : Path) (org repo : String) (generated : JobSet) (l : Location) :
    Decidable (t.Overwrites jobDir org repo generated l) := by
  unfold Overwrites
  infer_instance

theorem LinkFree.not_writesLink (ht : t.LinkFree) :
    ¬t.WritesLink jobDir org repo generated := by
  rintro ⟨f, -, p, -, follow, h⟩
  rw [ht.linkAt?] at h
  cases hp : t.leads follow p <;> simp [hp] at h

/-- The files of a plan spare what cannot be loaded, but for the exceptions. -/
theorem spares_of_mem_plan (hc : t.fileAt? l = some c) (hbad : ∀ s, JobSet.ofContent c ≠ .ok s)
    (hlink : ¬t.WritesLink jobDir org repo generated)
    (hover : ¬t.Overwrites jobDir org repo generated l) :
    ∀ f ∈ t.plan jobDir org repo generated scan,
      t.Spares f.path l ∧ t.Spares (besides f.path) l := by
  intro f₀ hf₀
  -- what is exempt is the same in every order
  obtain ⟨f, hf, hpath⟩ := exists_path_eq_of_mem_plan hf₀ .inOrder
  rw [← hpath]
  have hno : ∀ p ∈ [f.path, besides f.path], ∀ follow k, t.leads follow p = some k →
      t.linkAt? k = none := by
    intro p hp follow k hk
    rw [← Option.not_isSome_iff_eq_none]
    intro hsome
    exact hlink ⟨f, hf, p, hp, follow, by rw [hk, Option.bind_some, hsome]⟩
  constructor
  · intro follow k hk
    have hkno := hno f.path (by simp) follow k hk
    refine ⟨?_, hkno⟩
    rintro rfl
    rcases mem_plan_iff.1 hf with hf | ⟨n, s, hs, htaken, rfl⟩
    · -- a found file holds a job set
      obtain ⟨e, he, hp⟩ := path_of_mem_planFiles hf
      have hk' : t.leads true e.1.file = some k := by
        rw [← hp]
        cases follow with
        | true => exact hk
        | false => exact leads_true_of_false hk hkno
      obtain ⟨j, hj, c', hc', hs⟩ := loads_of_mem_found he
      rw [hk', Option.some.injEq] at hj
      subst hj
      rw [hc, Option.some.injEq] at hc'
      subst hc'
      exact hbad _ hs
    · exact hover (.inl ⟨(n, s), KeyMap.mem_entries_iff.2 hs, htaken, follow, hk⟩)
  · intro follow k hk
    refine ⟨?_, hno _ (by simp) follow k hk⟩
    rintro rfl
    exact hover (.inr ⟨f, hf, follow, hk⟩)

/-- Whatever comes of a run, a file that cannot be loaded stays as it is, but for the exceptions. -/
theorem fileAt?_shardInto_of_not_overwrites (hc : t.fileAt? l = some c)
    (hbad : ∀ s, JobSet.ofContent c ≠ .ok s)
    (hlink : ¬(t.makeDirectories (repoDir jobDir org repo)).2.WritesLink jobDir org repo generated)
    (hover : ¬(t.makeDirectories (repoDir jobDir org repo)).2.Overwrites jobDir org repo generated
      l) : (t.shardInto jobDir org repo generated false scan disk).2.fileAt? l = some c := by
  have hmade := (makeDirectories_extends t (repoDir jobDir org repo) disk).fileAt? l
  rw [shardInto]
  simp only [Bool.false_eq_true, if_false]
  cases hm : t.makeDirectories (repoDir jobDir org repo) disk with
  | mk r t₁ =>
    rw [hm, hc] at hmade
    cases r with
    | error e => exact hmade
    | ok u =>
      rw [makeDirectories_sound hm] at hlink hover
      exact (writeAll_keeps disk false (spares_of_mem_plan hmade hbad hlink hover)).file.trans hmade

/-- Only a new file is planned where a file stands that cannot be loaded. -/
theorem fresh_of_mem_plan (ht : t.LinkFree) {f : Planned}
    (hf : f ∈ t.plan jobDir org repo generated scan) (hc : t.fileAt? f.path.place = some c)
    (hbad : ∀ s, JobSet.ofContent c ≠ .ok s) :
    ∃ n s, (generated.shards org repo).get? n = some s ∧
      (∀ e ∈ t.found (repoDir jobDir org repo), shardName e.1.file ≠ n) ∧
      f = ⟨(repoDir jobDir org repo).join (.ofString n), s.prune.sort⟩ := by
  rcases mem_plan_iff.1 hf with hf | hfresh
  · obtain ⟨e, he, hp⟩ := path_of_mem_planFiles hf
    obtain ⟨-, -, -, -, -, ⟨c', hc', hs⟩, -⟩ := names_of_mem_found ht he
    rw [← hp, hc, Option.some.injEq] at hc'
    subst hc'
    exact absurd hs (hbad _)
  · obtain ⟨n, s, hs, htaken, rfl⟩ := hfresh
    exact ⟨n, s, hs, fun e he => htaken e (mem_found_iff_inOrder.2 he), rfl⟩

/-- After a run that ends well in a tree without links, a file that could not be loaded is as it was
just if what was written for a shard at its place is the same and no file beside it was written. -/
theorem fileAt?_shardInto_iff {os : List (Outcome × Path)} (ht : t.LinkFree)
    (h : IsTarget jobDir org repo)
    (hrun : t.shardInto jobDir org repo generated false scan disk = (.ok os, t'))
    (hc : t.fileAt? l = some c) (hbad : ∀ s, JobSet.ofContent c ≠ .ok s) :
    t'.fileAt? l = some c ↔
      (∀ n s, (generated.shards org repo).get? n = some s →
        (∀ e ∈ t.found (repoDir jobDir org repo), shardName e.1.file ≠ n) →
        ((repoDir jobDir org repo).join (.ofString n)).place = l →
        contentOfJobs? s.prune.sort = some c) ∧
      ∀ r ∈ os, r.1 = .written → (besides r.2).place ≠ l := by
  obtain ⟨t₁, ⟨hext, -, hd, hfound⟩, hw⟩ := shardInto_ok ht h hrun
  rw [← plan_congr (hfound scan)] at hw
  have ht₁ := hext.linkFree ht
  rw [← hext.fileAt?] at hc
  rw [← hfound .inOrder]
  have hfresh : ∀ {n s}, (generated.shards org repo).get? n = some s →
      (∀ e ∈ t₁.found (repoDir jobDir org repo), shardName e.1.file ≠ n) →
      ⟨(repoDir jobDir org repo).join (.ofString n), s.prune.sort⟩ ∈
        t₁.plan jobDir org repo generated scan := fun hs htaken =>
    mem_plan_iff.2 (.inr ⟨_, _, hs, fun e he => htaken e (mem_found_iff_inOrder.1 he), rfl⟩)
  by_cases hplanned : ∃ f ∈ t₁.plan jobDir org repo generated scan, f.path.place = l
  · obtain ⟨f, hf, rfl⟩ := hplanned
    obtain ⟨n, s, hs, htaken, rfl⟩ := fresh_of_mem_plan ht₁ hf hc hbad
    rw [fileAt?_planned ht₁ h hd hw hf]
    constructor
    · intro hsame
      refine ⟨fun n' s' hs' htaken' hp => ?_, fun r _ _ hr => ?_⟩
      · rw [← hsame]
        exact congrArg (contentOfJobs? ·.jobs)
          (eq_of_mem_plan ht₁ h.org h.repo (hfresh hs' htaken') hf hp)
      · exact place_ne_besides ht₁ h hd hf r.2 hr.symm
    · rintro ⟨hsame, -⟩
      exact hsame n s hs htaken rfl
  · simp only [not_exists, not_and] at hplanned
    rw [fileAt?_writeAll ht₁ hw fun f hf hl => hplanned f hf hl.symm, hc]
    -- so it can only be lost as the file beside one that is written
    constructor
    · intro hkept
      refine ⟨fun n s hs htaken hp => ?_, fun r hr hwritten hp => ?_⟩
      · exact absurd hp (hplanned _ (hfresh hs htaken))
      · rw [if_pos ⟨r, hr, hwritten, hp.symm⟩] at hkept
        cases hkept
    · rintro ⟨-, hbeside⟩
      rw [if_neg]
      rintro ⟨r, hr, hwritten, hp⟩
      exact hbeside r hr hwritten hp.symm

/-- What becomes of a file that cannot be loaded. In any tree, and whatever comes of the run, it
stays as it is unless a shard that no found file takes is written to its place, or it is called as
the file beside a planned one; only links at the paths that are written are left out. In a tree
without links, after a run that ends well, it is as it was just if a shard that is written to its
place has the same text and no file beside it was written. -/
theorem shardInto_unloadable (jobDir : Path) (org repo : String) (generated : JobSet)
    (hc : t.fileAt? l = some c) (hbad : ∀ s, JobSet.ofContent c ≠ .ok s) :
    (¬(t.makeDirectories (repoDir jobDir org repo)).2.WritesLink jobDir org repo generated →
      ¬(t.makeDirectories (repoDir jobDir org repo)).2.Overwrites jobDir org repo generated l →
        ∀ scan disk,
          (t.shardInto jobDir org repo generated false scan disk).2.fileAt? l = some c) ∧
    (∀ scan disk os t', t.LinkFree → IsTarget jobDir org repo →
      t.shardInto jobDir org repo generated false scan disk = (.ok os, t') →
        (t'.fileAt? l = some c ↔
          (∀ n s, (generated.shards org repo).get? n = some s →
            (∀ e ∈ t.found (repoDir jobDir org repo), shardName e.1.file ≠ n) →
            ((repoDir jobDir org repo).join (.ofString n)).place = l →
            contentOfJobs? s.prune.sort = some c) ∧
          ∀ r ∈ os, r.1 = .written → (besides r.2).place ≠ l)) :=
  ⟨fun hlink hover _ _ => fileAt?_shardInto_of_not_overwrites hc hbad hlink hover,
    fun _ _ _ _ ht h hrun => fileAt?_shardInto_iff ht h hrun hc hbad⟩

/-! ### A file that is kept and one that is lost -/

/-- A tree with one file that cannot be loaded. -/
def brokenTree (name : String) : FileTree :=
  smallTree [(name, "presubmits: [\n")]

/-- What cannot be loaded there. -/
def brokenContent : Bytes :=
  Utf8.encode "presubmits: [\n"

theorem not_loads_brokenContent (s : JobSet) : JobSet.ofContent brokenContent ≠ .ok s := by
  have h : (JobSet.ofContent brokenContent).isOk = false := by decide +kernel
  intro hs
  rw [hs] at h
  cases h

/-- The tree after a file is made for a generated job. -/
def brokenTreeAfter (name : String) : FileTree :=
  ((brokenTree name).shardInto smallDir "o" "r" (smallJobs Job.newlyGenerated) false).2

set_option maxRecDepth 100000 in
theorem shardInto_brokenTree : (brokenTree "o-r-x-presubmits.yaml").shardInto smallDir "o" "r"
    (smallJobs Job.newlyGenerated) false =
      (.ok [(.written, smallPath "o-r-master-presubmits.yaml")],
        brokenTreeAfter "o-r-x-presubmits.yaml") :=
  shardInto_eq (by decide +kernel)

set_option maxRecDepth 100000 in
/-- A file whose name is not that of a shard is kept. -/
theorem shardInto_unloadable_brokenTree :
    (brokenTreeAfter "o-r-x-presubmits.yaml").fileAt? (smallPath "o-r-x-presubmits.yaml").place =
      some brokenContent ∧
    ∀ r ∈ [(Outcome.written, smallPath "o-r-master-presubmits.yaml")], r.1 = .written →
      (besides r.2).place ≠ (smallPath "o-r-x-presubmits.yaml").place := by
  have hc : (brokenTree "o-r-x-presubmits.yaml").fileAt?
      (smallPath "o-r-x-presubmits.yaml").place = some brokenContent := by decide +kernel
  obtain ⟨hkeeps, hiff⟩ := shardInto_unloadable smallDir "o" "r" (smallJobs Job.newlyGenerated) hc
    not_loads_brokenContent
  have ht : (brokenTree "o-r-x-presubmits.yaml").LinkFree := by decide +kernel
  have hover : ¬((brokenTree "o-r-x-presubmits.yaml").makeDirectories
      (repoDir smallDir "o" "r")).2.Overwrites smallDir "o" "r" (smallJobs Job.newlyGenerated)
      (smallPath "o-r-x-presubmits.yaml").place := by decide +kernel
  have hmade := (makeDirectories_extends (brokenTree "o-r-x-presubmits.yaml")
    (repoDir smallDir "o" "r") .sound).linkFree ht
  have hkept := hkeeps hmade.not_writesLink hover .inOrder .sound
  simp only [shardInto_brokenTree] at hkept
  have hbeside := (hiff _ _ _ _ ht isTarget_small shardInto_brokenTree).1 hkept
  exact ⟨hkept, hbeside.2⟩

set_option maxRecDepth 100000 in
/-- A file with the name of a shard is overwritten. -/
theorem shardInto_overwrites_unloadable :
    (brokenTree "o-r-master-presubmits.yaml").fileAt?
      (smallPath "o-r-master-presubmits.yaml").place = some brokenContent ∧
    (∀ s, JobSet.ofContent brokenContent ≠ .ok s) ∧
    (brokenTreeAfter "o-r-master-presubmits.yaml").fileAt?
      (smallPath "o-r-master-presubmits.yaml").place ≠ some brokenContent := by
  refine ⟨?_, not_loads_brokenContent, ?_⟩ <;> decide +kernel

end JobConfig.FileTree
