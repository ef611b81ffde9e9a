import JobConfig.Proofs.Namesakes
import JobConfig.Proofs.Outcome

/-!
# How far a run comes

A run writes its plan to the end or stops at a file. What comes before that file is written as
planned; that file and those after it are as they were. No other file changes, except one that is
called as the file beside a new text, and the outcomes are those that the first tree decides. A
fault of the storage may tear the file beside the one where the run stops.
-/

namespace JobConfig.FileTree

open JobConfig.Path (isName)

variable {t t' : FileTree} {jobDir : Path} {org repo : String} {generated : JobSet} {f : Planned}
  {names l : Location} {scan : Scanner} {disk : Storage}

/-! ### Paths below a directory -/

theorem up_not_mem_under {p : Path} (hup : .up ∉ p.components) (hn : Named names) :
    .up ∉ (under p names).components := by
  induction names using List.reverseRecOn with
  | nil => exact hup
  | append_singleton names n ih =>
    rw [under_append_singleton, Path.components_join (hn n (by simp))]
    simpa using ih fun m hm => hn m (List.mem_append_left _ hm)

/-! ### Planned paths -/

section Target

variable (h : IsTarget jobDir org repo)

include h

/-- The path of the directory of a repository and all paths below it end in a name. -/
theorem exists_under_eq_join (hn : Named names) : ∃ (q : Path) (m : Bytes), isName m = true ∧
    under (repoDir jobDir org repo) names = q.join ⟨m⟩ := by
  induction names using List.reverseRecOn with
  | nil => exact ⟨_, _, h.isName, rfl⟩
  | append_singleton names m _ =>
    exact ⟨_, m, hn m (by simp), under_append_singleton _ names m⟩

/-- What stands at a path below the directory of a repository. -/
theorem entryAt?_under (ht : t.LinkFree) (hne : names ≠ []) (hn : Named names) :
    t.entryAt? (under (repoDir jobDir org repo) names) =
      t.get? (under (repoDir jobDir org repo) names).place := by
  obtain ⟨ms, m, rfl, hms, hm⟩ := hn.exists_concat hne
  obtain ⟨q, n, hname, hq⟩ := exists_under_eq_join h hms
  have hne : (under (repoDir jobDir org repo) ms).bytes ≠ [] := by
    rw [hq]
    exact Path.join_bytes_ne_nil hname q
  rw [under_append_singleton, entryAt?_join ht (up_not_mem_under h.up_not_mem hms) hne hm]

/-- A planned path is one of names below the directory of the repository. -/
theorem names_of_mem_plan (ht : t.LinkFree) (hf : f ∈ t.plan jobDir org repo generated scan) :
    ∃ names, names ≠ [] ∧ Named names ∧ f.path = under (repoDir jobDir org repo) names := by
  rcases mem_plan.1 hf with ⟨e, he, rfl⟩ | ⟨n, s, hs, -, rfl⟩
  · obtain ⟨names, hne, hn, hfile, -⟩ := names_of_mem_found ht he
    exact ⟨names, hne, hn, hfile⟩
  · have hname := Path.isName_encode.2 (isPlain_of_get?_shards h.org h.repo hs)
    exact ⟨[_], by simp, by simpa [Named] using hname, rfl⟩

/-- What stands at a planned path in any tree. -/
theorem entryAt?_of_mem_plan (ht : t.LinkFree) (hf : f ∈ t.plan jobDir org repo generated scan)
    (ht' : t'.LinkFree) : t'.entryAt? f.path = t'.get? f.path.place := by
  obtain ⟨names, hne, hn, hp⟩ := names_of_mem_plan h ht hf
  rw [hp, entryAt?_under h ht' hne hn]

/-- A planned path does not lie on the way to the directory. -/
theorem not_prefix_of_mem_plan (ht : t.LinkFree) (hf : f ∈ t.plan jobDir org repo generated scan) :
    ¬f.path.place <+: (repoDir jobDir org repo).place := by
  obtain ⟨names, hne, hn, hp⟩ := names_of_mem_plan h ht hf
  rw [hp, place_under hn]
  intro hpre
  have hlen := hpre.length_le
  rw [List.length_append] at hlen
  have := List.length_pos_iff.2 hne
  omega

/-- Where the directory of the repository is there, all planned files have a directory. -/
theorem hasParent_of_mem_plan (ht : t.LinkFree)
    (hd : t.isDirectory (repoDir jobDir org repo) = true)
    (hf : f ∈ t.plan jobDir org repo generated scan) : t.HasParent f.path := by
  rcases mem_plan.1 hf with ⟨e, he, rfl⟩ | ⟨n, s, hs, -, rfl⟩
  · obtain ⟨names, hne, hn, hfile, hplace, ⟨c, hc, -⟩, -⟩ := names_of_mem_found ht he
    obtain ⟨ms, m, rfl, hms, hm⟩ := hn.exists_concat hne
    rw [hplace, fileAt?_eq_some_iff] at hc
    obtain ⟨-, hdir, -⟩ := directory_of_get?_append hc hne
    rw [List.dropLast_concat] at hdir
    obtain ⟨q, n, hname, hq⟩ := exists_under_eq_join h hms
    have hparent := isDirectory_under ht hd hdir
    rw [hq] at hparent
    exact ⟨q, n, m, by rw [hfile, under_append_singleton, hq], hname, hm, hparent⟩
  · exact ⟨_, _, _, rfl, h.isName,
      Path.isName_encode.2 (isPlain_of_get?_shards h.org h.repo hs), hd⟩

/-- A plan has no place twice. -/
theorem plan_places (ht : t.LinkFree) : (t.plan jobDir org repo generated scan).Pairwise fun f g =>
    f.path.place ≠ g.path.place := by
  refine (plan_increasing ht h.org h.repo).imp_of_mem fun {f g} hf hg hlt hp => ?_
  simp [eq_of_mem_plan ht h.org h.repo hf hg hp] at hlt

end Target

/-! ### Before and after the directory is made -/

section Target

variable {t₁ : FileTree} (h : IsTarget jobDir org repo) (hp : Prepared jobDir org repo t t₁)
  (ht : t.LinkFree)

include h hp ht

/-- Once the directory is made, planned paths lead to what stood there before. -/
theorem Prepared.entryAt?_eq (hf : f ∈ t.plan jobDir org repo generated scan) :
    t.entryAt? f.path = t₁.get? f.path.place := by
  rw [entryAt?_of_mem_plan h ht hf ht, hp.elsewhere _ (not_prefix_of_mem_plan h ht hf)]

/-- Before the directory is made, planned paths lead to what is at their places as well. -/
theorem Prepared.sees (hf : f ∈ t.plan jobDir org repo generated scan) : t.Sees f.path := by
  by_cases hdt : t.isDirectory (repoDir jobDir org repo)
  · exact (hasParent_of_mem_plan h ht hdt hf).reaches.sees ht
  · -- nothing is found in a missing directory, so the file is a new one
    obtain ⟨n, hname, hfp⟩ : ∃ n, isName n = true ∧
        f.path = (repoDir jobDir org repo).join ⟨n⟩ := by
      rcases JobConfig.mem_plan.1 hf with ⟨e, he, -⟩ | ⟨n, s, hs, -, rfl⟩
      · exact absurd ((mem_found ht).1 he).1 hdt
      · exact ⟨_, Path.isName_encode.2 (isPlain_of_get?_shards h.org h.repo hs), rfl⟩
    obtain ⟨hb, -⟩ := (isDirectory_iff_walk (hp.adds.linkFree ht)).1 hp.isDirectory
    have hnone : t.get? f.path.place = none := by
      rw [Option.eq_none_iff_forall_ne_some]
      intro e he
      rw [hfp, Path.place_join hname] at he
      have hparent := (parent_of_get? he (by simp)).2
      rw [List.dropLast_concat] at hparent
      exact hdt (isDirectory_of_get? ht h.up_not_mem hb hparent)
    intro follow
    rw [hnone, lookup, hfp,
      resolve_join_of_extends ht hp.adds hp.isDirectory (by simpa using hdt) hname]

/-- A planned path is not that of a file beside another. -/
theorem Prepared.place_ne_temporary (hf : f ∈ t.plan jobDir org repo generated scan) (d : Location)
    (m : Bytes) : f.path.place ≠ d ++ [m ++ temporarySuffix] := by
  obtain ⟨-, -, -, -, hr, i, hi⟩ :=
    path_of_mem_plan (hp.adds.linkFree ht) h.org h.repo hp.isDirectory (hp.mem_plan hf)
  exact FileTree.place_ne_temporary (Identity.file_of_ofJobFile? hi).2 hr d m

end Target

/-! ### The run -/

/-- What becomes of a planned file. -/
def outcome (t : FileTree) (f : Planned) : Outcome :=
  outcomeOf (t.entryAt? f.path) f.jobs

/-- The file at a location after others were written: none is left beside a new text. -/
def leftAt? (t : FileTree) (done : List Planned) (l : Location) : Option Bytes :=
  if ∃ f ∈ done, t.outcome f = .written ∧ l = (besides f.path).place then none else t.fileAt? l

/-- What it means that the first files of a plan are written and the others are left: each of the
first holds its text, or is gone if it has no jobs; the others are as they were; and so is every
file that is not planned, except where it stood beside a new text. None is left there, except beside
the file that is torn, if there is one: there may be the beginning of its text. -/
structure Applies (t : FileTree) (done rest : List Planned) (torn? : Option Planned)
    (t' : FileTree) : Prop where
  holds : ∀ f ∈ done, t'.entryAt? f.path = entryOfJobs? f.jobs
  rendered : ∀ f ∈ done, f.jobs.isEmpty = false → f.jobs.render = .ok f.jobs.text
  unchanged : ∀ f ∈ done, t.outcome f = .unchanged → t'.entryAt? f.path = t.entryAt? f.path
  left : ∀ f ∈ rest, t'.entryAt? f.path = t.entryAt? f.path
  others : ∀ l, (∀ f ∈ done ++ rest, l ≠ f.path.place) → t'.fileAt? l = t.leftAt? done l ∨
    ∃ f ∈ torn?, t.outcome f = .written ∧ l = (besides f.path).place ∧
      (t'.fileAt? l = none ∨ ∃ n, t'.fileAt? l = some ((Utf8.encode f.jobs.text).take n))
  temporary : ∀ d m c, t'.fileAt? (d ++ [m ++ temporarySuffix]) = some c →
    t.fileAt? (d ++ [m ++ temporarySuffix]) = some c ∨
      ∃ f ∈ torn?, d ++ [m ++ temporarySuffix] = (besides f.path).place

/-- What it means that a tree is left as it was except beside the file that is torn, if there is one:
there may be nothing there, or the beginning of its text. -/
def LeavesTorn (t : FileTree) (torn? : Option Planned) (t₂ t' : FileTree) : Prop :=
  ∀ k, t'.get? k = t₂.get? k ∨ ∃ f ∈ torn?, t.outcome f = .written ∧ k = (besides f.path).place ∧
    (t'.get? k = none ∨ ∃ n, t'.get? k = some (.file ((Utf8.encode f.jobs.text).take n)))

theorem LeavesTorn.fileAt? {torn? : Option Planned} {t₂ : FileTree} (h : t.LeavesTorn torn? t₂ t')
    (l : Location) : t'.fileAt? l = t₂.fileAt? l ∨
      ∃ f ∈ torn?, t.outcome f = .written ∧ l = (besides f.path).place ∧
        (t'.fileAt? l = none ∨ ∃ n, t'.fileAt? l = some ((Utf8.encode f.jobs.text).take n)) := by
  rcases h l with hsame | ⟨f, hf, ho, hb, hnone | ⟨n, hn⟩⟩
  · exact .inl (by rw [FileTree.fileAt?, hsame, FileTree.fileAt?])
  · exact .inr ⟨f, hf, ho, hb, .inl (by rw [FileTree.fileAt?, hnone])⟩
  · exact .inr ⟨f, hf, ho, hb, .inr ⟨n, by rw [FileTree.fileAt?, hn]⟩⟩

section Target

variable (h : IsTarget jobDir org repo) (ht : t.LinkFree)

include h ht

/-- A run that cannot make the directory of the repository leaves every file. -/
theorem applies_nil {t₁ : FileTree} (hext : t₁.Extends t)
    (hget : ∀ l, ¬l <+: (repoDir jobDir org repo).place → t₁.get? l = t.get? l) :
    t.Applies [] (t.plan jobDir org repo generated scan) none t₁ where
  holds := by simp
  rendered := by simp
  unchanged := by simp
  left f hf := by
    rw [entryAt?_of_mem_plan h ht hf ht, entryAt?_of_mem_plan h ht hf (hext.linkFree ht),
      hget _ (not_prefix_of_mem_plan h ht hf)]
  others l _ := by simp [leftAt?, hext.fileAt?]
  temporary d m c hc := by simpa [hext.fileAt?] using hc

section Prepared

variable {t₁ : FileTree} (hp : Prepared jobDir org repo t t₁)

include hp

/-- What is not planned is as it was before the directory was made, except beside a new text. -/
theorem Wrote.others {done : List Planned}
    (hplan : ∀ f ∈ done, f ∈ t.plan jobDir org repo generated scan) (hw : t₁.Wrote done t')
    (hl : ∀ f ∈ done, l ≠ f.path.place) : t'.fileAt? l = t.leftAt? done l := by
  have hgone : (∃ f ∈ done, outcomeOf (t₁.get? f.path.place) f.jobs = .written ∧
      l = (besides f.path).place) ↔
        ∃ f ∈ done, t.outcome f = .written ∧ l = (besides f.path).place :=
    exists_congr fun f => and_congr_right fun hf => by
      rw [outcome, hp.entryAt?_eq h ht (hplan f hf)]
  rw [hw.fileAt? l hl, hp.adds.fileAt?, leftAt?]
  simp only [hgone]

/-- The first files of a plan are written to the directory, and what follows changes nothing but
the file beside one that is torn. -/
theorem Wrote.applies {done rest : List Planned} {torn? : Option Planned} {t₂ : FileTree}
    (hplan : t.plan jobDir org repo generated scan = done ++ rest) (hw : t₁.Wrote done t₂)
    (ht' : t'.LinkFree) (htears : t.LeavesTorn torn? t₂ t') : t.Applies done rest torn? t' := by
  have hmem : ∀ f ∈ done ++ rest, f ∈ t.plan jobDir org repo generated scan := fun f hf =>
    hplan ▸ hf
  have hafter : ∀ f ∈ done ++ rest, t'.entryAt? f.path = t₂.get? f.path.place := fun f hf => by
    rw [entryAt?_of_mem_plan h ht (hmem f hf) ht']
    refine (htears f.path.place).resolve_right ?_
    rintro ⟨g, -, -, hg, -⟩
    obtain ⟨d, m, hb⟩ := place_besides g.path
    exact hp.place_ne_temporary h ht (hmem f hf) d m (hg.trans hb)
  have hholds : ∀ f ∈ done, t'.entryAt? f.path = entryOfJobs? f.jobs := fun f hf => by
    rw [hafter f (List.mem_append_left _ hf), hw.place f hf]
  have hothers : ∀ l, (∀ f ∈ done ++ rest, l ≠ f.path.place) → t'.fileAt? l = t.leftAt? done l ∨
      ∃ f ∈ torn?, t.outcome f = .written ∧ l = (besides f.path).place ∧
        (t'.fileAt? l = none ∨ ∃ n, t'.fileAt? l = some ((Utf8.encode f.jobs.text).take n)) :=
    fun l hl => (htears.fileAt? l).imp_left fun hsame => hsame.trans <|
      hw.others h ht hp (fun f hf => hmem f (List.mem_append_left _ hf)) fun f hf =>
        hl f (List.mem_append_left _ hf)
  refine ⟨hholds, hw.rendered, fun f hf hu => ?_, fun f hf => ?_, hothers, fun d m c hc => ?_⟩
  · rw [hholds f hf, outcomeOf_eq_unchanged.1 hu]
  · have hf' := List.mem_append_right done hf
    have hne : ∀ g ∈ done, f.path.place ≠ g.path.place := fun g hg => by
      have hpairs : (done ++ rest).Pairwise fun f g => f.path.place ≠ g.path.place :=
        hplan ▸ plan_places h ht
      exact ((List.pairwise_append.1 hpairs).2.2 g hg f hf).symm
    rw [hafter f hf', hp.entryAt?_eq h ht (hmem f hf'), hw.other _ hne, if_neg]
    rintro ⟨g, -, -, hg⟩
    obtain ⟨d, m, hb⟩ := place_besides g.path
    exact hp.place_ne_temporary h ht (hmem f hf') d m (hg.trans hb)
  · rcases hothers _ fun f hf => (hp.place_ne_temporary h ht (hmem f hf) d m).symm with
      hsame | ⟨f, hf, -, hb, -⟩
    · rw [hsame, leftAt?] at hc
      split at hc
      · cases hc
      · exact .inl hc
    · exact .inr ⟨f, hf, hb⟩

/-- A run in the directory that it has made writes its plan there. -/
theorem Prepared.writeAll_cases (generated : JobSet) (scan : Scanner) (disk : Storage) :
    (∃ t', writeAll false t₁ (t.plan jobDir org repo generated scan) disk =
        (.ok ((t.plan jobDir org repo generated scan).map fun f => (t.outcome f, f.path)), t') ∧
      t₁.Wrote (t.plan jobDir org repo generated scan) t') ∨
    ∃ done f rest e t', t.plan jobDir org repo generated scan = done ++ f :: rest ∧
      writeAll false t₁ (t.plan jobDir org repo generated scan) disk = (.error e, t') ∧
      t₁.Stops done f e t' := by
  have ht₁ := hp.adds.linkFree ht
  have hparents : ∀ f ∈ t.plan jobDir org repo generated scan, t₁.HasParent f.path := fun f hf =>
    hasParent_of_mem_plan h ht₁ hp.isDirectory (hp.mem_plan hf)
  have hbesides : ∀ f ∈ t.plan jobDir org repo generated scan, ∀ p,
      f.path.place ≠ (besides p).place :=
    fun f hf => place_ne_besides ht₁ h hp.isDirectory (hp.mem_plan hf)
  have hout : (t.plan jobDir org repo generated scan).map
      (fun f => (outcomeOf (t₁.get? f.path.place) f.jobs, f.path)) =
        (t.plan jobDir org repo generated scan).map fun f => (t.outcome f, f.path) :=
    List.map_congr_left fun f hf => by rw [outcome, hp.entryAt?_eq h ht hf]
  rw [← hout]
  exact FileTree.writeAll_cases ht₁ hparents (plan_places h ht) hbesides disk

end Prepared

/-- The outcomes of a run that ends well, and what it finds and leaves at the planned paths. -/
theorem shardInto_ok_outcomes {os : List (Outcome × Path)}
    (hrun : t.shardInto jobDir org repo generated false scan disk = (.ok os, t')) :
    os = (t.plan jobDir org repo generated scan).map (fun f => (t.outcome f, f.path)) ∧
      ∀ f ∈ t.plan jobDir org repo generated scan, t.Sees f.path ∧
        t.entryAt? f.path ≠ some .directory ∧ t'.entryAt? f.path = entryOfJobs? f.jobs ∧
        (f.jobs.isEmpty = false → f.jobs.render = .ok f.jobs.text) := by
  obtain ⟨t₁, hp, hw⟩ := shardInto_ok ht h hrun
  obtain ⟨t₂, hok, hwrote⟩ | ⟨done, f, rest, e, t₂, -, herr, -⟩ :=
    hp.writeAll_cases h ht generated scan .sound
  · rw [hw, Prod.mk.injEq, Except.ok.injEq] at hok
    obtain ⟨rfl, rfl⟩ := hok
    refine ⟨rfl, fun f hf => ⟨hp.sees h ht hf, ?_, ?_, hwrote.rendered f hf⟩⟩
    · rw [hp.entryAt?_eq h ht hf]
      exact hwrote.free hf
    · rw [entryAt?_of_mem_plan h ht hf hwrote.linkFree, hwrote.place f hf]
  · rw [hw] at herr
    cases herr

/-- What a run that stops at a file comes to. -/
theorem Stops.applies {t₁ : FileTree} {done rest : List Planned} {e : Failure}
    (hp : Prepared jobDir org repo t t₁)
    (hplan : t.plan jobDir org repo generated scan = done ++ f :: rest)
    (hs : t₁.Stops done f e t') : ∃ torn?, t.Applies done (f :: rest) torn? t' ∧
      ∀ g ∈ torn?, g = f ∧ e.IsFault := by
  obtain ⟨t₂, hw, htears, hor⟩ := hs
  by_cases hsame : t'.get? (besides f.path).place = t₂.get? (besides f.path).place
  · refine ⟨none, hw.applies h ht hp hplan htears.linkFree fun k => .inl ?_, by simp⟩
    by_cases hk : k = (besides f.path).place
    · rw [hk, hsame]
    · exact htears.same k hk
  · obtain ⟨he, hleft⟩ := htears.beside.resolve_left hsame
    have hout : t.outcome f = .written := by
      have hf : f ∈ t.plan jobDir org repo generated scan := by simp [hplan]
      rw [outcome, hp.entryAt?_eq h ht hf]
      refine hor.resolve_left ?_
      rintro rfl
      exact hsame rfl
    refine ⟨some f, hw.applies h ht hp hplan htears.linkFree fun k => ?_, ?_⟩
    · by_cases hk : k = (besides f.path).place
      · subst hk
        exact .inr ⟨f, rfl, hout, rfl, hleft⟩
      · exact .inl (htears.same k hk)
    · rintro g ⟨⟩
      exact ⟨rfl, he⟩

/-- How far a run comes. -/
theorem exists_applies (generated : JobSet) (scan : Scanner) (disk : Storage) :
    ∃ done rest torn?, t.plan jobDir org repo generated scan = done ++ rest ∧
      t.Applies done rest torn? (t.shardInto jobDir org repo generated false scan disk).2 ∧
      match (t.shardInto jobDir org repo generated false scan disk).1 with
      | .ok os => rest = [] ∧ torn? = none ∧ os = done.map fun f => (t.outcome f, f.path)
      | .error e => (done = [] ∨ rest ≠ []) ∧ ∀ f ∈ torn?, rest.head? = some f ∧ e.IsFault := by
  obtain ⟨e, t₁, hext, hget, hrun⟩ | ⟨t₁, hp, hrun⟩ := shardInto_cases ht h generated scan disk
  · rw [hrun]
    exact ⟨[], _, none, rfl, applies_nil h ht hext hget, .inl rfl, by simp⟩
  · rw [hrun]
    rcases hp.writeAll_cases h ht generated scan disk with
      ⟨t', hok, hw⟩ | ⟨done, f, rest, e, t', hplan, herr, hs⟩
    · rw [hok]
      exact ⟨_, [], none, (List.append_nil _).symm,
        hw.applies h ht hp (List.append_nil _).symm hw.linkFree fun k => .inl rfl, rfl, rfl, rfl⟩
    · rw [herr]
      obtain ⟨torn?, happ, htorn⟩ := hs.applies h ht hp hplan
      refine ⟨done, f :: rest, torn?, hplan, happ, .inr (by simp), fun g hg => ?_⟩
      obtain ⟨rfl, he⟩ := htorn g hg
      exact ⟨rfl, he⟩

/-- A run writes its plan in the order of the paths, each file once. If it ends well it gives one
outcome for each of them, the one that what stood at its path decides; if it fails, it has written
the files before one of them and left that one and those after it. Only a fault of the storage tears
anything, and only what is beside the file where the run stops. -/
theorem shardInto_applies (generated : JobSet) (scan : Scanner) (disk : Storage) :
    (t.plan jobDir org repo generated scan).Pairwise (fun f g =>
      compare f.path.sortKey g.path.sortKey = .lt) ∧
    ∃ done rest torn?, t.plan jobDir org repo generated scan = done ++ rest ∧
      t.Applies done rest torn? (t.shardInto jobDir org repo generated false scan disk).2 ∧
      match (t.shardInto jobDir org repo generated false scan disk).1 with
      | .ok os => rest = [] ∧ torn? = none ∧ os = done.map fun f => (t.outcome f, f.path)
      | .error e => (done = [] ∨ rest ≠ []) ∧ ∀ f ∈ torn?, rest.head? = some f ∧ e.IsFault :=
  ⟨plan_increasing ht h.org h.repo, exists_applies h ht generated scan disk⟩

end Target

/-! ### A run that stops -/

/-- One job without a marker. -/
def plainJobs : JobSet where
  presubmits := .ofList [("o/r", [{ name := "a" }])]

/-- One job of another kind. -/
def plainPostsubmits : JobSet where
  postsubmits := .ofList [("o/r", [{ name := "p" }])]

/-- Jobs for two files. -/
def jobsForTwo : JobSet :=
  plainPostsubmits.append plainJobs

/-- Storage that is full once twelve bytes are written to a path. -/
def fullDisk (p : Path) : Storage where
  refuses
    | _, .writeFile q _ => if q = p then some .full else none
    | _, _ => none
  keeps _ _ := some 12

/-- A run on storage that is full when the second file is written. -/
def tornRun : Except Failure (List (Outcome × Path)) × FileTree :=
  (smallTree []).shardInto smallDir "o" "r" jobsForTwo false .inOrder
    (fullDisk (besides (smallPath "o-r-master-presubmits.yaml")))

set_option maxRecDepth 100000 in
theorem tornRun_spec : (smallTree []).LinkFree ∧
    (smallTree []).fileAt? (besides (smallPath "o-r-master-presubmits.yaml")).place = none ∧
    (∀ f ∈ (smallTree []).plan smallDir "o" "r" jobsForTwo,
      (besides (smallPath "o-r-master-presubmits.yaml")).place ≠ f.path.place) ∧
    tornRun.1.toOption = none ∧
    tornRun.2.entryAt? (smallPath "o-r-master-postsubmits.yaml") = entryOfJobs? plainPostsubmits ∧
    tornRun.2.entryAt? (smallPath "o-r-master-presubmits.yaml") = none ∧
    tornRun.2.fileAt? (besides (smallPath "o-r-master-presubmits.yaml")).place =
      some (Utf8.encode "presubmits:\n") := by
  decide +kernel

/-- The first file is written, the second is left, and the file beside it is torn. -/
theorem shardInto_applies_tornRun :
    (∃ done rest f, (smallTree []).plan smallDir "o" "r" jobsForTwo = done ++ f :: rest ∧
      (smallTree []).Applies done (f :: rest) (some f) tornRun.2) ∧
    tornRun.2.entryAt? (smallPath "o-r-master-postsubmits.yaml") = entryOfJobs? plainPostsubmits ∧
    tornRun.2.entryAt? (smallPath "o-r-master-presubmits.yaml") = none := by
  obtain ⟨ht, hnone, hnot, hfails, hfirst, hsecond, htorn⟩ := tornRun_spec
  obtain ⟨-, done, rest, torn?, hsplit, happ, hres⟩ := shardInto_applies isTarget_small ht
    jobsForTwo .inOrder (fullDisk (besides (smallPath "o-r-master-presubmits.yaml")))
  rw [← tornRun] at happ hres
  -- only what is torn can be new beside a file
  obtain ⟨f, rfl⟩ : ∃ f, torn? = some f := by
    rcases happ.others _ fun f hf => hnot f (hsplit ▸ hf) with hsame | ⟨f, hf, -⟩
    · rw [htorn, leftAt?, hnone, ite_self] at hsame
      cases hsame
    · exact ⟨f, hf⟩
  cases hrun : tornRun.1 with
  | ok os =>
    rw [hrun] at hfails
    cases hfails
  | error e =>
    rw [hrun] at hres
    obtain ⟨rest, rfl⟩ := List.head?_eq_some_iff.1 (hres.2 f rfl).1
    exact ⟨⟨done, rest, f, hsplit, happ⟩, hfirst, hsecond⟩

/-- A job directory whose path is no text. -/
def lossyDir : Path :=
  ⟨[0xff]⟩

theorem isTarget_lossyDir : IsTarget lossyDir "o" "r" :=
  ⟨by decide, by decide, by decide⟩

/-- The file in another directory that is called as the one beside a new file there. -/
def bystander : Location :=
  ["\uFFFD", "o", "r", "o-r-master-presubmits.yaml.jobshard.tmp"].map Utf8.encode

/-- A tree with that file. -/
def bystanderTree : FileTree :=
  ((((∅ : FileTree).put (bystander.take 1) .directory).put (bystander.take 2) .directory).put
    (bystander.take 3) .directory).put bystander (.file [])

/-- A run that does not come to what is planned from one scan, since it starts from another. -/
def twinRun : Except Failure (List (Outcome × Path)) × FileTree :=
  twinTree.shardInto smallDir "o" "r" plainJobs false .reversed

set_option maxRecDepth 100000 in
theorem twinRun_spec : twinTree.LinkFree ∧
    twinRun.1.toOption = some [(.unchanged, smallPath "o/r/o-r-master-presubmits.yaml"),
      (.written, smallPath "o-r-master-presubmits.yaml")] ∧
    ∃ f ∈ twinTree.plan smallDir "o" "r" plainJobs,
      twinRun.2.entryAt? f.path ≠ entryOfJobs? f.jobs := by
  decide +kernel

/-- A run whose job directory is no text. -/
def lossyRun : Except Failure (List (Outcome × Path)) × FileTree :=
  bystanderTree.shardInto lossyDir "o" "r" plainJobs false

set_option maxRecDepth 100000 in
theorem lossyRun_spec : bystanderTree.LinkFree ∧
    lossyRun.1.toOption = some [(.written,
      (repoDir lossyDir "o" "r").join (.ofString "o-r-master-presubmits.yaml"))] ∧
    bystanderTree.fileAt? bystander = some [] ∧ lossyRun.2.fileAt? bystander = none ∧
    ¬(repoDir lossyDir "o" "r").place <+: bystander := by
  decide +kernel

/-- A run may leave a file other than it was planned, as its own scan hands over the files in
another order; it may remove a file that is not beside any planned one; and where the storage fails
it may leave a new file beside one that is not written. -/
theorem shardInto_oversteps :
    (twinTree.LinkFree ∧ twinRun.1.toOption.isSome ∧
      ∃ f ∈ twinTree.plan smallDir "o" "r" plainJobs,
        twinRun.2.entryAt? f.path ≠ entryOfJobs? f.jobs) ∧
    (IsTarget lossyDir "o" "r" ∧ bystanderTree.LinkFree ∧
      lossyRun.1.toOption = some [(.written,
        (repoDir lossyDir "o" "r").join (.ofString "o-r-master-presubmits.yaml"))] ∧
      bystanderTree.fileAt? bystander = some [] ∧ lossyRun.2.fileAt? bystander = none ∧
      ¬(repoDir lossyDir "o" "r").place <+: bystander) ∧
    ((smallTree []).LinkFree ∧ tornRun.1.toOption = none ∧
      (smallTree []).fileAt? (besides (smallPath "o-r-master-presubmits.yaml")).place = none ∧
      tornRun.2.fileAt? (besides (smallPath "o-r-master-presubmits.yaml")).place =
        some (Utf8.encode "presubmits:\n")) := by
  obtain ⟨htwin, hos, hother⟩ := twinRun_spec
  obtain ⟨hsmall, hnone, -, hfails, -, -, htorn⟩ := tornRun_spec
  refine ⟨⟨htwin, ?_, hother⟩, ⟨isTarget_lossyDir, lossyRun_spec⟩, hsmall, hfails, hnone, htorn⟩
  rw [hos]
  rfl

end JobConfig.FileTree
