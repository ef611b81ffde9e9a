import JobConfig.Proofs.DryRun
import JobConfig.Proofs.Local

/-!
# Repositories do not interfere

A run changes no file but those below the directory of its repository, and what it makes there for a
shard lies directly in it. It makes directories on the way there and nowhere else. Only where the
path of the directory is no text, the file beside a planned one lies elsewhere, in the directory as
it is shown. So a run leaves what a run for another repository depends on as it is, and the two come
to the same in either order, as long as the scans do not give a shard another receiver.
-/

namespace JobConfig

open Utf8 (shown)

/-! ### Places that are shown -/

namespace Path

variable {p : Path}

/-- The path of a text leads to the place that is shown. -/
theorem IsText.place_map_shown (hp : p.IsText) : p.place.map shown = p.place := by
  have h := placeFrom_map_shown [] p.pieces
  rw [hp.map_shown_pieces] at h
  exact h.symm

end Path

theorem place_repoDir {org repo : String} (ho : Path.IsPlain org) (hr : Path.IsPlain repo)
    (jobDir : Path) : (repoDir jobDir org repo).place =
      jobDir.place ++ [Utf8.encode org, Utf8.encode repo] := by
  rw [repoDir, Path.ofString, Path.ofString, Path.place_join (Path.isName_encode.2 hr),
    Path.place_join (Path.isName_encode.2 ho), List.append_assoc]
  rfl

theorem isText_repoDir {jobDir : Path} {org repo : String} (ho : Path.IsPlain org)
    (hr : Path.IsPlain repo) (h : jobDir.IsText) : (repoDir jobDir org repo).IsText :=
  (h.join ho).join hr

namespace FileTree

variable {t t' : FileTree} {jobDir : Path} {org repo org' repo' : String}
  {generated generated' : JobSet} {dryRun : Bool} {l c c' : Location} {scan : Scanner}

/-- Trees that have the same everywhere are the same. -/
theorem ext_get? (h : ∀ l, t.get? l = t'.get? l) : t = t' := by
  have hroot : ∀ t : FileTree, t.entries.get? [] = none := fun t => by
    rw [Option.eq_none_iff_forall_ne_some]
    intro e he
    simpa using (t.held _ _ he).1
  have he : t.entries = t'.entries := KeyMap.ext_get? fun l => by
    by_cases hl : l = []
    · rw [hl, hroot, hroot]
    · rw [← get?_of_ne_nil hl, ← get?_of_ne_nil hl, h]
  cases t
  cases t'
  cases he
  rfl

/-! ### What a run changes -/

/-- Whether a location lies below another. -/
def IsBelow (c l : Location) : Prop :=
  c <+: l ∧ l ≠ c

theorem isBelow_append {names : Location} (hne : names ≠ []) : IsBelow c (c ++ names) :=
  ⟨List.prefix_append c names, by simpa using hne⟩

theorem LeadsInto.isBelow {p : Path} {cs : List Location} (hp : LeadsInto cs p) :
    ∃ c ∈ cs, IsBelow c p.place := by
  obtain ⟨c, hc, hb⟩ := hp.below
  obtain ⟨l, n, hplace, -⟩ := hp.name.exists_place
  rw [hplace, List.dropLast_concat] at hb
  obtain ⟨names, rfl⟩ := hb
  refine ⟨c, hc, ?_⟩
  rw [hplace, List.append_assoc]
  exact isBelow_append (by simp)

/-- Planned paths and those beside them lead to what a run depends on. -/
theorem leadsInto_of_mem_plan (ht : t.LinkFree) (h : IsTarget jobDir org repo) {f : Planned}
    (hf : f ∈ t.plan jobDir org repo generated scan) : LeadsInto (homes jobDir org repo) f.path ∧
      LeadsInto (homes jobDir org repo) (besides f.path) := by
  obtain ⟨names, hne, hn, hp⟩ := names_of_mem_plan h ht hf
  rw [hp]
  exact ⟨leadsInto_under h hne hn, leadsInto_besides h hne hn⟩

/-- A planned file lies below the directory of the repository, and the one beside it below that
directory as it is shown. -/
theorem isBelow_of_mem_plan (ht : t.LinkFree) (h : IsTarget jobDir org repo) {f : Planned}
    (hf : f ∈ t.plan jobDir org repo generated scan) :
    IsBelow (repoDir jobDir org repo).place f.path.place ∧
      IsBelow ((repoDir jobDir org repo).place.map shown) (besides f.path).place := by
  obtain ⟨names, hne, hn, hp⟩ := names_of_mem_plan h ht hf
  rw [hp, place_under hn]
  refine ⟨isBelow_append hne, ?_⟩
  obtain ⟨ms, m, rfl, hms, hm⟩ := hn.exists_concat hne
  rw [under_append_singleton, place_besides_join hm, place_under hms, List.map_append,
    List.append_assoc]
  exact isBelow_append (by simp)

/-- A run does nothing, or makes the directory of its repository and writes files of its plan
there. If it stops it may change what is beside one. -/
theorem shardInto_wrote (ht : t.LinkFree) (h : IsTarget jobDir org repo) (generated : JobSet)
    (dryRun : Bool) (scan : Scanner) :
    (t.shardInto jobDir org repo generated dryRun scan).2 = t ∧
        ¬(dryRun = false ∧ t.hindrance? (repoDir jobDir org repo) = none) ∨
      (dryRun = false ∧ t.hindrance? (repoDir jobDir org repo) = none) ∧
        ∃ (t₁ : FileTree) (done : List Planned) (t₂ : FileTree), (∀ l, t₁.get? l =
            if l <+: (repoDir jobDir org repo).place then some .directory else t.get? l) ∧
          (∀ f ∈ done, f ∈ t.plan jobDir org repo generated scan) ∧ t₁.Wrote done t₂ ∧
          ∀ l, (∀ f ∈ t.plan jobDir org repo generated scan, l ≠ (besides f.path).place) →
            (t.shardInto jobDir org repo generated dryRun scan).2.get? l = t₂.get? l := by
  cases dryRun with
  | true => exact .inl ⟨shardInto_dry_snd .sound t jobDir org repo generated scan, by simp⟩
  | false =>
    have hm := makes_makeDirectories ht (endsInName_repoDir h)
      (Path.dots_not_mem_pieces h.up_not_mem)
    rw [Makes] at hm
    rw [shardInto]
    simp only [Bool.false_eq_true, if_false, true_and]
    cases hh : t.hindrance? (repoDir jobDir org repo) with
    | some r =>
      rw [hh] at hm
      simp only [hm]
      exact .inl ⟨trivial, by simp⟩
    | none =>
      rw [hh] at hm
      obtain ⟨hok, hget⟩ := hm
      cases hmake : t.makeDirectories (repoDir jobDir org repo) with
      | mk r t₁ =>
        rw [hmake] at hok hget
        obtain rfl : r = .ok () := hok
        have hp := prepared_of_makeDirectories ht h hmake
        refine .inr ⟨rfl, t₁, ?_⟩
        simp only [plan_congr (hp.found scan)]
        rcases hp.writeAll_cases h ht generated scan .sound with
          ⟨t', hrun, hw⟩ | ⟨done, f, rest, e, t', hplan, hrun, t₂, hw, htears, -⟩
        · rw [hrun]
          exact ⟨_, t', hget, fun f hf => hf, hw, fun l _ => rfl⟩
        · rw [hrun]
          refine ⟨done, t₂, hget, fun g hg => ?_, hw, fun l hl => htears.same l (hl f ?_)⟩
          · exact hplan ▸ List.mem_append_left _ hg
          · exact hplan ▸ List.mem_append_right _ List.mem_cons_self

/-- Where a run does not write, it makes directories on the way or nothing. -/
theorem get?_shardInto (ht : t.LinkFree) (h : IsTarget jobDir org repo) (generated : JobSet)
    (dryRun : Bool) (scan : Scanner) (hl : ∀ c ∈ homes jobDir org repo, ¬IsBelow c l) :
    (t.shardInto jobDir org repo generated dryRun scan).2.get? l =
      if (dryRun = false ∧ t.hindrance? (repoDir jobDir org repo) = none) ∧
        l <+: (repoDir jobDir org repo).place then some .directory else t.get? l := by
  rcases shardInto_wrote ht h generated dryRun scan with
    ⟨hsame, hno⟩ | ⟨hopen, t₁, done, t₂, hget, hd, hw, hleft⟩
  · rw [hsame, if_neg fun hboth => hno hboth.1]
  · have hplace : ∀ {p}, LeadsInto (homes jobDir org repo) p → l ≠ p.place := by
      rintro p hp rfl
      obtain ⟨c, hc, hb⟩ := hp.isBelow
      exact hl c hc hb
    have hout : ∀ f ∈ t.plan jobDir org repo generated scan,
        l ≠ f.path.place ∧ l ≠ (besides f.path).place := fun f hf =>
      (leadsInto_of_mem_plan ht h hf).imp hplace hplace
    rw [hleft l fun f hf => (hout f hf).2, hw.other l fun f hf => (hout f (hd f hf)).1, if_neg,
      hget]
    · simp only [hopen, true_and, and_self]
    · rintro ⟨f, hf, -, heq⟩
      exact (hout f (hd f hf)).2 heq

theorem fileAt?_shardInto (ht : t.LinkFree) (h : IsTarget jobDir org repo) (generated : JobSet)
    (dryRun : Bool) (scan : Scanner) (hl : ∀ c ∈ homes jobDir org repo, ¬IsBelow c l) :
    (t.shardInto jobDir org repo generated dryRun scan).2.fileAt? l = t.fileAt? l := by
  have hget := get?_shardInto ht h generated dryRun scan hl
  split at hget
  · -- a file on the way would have kept the directory from being made
    rename_i hopen
    obtain ⟨⟨-, hnone⟩, hl⟩ := hopen
    rw [fileAt?_of_directory hget]
    by_contra hf
    exact hindrance?_eq_none_iff.1 hnone (blocked_iff.2 ⟨l, hl, Ne.symm hf⟩)
  · rw [fileAt?, hget, fileAt?]

/-! ### Runs for two repositories -/

theorem Agree.refl (ht : t.LinkFree) (cs : List Location) : Agree cs t t :=
  ⟨ht, ht, fun _ _ => ⟨fun _ _ => rfl, fun _ _ => rfl⟩⟩

theorem linkFree_shardInto (ht : t.LinkFree) (h : IsTarget jobDir org repo) (generated : JobSet)
    (dryRun : Bool) (scan : Scanner) :
    (t.shardInto jobDir org repo generated dryRun scan).2.LinkFree := by
  obtain ⟨r, t₁, t₁', hr, -, h₁⟩ := (Agree.refl ht _).shardInto h
    (.refl (generated.shards org repo) _ (t.found _ scan)) dryRun
  rw [hr]
  exact h₁.linkFree

/-- The locations that runs for two repositories depend on are as deep and not the same. -/
theorem homes_apart (h : IsTarget jobDir org repo) (h' : IsTarget jobDir org' repo')
    (hne : (org', repo') ≠ (org, repo)) (hc : c ∈ homes jobDir org repo)
    (hc' : c' ∈ homes jobDir org' repo') : c.length = c'.length ∧ c ≠ c' := by
  have hhomes : ∀ {org repo : String} {c : Location}, IsTarget jobDir org repo →
      c ∈ homes jobDir org repo → ∃ d : Location, d.length = jobDir.place.length ∧
        c = d ++ [Utf8.encode org, Utf8.encode repo] := by
    intro org repo c h hc
    rw [homes, place_repoDir h.org h.repo] at hc
    rcases List.mem_pair.1 hc with rfl | rfl
    · exact ⟨_, rfl, rfl⟩
    · exact ⟨jobDir.place.map shown, List.length_map _, by simp⟩
  obtain ⟨d, hd, rfl⟩ := hhomes h hc
  obtain ⟨d', hd', rfl⟩ := hhomes h' hc'
  refine ⟨by simp [hd, hd'], fun heq => hne ?_⟩
  have hnames := (List.append_inj heq (hd.trans hd'.symm)).2
  simp only [List.cons.injEq, Utf8.encode_inj, and_true] at hnames
  rw [hnames.1, hnames.2]

/-- A run leaves what a run for another repository depends on. -/
theorem agree_shardInto (ht : t.LinkFree) (h : IsTarget jobDir org repo)
    (h' : IsTarget jobDir org' repo') (hne : (org', repo') ≠ (org, repo)) (generated : JobSet)
    (dryRun : Bool) (scan : Scanner) :
    Agree (homes jobDir org' repo') t (t.shardInto jobDir org repo generated dryRun scan).2 := by
  refine ⟨ht, linkFree_shardInto ht h generated dryRun scan, fun c' hc' => ⟨fun l hl => ?_,
    fun l hl => ?_⟩⟩
  · refine fileAt?_shardInto ht h generated dryRun scan fun c hc hbelow => ?_
    -- what lies on the way to a location is not below one as deep
    have hlen := (homes_apart h h' hne hc hc').1
    exact hbelow.2 (hbelow.1.eq_of_length_le (hlen ▸ hl.length_le)).symm
  · have hapart : ∀ c ∈ homes jobDir org repo, ¬c <+: l := fun c hc hcl => by
      obtain ⟨hlen, hne⟩ := homes_apart h h' hne hc hc'
      exact hne ((List.prefix_of_prefix_length_le hcl hl hlen.le).eq_of_length hlen)
    rw [get?_shardInto ht h generated dryRun scan fun c hc hbelow => hapart c hc hbelow.1, if_neg]
    rintro ⟨-, hlc⟩
    have hlen := (homes_apart h h' hne List.mem_cons_self hc').1
    refine hapart _ List.mem_cons_self ?_
    rw [hlc.eq_of_length_le (hlen ▸ hl.length_le)]

/-- What it means that two runs come to the same in either order: each gives what it gives if it
comes second, and both leave the same tree. A run that comes second scans on its own. -/
def Independent (t : FileTree)
    (run second run' second' : FileTree → Except Failure (List (Outcome × Path)) × FileTree) :
    Prop :=
  (second (run' t).2).1 = (run t).1 ∧ (second' (run t).2).1 = (run' t).1 ∧
    (second' (run t).2).2 = (second (run' t).2).2

section Both

variable {scan' scan₁ scan₁' : Scanner} (ht : t.LinkFree) (h : IsTarget jobDir org repo)
  (h' : IsTarget jobDir org' repo') (hne : (org', repo') ≠ (org, repo))
  (hsame : SameReceivers (generated.shards org repo) (repoDir jobDir org repo)
    (t.found (repoDir jobDir org repo) scan)
    ((t.shardInto jobDir org' repo' generated' dryRun' scan').2.found (repoDir jobDir org repo)
      scan₁))

include ht h h' hne hsame

/-- A run that comes second comes to the same, and leaves its locations the same. -/
theorem shardInto_shardInto (dryRun : Bool) : ∃ r u v,
    t.shardInto jobDir org repo generated dryRun scan = (r, u) ∧
      (t.shardInto jobDir org' repo' generated' dryRun' scan').2.shardInto jobDir org repo generated
        dryRun scan₁ = (r, v) ∧ Agree (homes jobDir org repo) u v :=
  (agree_shardInto ht h' h hne.symm generated' dryRun' scan').shardInto h hsame dryRun

/-- At the locations of one run the other changes nothing, be it before that run or after. -/
theorem get?_shardInto_shardInto (dryRun : Bool) (hc : c ∈ homes jobDir org repo) (hl : c <+: l) :
    ((t.shardInto jobDir org' repo' generated' dryRun' scan').2.shardInto jobDir org repo generated
        dryRun scan₁).2.get? l =
      ((t.shardInto jobDir org repo generated dryRun scan).2.shardInto jobDir org' repo' generated'
        dryRun' scan₁').2.get? l := by
  have hafter := agree_shardInto (linkFree_shardInto ht h generated dryRun scan) h' h hne.symm
    generated' dryRun' scan₁'
  obtain ⟨r, u, v, hu, hv, hagree⟩ := shardInto_shardInto ht h h' hne hsame dryRun
  rw [(hafter.alike c hc).get? l hl, hu, hv]
  exact (hagree.alike c hc).get? l hl

theorem independent_shardInto
    (hsame' : SameReceivers (generated'.shards org' repo') (repoDir jobDir org' repo')
      (t.found (repoDir jobDir org' repo') scan')
      ((t.shardInto jobDir org repo generated dryRun scan).2.found (repoDir jobDir org' repo')
        scan₁')) :
    t.Independent (·.shardInto jobDir org repo generated dryRun scan)
      (·.shardInto jobDir org repo generated dryRun scan₁)
      (·.shardInto jobDir org' repo' generated' dryRun' scan')
      (·.shardInto jobDir org' repo' generated' dryRun' scan₁') := by
  have hagree := agree_shardInto ht h' h hne.symm generated' dryRun' scan'
  have hagree' := agree_shardInto ht h h' hne generated dryRun scan
  refine ⟨?_, ?_, ext_get? fun l => ?_⟩
  · obtain ⟨r, u, v, hu, hv, -⟩ := shardInto_shardInto ht h h' hne hsame dryRun
    simp only [hu, hv]
  · obtain ⟨r, u, v, hu, hv, -⟩ := shardInto_shardInto ht h' h hne.symm hsame' dryRun'
    simp only [hu, hv]
  · by_cases hl : ∃ c ∈ homes jobDir org repo, c <+: l
    · obtain ⟨c, hc, hl⟩ := hl
      exact (get?_shardInto_shardInto ht h h' hne hsame dryRun hc hl).symm
    by_cases hl' : ∃ c ∈ homes jobDir org' repo', c <+: l
    · obtain ⟨c, hc, hl'⟩ := hl'
      exact get?_shardInto_shardInto ht h' h hne.symm hsame' dryRun' hc hl'
    · -- elsewhere each makes its directories, whether the other has made its own or not
      have hout : ∀ c ∈ homes jobDir org repo, ¬IsBelow c l := fun c hc hb => hl ⟨c, hc, hb.1⟩
      have hout' : ∀ c ∈ homes jobDir org' repo', ¬IsBelow c l := fun c hc hb => hl' ⟨c, hc, hb.1⟩
      have hfree := linkFree_shardInto ht h generated dryRun scan
      have hfree' := linkFree_shardInto ht h' generated' dryRun' scan'
      simp only [get?_shardInto hfree h' generated' dryRun' scan₁' hout',
        get?_shardInto hfree' h generated dryRun scan₁ hout,
        get?_shardInto ht h generated dryRun scan hout,
        get?_shardInto ht h' generated' dryRun' scan' hout',
        hagree.hindrance? List.mem_cons_self List.prefix_rfl,
        hagree'.hindrance? List.mem_cons_self List.prefix_rfl]
      split <;> split <;> rfl

end Both

/-- Where no shard has the name of two files, it has the same receiver after a run for another
repository as before. -/
theorem sameReceivers_shardInto (ht : t.LinkFree) (h : IsTarget jobDir org repo)
    (h' : IsTarget jobDir org' repo') (hne : (org', repo') ≠ (org, repo))
    (hone : OneTaker (generated.shards org repo) (t.found (repoDir jobDir org repo) scan))
    (generated' : JobSet) (dryRun' : Bool) (scan' scan₁ : Scanner) :
    SameReceivers (generated.shards org repo) (repoDir jobDir org repo)
      (t.found (repoDir jobDir org repo) scan)
      ((t.shardInto jobDir org' repo' generated' dryRun' scan').2.found (repoDir jobDir org repo)
        scan₁) :=
  hone.sameReceivers ((agree_shardInto ht h' h hne.symm generated' dryRun' scan').found_perm h scan
    scan₁) _

/-! ### What a run keeps to -/

/-- What it means that a run keeps to the directory of its repository: it plans files below it only,
and only those change, and the files beside them, which are below it as well if its path is a text;
a file that was not there is that of a shard and lies directly in it, or is torn by a fault of the
storage; and a directory that was not there is that directory or one on the way to it. -/
structure Confined (jobDir : Path) (org repo : String) (generated : JobSet) (t : FileTree)
    (result : Except Failure (List (Outcome × Path)) × FileTree) : Prop where
  planned : ∀ scan, ∀ f ∈ t.plan jobDir org repo generated scan,
    IsBelow (repoDir jobDir org repo).place f.path.place ∧
      IsBelow ((repoDir jobDir org repo).place.map shown) (besides f.path).place
  files : ∀ l, result.2.fileAt? l ≠ t.fileAt? l → IsBelow (repoDir jobDir org repo).place l ∨
    ¬jobDir.IsText ∧ ∃ f ∈ t.plan jobDir org repo generated, l = (besides f.path).place
  created : ∀ l c, t.fileAt? l = none → result.2.fileAt? l = some c →
    (∃ n s, (generated.shards org repo).get? n = some s ∧
      l = (repoDir jobDir org repo).place ++ [Utf8.encode n]) ∨
    (∃ e, result.1 = .error e ∧ e.IsFault) ∧
      ∃ f ∈ t.plan jobDir org repo generated, l = (besides f.path).place
  keeps : t.KeepsDirectories result.2
  directories : ∀ l, result.2.get? l = some .directory →
    t.get? l = some .directory ∨ l <+: (repoDir jobDir org repo).place

theorem confined_refl (ht : t.LinkFree) (h : IsTarget jobDir org repo) (generated : JobSet)
    (r : Except Failure (List (Outcome × Path))) :
    Confined jobDir org repo generated t (r, t) where
  planned _ _ hf := isBelow_of_mem_plan ht h hf
  files _ hl := absurd rfl hl
  created l c hl hc := by
    rw [hl] at hc
    cases hc
  keeps _ hl := hl
  directories _ hl := .inl hl

/-- Where files are written and one of them may be torn, no directory is made or removed. -/
theorem Tears.directory {t₂ : FileTree} {p : Path} {content : Bytes} {e : Failure}
    (htears : t₂.Tears p content e t') (hl : t'.get? l = some .directory) :
    t₂.get? l = some .directory := by
  by_cases hk : l = (besides p).place
  · subst hk
    rcases htears.beside with hsame | ⟨-, hnone | ⟨n, hn⟩⟩
    · rw [← hsame, hl]
    · rw [hl] at hnone
      cases hnone
    · rw [hl] at hn
      cases hn
  · rw [← htears.same l hk, hl]

/-- Directories that a run makes lie on the way to that of its repository. -/
theorem directories_shardInto (ht : t.LinkFree) (h : IsTarget jobDir org repo)
    (generated : JobSet) (scan : Scanner) (disk : Storage) :
    t.KeepsDirectories (t.shardInto jobDir org repo generated false scan disk).2 ∧
      ∀ l, (t.shardInto jobDir org repo generated false scan disk).2.get? l = some .directory →
        t.get? l = some .directory ∨ l <+: (repoDir jobDir org repo).place := by
  have hmade : ∀ {t₁ : FileTree}, (∀ l, ¬l <+: (repoDir jobDir org repo).place →
      t₁.get? l = t.get? l) → ∀ l, t₁.get? l = some .directory →
        t.get? l = some .directory ∨ l <+: (repoDir jobDir org repo).place := by
    intro t₁ hget l hl
    by_cases hway : l <+: (repoDir jobDir org repo).place
    · exact .inr hway
    · exact .inl (hget l hway ▸ hl)
  obtain ⟨e, t₁, hext, hget, hrun⟩ | ⟨t₁, hp, hrun⟩ := shardInto_cases ht h generated scan disk
  · rw [hrun]
    exact ⟨hext.keepsDirectories, hmade hget⟩
  · rw [hrun]
    rcases hp.writeAll_cases h ht generated scan disk with
      ⟨t', hok, hw⟩ | ⟨done, f, rest, e, t', -, herr, t₂, hw, htears, -⟩
    · rw [hok]
      exact ⟨fun l hl => hw.keeps l (hp.adds.keepsDirectories l hl),
        fun l hl => hmade hp.elsewhere l (hw.directory hl)⟩
    · rw [herr]
      exact ⟨fun l hl => htears.keeps l (hw.keeps l (hp.adds.keepsDirectories l hl)),
        fun l hl => hmade hp.elsewhere l (hw.directory (htears.directory hl))⟩

/-- Of the files that are not planned a run changes only those beside planned ones. It makes none of
these, but a fault of the storage may leave one. -/
theorem fileAt?_shardInto_cases (ht : t.LinkFree) (h : IsTarget jobDir org repo)
    (generated : JobSet) (scan : Scanner) (disk : Storage) (l : Location) :
    (∃ f ∈ t.plan jobDir org repo generated scan, l = f.path.place) ∨
    (t.shardInto jobDir org repo generated false scan disk).2.fileAt? l = t.fileAt? l ∨
    ∃ f ∈ t.plan jobDir org repo generated scan, l = (besides f.path).place ∧
      ((t.shardInto jobDir org repo generated false scan disk).2.fileAt? l = none ∨
        ∃ e, (t.shardInto jobDir org repo generated false scan disk).1 = .error e ∧
          e.IsFault) := by
  obtain ⟨done, rest, torn?, hplan, happ, hres⟩ := exists_applies h ht generated scan disk
  rw [hplan]
  by_cases hp : ∃ f ∈ done ++ rest, l = f.path.place
  · exact .inl hp
  simp only [not_exists, not_and] at hp
  refine .inr ?_
  rcases happ.others l hp with hleft | ⟨f, hf, -, hb, -⟩
  · rw [hleft, leftAt?]
    split
    · rename_i hgone
      obtain ⟨f, hf, -, hb⟩ := hgone
      exact .inr ⟨f, List.mem_append_left _ hf, hb, .inl rfl⟩
    · exact .inl rfl
  · cases hr : (t.shardInto jobDir org repo generated false scan disk).1 with
    | ok os =>
      rw [hr] at hres
      rw [hres.2.1] at hf
      cases hf
    | error e =>
      rw [hr] at hres
      obtain ⟨hhead, he⟩ := hres.2 f hf
      exact .inr ⟨f, List.mem_append_right _ (List.mem_of_head? hhead), hb, .inr ⟨e, rfl, he⟩⟩

/-- The file beside a planned one lies below the directory of the repository if its path is a
text. -/
theorem isBelow_or_not_isText (ht : t.LinkFree) (h : IsTarget jobDir org repo) {f : Planned}
    (hf : f ∈ t.plan jobDir org repo generated scan) (hl : l = (besides f.path).place) :
    IsBelow (repoDir jobDir org repo).place l ∨
      ¬jobDir.IsText ∧ ∃ f ∈ t.plan jobDir org repo generated, l = (besides f.path).place := by
  by_cases htext : jobDir.IsText
  · have hb := (isBelow_of_mem_plan ht h hf).2
    rw [(isText_repoDir h.org h.repo htext).place_map_shown] at hb
    exact .inl (hl ▸ hb)
  · obtain ⟨g, hg, hp⟩ := exists_path_eq_of_mem_plan hf .inOrder
    exact .inr ⟨htext, g, hg, by rw [hp, hl]⟩

theorem confined_shardInto (ht : t.LinkFree) (h : IsTarget jobDir org repo) (generated : JobSet)
    (dryRun : Bool) (scan : Scanner) (disk : Storage) :
    Confined jobDir org repo generated t
      (t.shardInto jobDir org repo generated dryRun scan disk) := by
  cases dryRun with
  | true =>
    have hsame := shardInto_dry_snd disk t jobDir org repo generated scan
    rw [← Prod.eta (t.shardInto jobDir org repo generated true scan disk), hsame]
    exact confined_refl ht h generated _
  | false =>
    obtain ⟨hkeeps, hdirectories⟩ := directories_shardInto ht h generated scan disk
    refine ⟨fun scan' f hf => isBelow_of_mem_plan ht h hf, fun l hl => ?_, fun l c hl hc => ?_,
      hkeeps, hdirectories⟩
    · rcases fileAt?_shardInto_cases ht h generated scan disk l with
        ⟨f, hf, rfl⟩ | hsame | ⟨f, hf, hb, -⟩
      · exact .inl (isBelow_of_mem_plan ht h hf).1
      · exact absurd hsame hl
      · exact isBelow_or_not_isText ht h hf hb
    · rcases fileAt?_shardInto_cases ht h generated scan disk l with
        ⟨f, hf, rfl⟩ | hsame | ⟨f, hf, hb, hnone | hfault⟩
      · rcases mem_plan.1 hf with ⟨e, he, rfl⟩ | ⟨n, s, hs, -, rfl⟩
        · -- what was found was there
          obtain ⟨-, -, -, -, -, ⟨c', hc', -⟩, -⟩ := names_of_mem_found ht he
          rw [hl] at hc'
          cases hc'
        · have hname := Path.isName_encode.2 (isPlain_of_get?_shards h.org h.repo hs)
          exact .inl ⟨n, s, hs, Path.place_join hname _⟩
      · rw [hsame, hl] at hc
        cases hc
      · rw [hnone] at hc
        cases hc
      · obtain ⟨g, hg, hpath⟩ := exists_path_eq_of_mem_plan hf .inOrder
        exact .inr ⟨hfault, g, hg, by rw [hpath, hb]⟩

/-- A run keeps to the directory of its repository, whatever its jobs and their branches are called,
whatever the order of its scan and whatever the storage. It comes to the same before and after a run
for another repository, and the two leave the same in either order, if the shards of both have the
same receivers where they come second. -/
theorem shardInto_separate (ht : t.LinkFree) (h : IsTarget jobDir org repo) (generated : JobSet)
    (dryRun : Bool) :
    (∀ scan disk, Confined jobDir org repo generated t
      (t.shardInto jobDir org repo generated dryRun scan disk)) ∧
    ∀ org' repo' generated' dryRun' scan scan₁ scan' scan₁', Path.IsPlain org' →
      Path.IsPlain repo' → (org', repo') ≠ (org, repo) →
        SameReceivers (generated.shards org repo) (repoDir jobDir org repo)
          (t.found (repoDir jobDir org repo) scan)
          ((t.shardInto jobDir org' repo' generated' dryRun' scan').2.found
            (repoDir jobDir org repo) scan₁) →
        SameReceivers (generated'.shards org' repo') (repoDir jobDir org' repo')
          (t.found (repoDir jobDir org' repo') scan')
          ((t.shardInto jobDir org repo generated dryRun scan).2.found (repoDir jobDir org' repo')
            scan₁') →
        t.Independent (·.shardInto jobDir org repo generated dryRun scan)
          (·.shardInto jobDir org repo generated dryRun scan₁)
          (·.shardInto jobDir org' repo' generated' dryRun' scan')
          (·.shardInto jobDir org' repo' generated' dryRun' scan₁') :=
  ⟨confined_shardInto ht h generated dryRun, fun _ _ _ _ _ _ _ _ ho hr hne hsame hsame' =>
    independent_shardInto ht h ⟨ho, hr, h.jobDir⟩ hne hsame hsame'⟩

/-- A job whose name and branch look like paths that lead up. -/
def strayJobs (key : String) : JobSet where
  presubmits := .ofList [(key, [{ name := "../a", branches := ["../../x"] }])]

set_option maxRecDepth 100000 in
/-- Two runs that make directories for one organisation where there is nothing yet. -/
theorem shardInto_separate_strayJobs :
    let run (t : FileTree) := t.shardInto smallDir "o" "r" (strayJobs "o/r") false
    let run' (t : FileTree) := t.shardInto smallDir "o" "s" (strayJobs "o/s") false
    Confined smallDir "o" "r" (strayJobs "o/r") ∅ (run ∅) ∧
      (∅ : FileTree).Independent run run run' run' ∧
      ((run' (run ∅).2).2.fileAt?
        (["jobs", "o", "r", "o-r-x-presubmits.yaml"].map Utf8.encode)).isSome = true := by
  have hfree : (∅ : FileTree).LinkFree := by decide +kernel
  obtain ⟨hconfined, hindependent⟩ :=
    shardInto_separate hfree isTarget_small (strayJobs "o/r") false
  exact ⟨hconfined .inOrder .sound, hindependent "o" "s" (strayJobs "o/s") false .inOrder .inOrder
    .inOrder .inOrder (by decide) (by decide) (by decide) (by decide +kernel) (by decide +kernel),
    by decide +kernel⟩

set_option maxRecDepth 100000 in
/-- A run may remove a file outside the directory of its repository, and one that comes after a run
for another repository may come to something else, as its own scan hands over the files in another
order. -/
theorem shardInto_interferes :
    (IsTarget lossyDir "o" "r" ∧ bystanderTree.LinkFree ∧
      bystanderTree.fileAt? bystander = some [] ∧ lossyRun.2.fileAt? bystander = none ∧
      ¬(repoDir lossyDir "o" "r").place <+: bystander) ∧
    twinTree.LinkFree ∧
      ((twinTree.shardInto smallDir "o" "s" ∅ false).2.shardInto smallDir "o" "r" plainJobs
          false .reversed).1.toOption ≠
        (twinTree.shardInto smallDir "o" "r" plainJobs false).1.toOption := by
  obtain ⟨hfree, -, hthere, hgone, hout⟩ := lossyRun_spec
  exact ⟨⟨isTarget_lossyDir, hfree, hthere, hgone, hout⟩, twinRun_spec.1, by decide +kernel⟩

end FileTree

end JobConfig
