import JobConfig.Proofs.Completion
import JobConfig.Proofs.Shown
import JobConfig.Proofs.Tree.Ways

/-!
# What a run depends on

A run depends on the files on the way to the directory of its repository and on what is in that
directory, and on nothing else: in trees that are alike there it comes to the same, and leaves them
alike there. The file beside a file lies in the directory as it is shown, so this counts for that
directory as well; it is the same one if its path is a text.
-/

namespace JobConfig

namespace FileTree

open JobConfig.Path (dot isName)
open Utf8 (shown)

variable {t t' : FileTree} {p q : Path} {k l c : Location} {cs : List Location}

/-! ### Trees that are alike -/

/-- Whether two trees have the same files on the way to a location and the same entries from there
on. -/
structure Alike (c : Location) (t t' : FileTree) : Prop where
  file : ∀ l, l <+: c → t'.fileAt? l = t.fileAt? l
  get? : ∀ l, c <+: l → t'.get? l = t.get? l

theorem Alike.fileAt? (h : Alike c t t') (hk : c <+: k) (hl : l <+: k) :
    t'.fileAt? l = t.fileAt? l := by
  rcases List.prefix_or_prefix_of_prefix hl hk with hlc | hcl
  · exact h.file l hlc
  · rw [FileTree.fileAt?, h.get? l hcl, FileTree.fileAt?]

theorem Alike.blocked (h : Alike c t t') (hk : c <+: k) (hl : l <+: k) :
    t'.Blocked l ↔ t.Blocked l := by
  rw [blocked_iff, blocked_iff]
  exact exists_congr fun j => and_congr_right fun hj => by rw [h.fileAt? hk (hj.trans hl)]

/-- What two trees are given at the same locations leaves them alike. -/
theorem Alike.overwrite (h : Alike c t t') {t₁ t₁' : FileTree}
    (given : Location → Option (Option Entry)) (ht : ∀ l, t₁.get? l = (given l).getD (t.get? l))
    (ht' : ∀ l, t₁'.get? l = (given l).getD (t'.get? l)) : Alike c t₁ t₁' where
  file l hl := by
    have hsame := h.file l hl
    rw [FileTree.fileAt?, FileTree.fileAt?, ht, ht']
    cases given l with
    | none => exact hsame
    | some e => rfl
  get? l hl := by rw [ht, ht', h.get? l hl]

/-- Whether two trees without links are alike at some locations. -/
structure Agree (cs : List Location) (t t' : FileTree) : Prop where
  linkFree : t.LinkFree
  linkFree' : t'.LinkFree
  alike : ∀ c ∈ cs, Alike c t t'

theorem Agree.overwrite (h : Agree cs t t') {t₁ t₁' : FileTree}
    (given : Location → Option (Option Entry))
    (hlink : ∀ l target, given l ≠ some (some (.link target)))
    (ht : ∀ l, t₁.get? l = (given l).getD (t.get? l))
    (ht' : ∀ l, t₁'.get? l = (given l).getD (t'.get? l)) : Agree cs t₁ t₁' := by
  have hfree : ∀ {t t₁ : FileTree}, t.LinkFree →
      (∀ l, t₁.get? l = (given l).getD (t.get? l)) → t₁.LinkFree := by
    intro t t₁ hfree hget l target hl
    rw [hget] at hl
    cases hg : given l with
    | none => exact hfree l target (by simpa [hg] using hl)
    | some e => exact hlink l target (by simpa [hg] using hl)
  exact ⟨hfree h.linkFree ht, hfree h.linkFree' ht',
    fun c hc => (h.alike c hc).overwrite given ht ht'⟩

theorem Agree.put (h : Agree cs t t') {e : Entry} (he : ∀ target, e ≠ .link target)
    (ha : t.Admits l) (ha' : t'.Admits l) : Agree cs (t.put l e) (t'.put l e) := by
  refine h.overwrite (fun k => if k = l then some (some e) else none) (fun k target => ?_)
    (fun k => ?_) fun k => ?_
  · split
    · simpa using he target
    · simp
  · rw [get?_put ha]
    split <;> rfl
  · rw [get?_put ha']
    split <;> rfl

theorem Agree.remove (h : Agree cs t t') (hd : t.get? l ≠ some .directory)
    (hd' : t'.get? l ≠ some .directory) : Agree cs (t.remove l) (t'.remove l) := by
  refine h.overwrite (fun k => if k = l then some none else none) (fun k target => ?_)
    (fun k => ?_) fun k => ?_
  · split <;> simp
  · rw [get?_remove hd]
    split <;> rfl
  · rw [get?_remove hd']
    split <;> rfl

/-! ### Operations -/

/-- Whether a path ends in a name, does not lead up, and leads to a place below one of some
locations. -/
structure LeadsInto (cs : List Location) (p : Path) : Prop where
  name : p.EndsInName
  down : [dot, dot] ∉ p.pieces
  below : ∃ c ∈ cs, c <+: p.place.dropLast

/-- Whether two operations are refused for the same reason or leave trees that agree. -/
def AgreeExcept (cs : List Location) (x x' : Except Refusal FileTree) : Prop :=
  (∃ r, x = .error r ∧ x' = .error r) ∨ ∃ t t', x = .ok t ∧ x' = .ok t' ∧ Agree cs t t'

/-- Whether two results are the same and leave trees that agree. -/
def AgreeResult {α : Type} (cs : List Location) (x x' : α × FileTree) : Prop :=
  ∃ r t t', x = (r, t) ∧ x' = (r, t') ∧ Agree cs t t'

section Operations

variable (h : Agree cs t t') (hp : LeadsInto cs p)

include h hp

theorem Agree.resolve (follow : Bool) : t'.resolve follow p = t.resolve follow p := by
  obtain ⟨c, hc, hb⟩ := hp.below
  have hl := hb.trans (List.dropLast_prefix _)
  have ha := h.alike c hc
  rw [resolve_eq_reach h.linkFree' hp.name hp.down, resolve_eq_reach h.linkFree hp.name hp.down]
  simp only [reach, spot, ha.blocked hb List.prefix_rfl, ha.get? _ hb, ha.get? _ hl]

theorem Agree.lookup (follow : Bool) : t'.lookup follow p = t.lookup follow p := by
  rw [FileTree.lookup, FileTree.lookup, h.resolve hp]

theorem Agree.contains : t'.contains p = t.contains p := by
  rw [FileTree.contains, FileTree.contains, h.lookup hp]

theorem Agree.readFile : t'.readFile p = t.readFile p := by
  rw [FileTree.readFile, FileTree.readFile, h.lookup hp]

theorem Agree.contentOf? : t'.contentOf? p = t.contentOf? p := by
  rw [FileTree.contentOf?, FileTree.contentOf?, h.readFile hp]

theorem Agree.writeFile (content : Bytes) :
    AgreeExcept cs (t.writeFile p content) (t'.writeFile p content) := by
  have hr := h.resolve hp true
  rw [FileTree.writeFile, FileTree.writeFile, hr]
  cases hs : t.resolve true p with
  | error r => exact .inl ⟨r, rfl, rfl⟩
  | ok s =>
    rw [hs] at hr
    cases s with
    | vacant l =>
      exact .inr ⟨_, _, rfl, rfl, h.put (file_ne_link content) (resolve_vacant h.linkFree hs).2.2
        (resolve_vacant h.linkFree' hr).2.2⟩
    | «at» l e =>
      cases e with
      | directory => exact .inl ⟨_, rfl, rfl⟩
      | file c =>
        exact .inr ⟨_, _, rfl, rfl, h.put (file_ne_link content)
          (admits_of_get? (resolve_at h.linkFree hs).2 (by simp))
          (admits_of_get? (resolve_at h.linkFree' hr).2 (by simp))⟩
      | link target => exact absurd (resolve_at h.linkFree hs).2 (h.linkFree l target)

theorem Agree.removeFile : AgreeExcept cs (t.removeFile p) (t'.removeFile p) := by
  have hr := h.lookup hp false
  rw [FileTree.removeFile, FileTree.removeFile, hr]
  cases hs : t.lookup false p with
  | error r => exact .inl ⟨r, rfl, rfl⟩
  | ok s =>
    obtain ⟨l, e⟩ := s
    rw [hs] at hr
    have hg := (lookup_ok h.linkFree hs).2
    have hg' := (lookup_ok h.linkFree' hr).2
    cases e with
    | directory => exact .inl ⟨_, rfl, rfl⟩
    | file c => exact .inr ⟨_, _, rfl, rfl, h.remove (by simp [hg]) (by simp [hg'])⟩
    | link target => exact absurd hg (h.linkFree l target)

/-- Moving a file to a path in place of what is there. -/
theorem Agree.rename (hq : LeadsInto cs q) {content : Bytes}
    (hf : t.lookup false p = .ok (l, .file content)) :
    AgreeExcept cs (t.rename p q) (t'.rename p q) := by
  have hr := h.resolve hq false
  have hf' := (h.lookup hp false).trans hf
  rw [FileTree.rename, FileTree.rename, hf, hf', hr]
  have hd : t.get? l ≠ some .directory := by simp [(lookup_ok h.linkFree hf).2]
  have hd' : t'.get? l ≠ some .directory := by simp [(lookup_ok h.linkFree' hf').2]
  have hmove : ∀ {k}, t.Admits k → t'.Admits k →
      Agree cs ((t.remove l).put k (.file content)) ((t'.remove l).put k (.file content)) :=
    fun ha ha' => (h.remove hd hd').put (file_ne_link content) (admits_remove ha hd)
      (admits_remove ha' hd')
  cases hs : t.resolve false q with
  | error r => exact .inl ⟨r, rfl, rfl⟩
  | ok s =>
    rw [hs] at hr
    cases s with
    | vacant k =>
      exact .inr ⟨_, _, rfl, rfl, hmove (resolve_vacant h.linkFree hs).2.2
        (resolve_vacant h.linkFree' hr).2.2⟩
    | «at» k e =>
      cases e with
      | directory => exact .inl ⟨_, rfl, rfl⟩
      | file c =>
        exact .inr ⟨_, _, rfl, rfl, hmove (admits_of_get? (resolve_at h.linkFree hs).2 (by simp))
          (admits_of_get? (resolve_at h.linkFree' hr).2 (by simp))⟩
      | link target => exact absurd (resolve_at h.linkFree hs).2 (h.linkFree k target)

end Operations

theorem Agree.hindrance? (h : Agree cs t t') (hc : c ∈ cs) (hp : c <+: p.place) :
    t'.hindrance? p = t.hindrance? p := by
  have ha := h.alike c hc
  simp only [FileTree.hindrance?, ha.blocked hp (List.dropLast_prefix _),
    ha.blocked hp List.prefix_rfl]

/-- Making a directory in one of the locations, or the last directory on the way to it. -/
theorem Agree.makeDirectories (h : Agree cs t t') (hn : p.EndsInName)
    (hd : [dot, dot] ∉ p.pieces) (hc : c ∈ cs) (hp : c <+: p.place) :
    AgreeResult cs (t.makeDirectories p) (t'.makeDirectories p) := by
  have hm := makes_makeDirectories h.linkFree hn hd
  have hm' := makes_makeDirectories h.linkFree' hn hd
  rw [Makes] at hm hm'
  rw [h.hindrance? hc hp] at hm'
  cases hh : t.hindrance? p with
  | some r =>
    rw [hh] at hm hm'
    exact ⟨_, _, _, hm, hm', h⟩
  | none =>
    rw [hh] at hm hm'
    refine ⟨.ok (), _, _, Prod.ext hm.1 rfl, Prod.ext hm'.1 rfl, h.overwrite
      (fun l => if l <+: p.place then some (some .directory) else none) (fun l target => ?_)
      (fun l => ?_) fun l => ?_⟩
    · split <;> simp
    · rw [hm.2]
      split <;> rfl
    · rw [hm'.2]
      split <;> rfl

/-! ### The files of a repository -/

/-- The locations that a run depends on: that of the directory of the repository, and the same as it
is shown, where files are written before they take their names. -/
def homes (jobDir : Path) (org repo : String) : List Location :=
  [(repoDir jobDir org repo).place, (repoDir jobDir org repo).place.map shown]

section Target

variable {jobDir : Path} {org repo : String} {names : Location} (ht : IsTarget jobDir org repo)

include ht

theorem endsInName_repoDir : (repoDir jobDir org repo).EndsInName :=
  Path.endsInName_join ht.isName _

theorem endsInName_under (hn : Named names) :
    (under (repoDir jobDir org repo) names).EndsInName := by
  obtain ⟨q, m, hm, hq⟩ := exists_under_eq_join ht hn
  exact hq ▸ Path.endsInName_join hm q

theorem dots_not_mem_under (hn : Named names) :
    [dot, dot] ∉ (under (repoDir jobDir org repo) names).pieces :=
  Path.dots_not_mem_pieces (up_not_mem_under ht.up_not_mem hn)

/-- The paths of files below the directory lead into it. -/
theorem leadsInto_under (hne : names ≠ []) (hn : Named names) :
    LeadsInto (homes jobDir org repo) (under (repoDir jobDir org repo) names) where
  name := endsInName_under ht hn
  down := dots_not_mem_under ht hn
  below := ⟨_, List.mem_cons_self, by
    rw [place_under hn, List.dropLast_append_of_ne_nil hne]
    exact List.prefix_append _ _⟩

/-- The files beside them are in it as it is shown. -/
theorem leadsInto_besides (hne : names ≠ []) (hn : Named names) :
    LeadsInto (homes jobDir org repo) (besides (under (repoDir jobDir org repo) names)) where
  name := endsInName_besides _
  down := dots_not_mem_besides (endsInName_under ht hn) (dots_not_mem_under ht hn)
  below := ⟨_, List.mem_cons_of_mem _ List.mem_cons_self, by
    obtain ⟨ms, m, rfl, hms, hm⟩ := hn.exists_concat hne
    rw [under_append_singleton, place_besides_join hm, List.dropLast_concat, place_under hms,
      List.map_append]
    exact List.prefix_append _ _⟩

end Target

/-! ### Writing files -/

section Write

variable {jobDir : Path} {org repo : String} {names : Location}
  (h : Agree (homes jobDir org repo) t t') (ht : IsTarget jobDir org repo)

include h ht

theorem Agree.makeParent (hne : names ≠ []) (hn : Named names) :
    AgreeResult (homes jobDir org repo) (t.makeParent (under (repoDir jobDir org repo) names))
      (t'.makeParent (under (repoDir jobDir org repo) names)) := by
  obtain ⟨ms, m, rfl, hms, hm⟩ := hn.exists_concat hne
  have hparent := Path.parent?_join hm (endsInName_under ht hms)
  obtain ⟨r, t₁, t₁', hr, hr', h₁⟩ := h.makeDirectories (endsInName_under ht hms)
    (dots_not_mem_under ht hms) List.mem_cons_self
    (by rw [place_under hms]; exact List.prefix_append _ _)
  rw [under_append_singleton, FileTree.makeParent, FileTree.makeParent, hparent]
  simp only [hr, hr']
  exact ⟨_, _, _, rfl, rfl, h₁⟩

theorem Agree.replaceFile (hne : names ≠ []) (hn : Named names) (content : Bytes) :
    AgreeResult (homes jobDir org repo)
      (t.replaceFile (under (repoDir jobDir org repo) names) content)
      (t'.replaceFile (under (repoDir jobDir org repo) names) content) := by
  have hp := leadsInto_under ht hne hn
  have hb := leadsInto_besides ht hne hn
  obtain ⟨r, t₁, t₁', hr, hr', h₁⟩ := h.makeParent ht hne hn
  rw [FileTree.replaceFile, FileTree.replaceFile, hr, hr']
  cases r with
  | error e => exact ⟨_, _, _, rfl, rfl, h₁⟩
  | ok u =>
    simp only [Storage.writeFile_sound, Storage.rename_sound, Storage.removeFile_sound]
    rcases h₁.writeFile hb content with ⟨r, hw, hw'⟩ | ⟨t₂, t₂', hw, hw', h₂⟩
    · rw [hw, hw']
      exact ⟨_, _, _, rfl, rfl, h₁⟩
    · have hfrom := lookup_writeFile h₁.linkFree hb.name hw false
      rw [hw, hw']
      simp only
      rcases h₂.rename hb hp hfrom with ⟨r, hm, hm'⟩ | ⟨t₃, t₃', hm, hm', h₃⟩
      · -- the file beside is removed again
        rw [hm, hm']
        rcases h₂.removeFile hb with ⟨r', hd, hd'⟩ | ⟨t₃, t₃', hd, hd', h₃⟩
        · simp only [hd, hd']
          exact ⟨_, _, _, rfl, rfl, h₂⟩
        · simp only [hd, hd']
          exact ⟨_, _, _, rfl, rfl, h₃⟩
      · rw [hm, hm']
        exact ⟨_, _, _, rfl, rfl, h₃⟩

theorem Agree.removeJobs (hne : names ≠ []) (hn : Named names) (dryRun : Bool) :
    AgreeResult (homes jobDir org repo)
      (t.removeJobs (under (repoDir jobDir org repo) names) dryRun)
      (t'.removeJobs (under (repoDir jobDir org repo) names) dryRun) := by
  have hp := leadsInto_under ht hne hn
  rw [FileTree.removeJobs, FileTree.removeJobs, h.contains hp]
  split
  · exact ⟨_, _, _, rfl, rfl, h⟩
  · simp only [Storage.removeFile_sound]
    split
    · exact ⟨_, _, _, rfl, rfl, h⟩
    · rcases h.removeFile hp with ⟨r, hr, hr'⟩ | ⟨t₁, t₁', hr, hr', h₁⟩
      · rw [hr, hr']
        cases r <;> exact ⟨_, _, _, rfl, rfl, h⟩
      · rw [hr, hr']
        exact ⟨_, _, _, rfl, rfl, h₁⟩

theorem Agree.writeJobs (hne : names ≠ []) (hn : Named names) (jobs : JobSet) (dryRun : Bool) :
    AgreeResult (homes jobDir org repo)
      (t.writeJobs (under (repoDir jobDir org repo) names) jobs dryRun)
      (t'.writeJobs (under (repoDir jobDir org repo) names) jobs dryRun) := by
  rw [FileTree.writeJobs, FileTree.writeJobs, h.contentOf? (leadsInto_under ht hne hn)]
  split
  · exact h.removeJobs ht hne hn dryRun
  · split
    · exact ⟨_, _, _, rfl, rfl, h⟩
    · exact ⟨_, _, _, rfl, rfl, h⟩
    · rename_i text _ _ _
      split
      · exact ⟨_, _, _, rfl, rfl, h⟩
      · split
        · exact ⟨_, _, _, rfl, rfl, h⟩
        · obtain ⟨r, t₁, t₁', hr, hr', h₁⟩ := h.replaceFile ht hne hn (Utf8.encode text)
          rw [hr, hr']
          cases r <;> exact ⟨_, _, _, rfl, rfl, h₁⟩

omit h in
theorem Agree.writeAll (h : Agree (homes jobDir org repo) t t') {fs : List Planned}
    (hfs : ∀ f ∈ fs, ∃ names, names ≠ [] ∧ Named names ∧
      f.path = under (repoDir jobDir org repo) names) (dryRun : Bool) :
    AgreeResult (homes jobDir org repo) (writeAll dryRun t fs) (writeAll dryRun t' fs) := by
  induction fs generalizing t t' with
  | nil => exact ⟨_, _, _, rfl, rfl, h⟩
  | cons f fs ih =>
    obtain ⟨names, hne, hn, hp⟩ := hfs f List.mem_cons_self
    obtain ⟨r, t₁, t₁', hr, hr', h₁⟩ := h.writeJobs ht hne hn f.jobs dryRun
    rw [FileTree.writeAll, FileTree.writeAll, hp, hr, hr']
    cases r with
    | error e => exact ⟨_, _, _, rfl, rfl, h₁⟩
    | ok o =>
      simp only
      obtain ⟨r, t₂, t₂', hr, hr', h₂⟩ := ih h₁ fun g hg => hfs g (List.mem_cons_of_mem _ hg)
      rw [hr, hr']
      cases r <;> exact ⟨_, _, _, rfl, rfl, h₂⟩

end Write

/-! ### Runs -/

section Run

variable {jobDir : Path} {org repo : String} {dir : Path}

theorem isDirectory_iff_get? (ht : t.LinkFree) (hp : p.EndsInName) (hup : .up ∉ p.components) :
    t.isDirectory p = true ↔ t.get? p.place = some .directory :=
  ⟨get?_of_isDirectory ht, isDirectory_of_get? ht hup hp.bytes_ne_nil⟩

theorem below_congr (h : ∀ k, l <+: k → t'.get? k = t.get? k) : t'.below l = t.below l :=
  KeyMap.eq_of_increasing (below_increasing t' l) (below_increasing t l) fun e => by
    rw [mem_below, mem_below, h _ (List.prefix_append l e.1)]

variable (h : Agree (homes jobDir org repo) t t') (ht : IsTarget jobDir org repo)

include h ht

theorem Agree.isDirectory : t'.isDirectory (repoDir jobDir org repo) =
    t.isDirectory (repoDir jobDir org repo) := by
  have hn := endsInName_repoDir ht
  have ha := h.alike _ List.mem_cons_self
  rw [Bool.eq_iff_iff, isDirectory_iff_get? h.linkFree' hn ht.up_not_mem,
    isDirectory_iff_get? h.linkFree hn ht.up_not_mem, ha.get? _ List.prefix_rfl]

/-- A walk finds the same files in trees that agree. -/
theorem Agree.found : t'.found (repoDir jobDir org repo) = t.found (repoDir jobDir org repo) := by
  have hd := h.isDirectory ht
  rw [FileTree.found, FileTree.found, hd]
  split
  · rename_i hdt
    have hr := (isDirectory_iff_resolve h.linkFree false).1 hdt
    have hr' := (isDirectory_iff_resolve h.linkFree' false).1 (hd.trans hdt)
    have hfiles : t'.files (repoDir jobDir org repo) = t.files (repoDir jobDir org repo) := by
      rw [files_eq hr, files_eq hr', below_congr (h.alike _ List.mem_cons_self).get?]
    change t'.loaded _ = t.loaded _
    rw [loaded, loaded, identities, identities, hfiles]
    refine List.filterMap_congr fun i hi => ?_
    obtain ⟨p, hp, hi⟩ := List.mem_filterMap.1 hi
    obtain ⟨names, e, hne, he, -, rfl⟩ := (mem_files_iff hr).1 hp
    have hn := (directory_of_get?_append he hne).1
    rw [(Identity.file_of_ofJobFile? hi).1, load, load, h.readFile (leadsInto_under ht hne hn)]
  · rfl

/-- Any two scans find the same files in trees that agree. -/
theorem Agree.found_perm (scan scan' : Scanner) :
    (t.found (repoDir jobDir org repo) scan).Perm (t'.found (repoDir jobDir org repo) scan') :=
  (JobConfig.found_perm t _ scan).trans
    ((h.found ht).symm ▸ (JobConfig.found_perm t' _ scan').symm)

variable {generated : JobSet} {scan scan' : Scanner}
  (hsame : SameReceivers (generated.shards org repo) (repoDir jobDir org repo)
    (t.found (repoDir jobDir org repo) scan) (t'.found (repoDir jobDir org repo) scan'))

include hsame

theorem Agree.writePlan (dryRun : Bool) :
    AgreeResult (homes jobDir org repo)
      (FileTree.writeAll dryRun t (t.plan jobDir org repo generated scan))
      (FileTree.writeAll dryRun t' (t'.plan jobDir org repo generated scan')) := by
  rw [plan_eq_of_sameReceivers (h.found_perm ht scan scan') hsame]
  exact h.writeAll ht (fun f hf => names_of_mem_plan ht h.linkFree hf) dryRun

/-- A run comes to the same in trees that agree, and leaves trees that agree, if each shard has the
same receiver. -/
theorem Agree.shardInto (dryRun : Bool) :
    AgreeResult (homes jobDir org repo) (t.shardInto jobDir org repo generated dryRun scan)
      (t'.shardInto jobDir org repo generated dryRun scan') := by
  cases dryRun with
  | true => exact h.writePlan ht hsame true
  | false =>
    obtain ⟨r, t₁, t₁', hr, hr', h₁⟩ := h.makeDirectories (endsInName_repoDir ht)
      (Path.dots_not_mem_pieces ht.up_not_mem) List.mem_cons_self List.prefix_rfl
    rw [FileTree.shardInto, FileTree.shardInto]
    simp only [Bool.false_eq_true, if_false, hr, hr']
    cases r with
    | error e => exact ⟨_, _, _, rfl, rfl, h₁⟩
    | ok u =>
      refine h₁.writePlan ht ?_ false
      rwa [(prepared_of_makeDirectories h.linkFree ht hr).found scan,
        (prepared_of_makeDirectories h.linkFree' ht hr').found scan']

end Run

end FileTree

end JobConfig
