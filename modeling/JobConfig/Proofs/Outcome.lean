import JobConfig.Proofs.Storage
import JobConfig.Proofs.Tree.Parents
import JobConfig.Proofs.Write

/-!
# What becomes of each file

What becomes of a file is decided by what stands at its path and by the jobs that it shall hold. A
file that cannot be written is left as it is, and those after it too: writing files one after the
other gives all of them their jobs, or the first of them and leaves the others alone.
-/

namespace JobConfig.FileTree

open JobConfig.Path (isName)

variable {t t' : FileTree} {p : Path} {c : Bytes} {k l : Location} {jobs : JobSet}

/-! ### What stands at a path -/

/-- What stands where a path leads. -/
def entryAt? (t : FileTree) (p : Path) : Option Entry :=
  (t.lookup true p).toOption.map (·.2)

/-- Whether a path leads to what is at its place, and fails to only because nothing is there. -/
def Sees (t : FileTree) (p : Path) : Prop :=
  ∀ follow, t.lookup follow p =
    match t.get? p.place with
    | some e => .ok (p.place, e)
    | none => .error .notFound

theorem Reaches.sees (ht : t.LinkFree) (h : t.Reaches p) : t.Sees p := by
  intro follow
  rw [lookup, h.resolve ht, spot]
  cases t.get? p.place <;> rfl

theorem Sees.entryAt? (h : t.Sees p) : t.entryAt? p = t.get? p.place := by
  rw [FileTree.entryAt?, h]
  cases t.get? p.place <;> rfl

theorem Sees.contains (h : t.Sees p) : t.contains p = (t.get? p.place).isSome := by
  rw [FileTree.contains, h]
  cases t.get? p.place <;> rfl

/-- What is read at a path where no directory and no link is. -/
theorem Sees.contentOf? (h : t.Sees p) (ht : t.LinkFree) (hd : t.get? p.place ≠ some .directory) :
    t.contentOf? p = .ok (t.fileAt? p.place) := by
  rw [FileTree.contentOf?, readFile, h, fileAt?]
  cases hg : t.get? p.place with
  | none => rfl
  | some e =>
    cases e with
    | file c => rfl
    | directory => exact absurd hg hd
    | link target => exact absurd hg (ht _ target)

/-- What is read at a path is no directory. -/
theorem Sees.not_directory (h : t.Sees p) {old? : Option Bytes} (hc : t.contentOf? p = .ok old?) :
    t.get? p.place ≠ some .directory := by
  intro hd
  rw [FileTree.contentOf?, readFile, h, hd] at hc
  cases hc

/-- What stands at a path of a name that does not lead up. -/
theorem entryAt?_join {q : Path} {n : Bytes} (ht : t.LinkFree) (hup : .up ∉ q.components)
    (hq : q.bytes ≠ []) (hn : isName n = true) :
    t.entryAt? (q.join ⟨n⟩) = t.get? (q.join ⟨n⟩).place := by
  cases hg : t.get? (q.join ⟨n⟩).place with
  | none =>
    rw [entryAt?]
    cases hl : t.lookup true (q.join ⟨n⟩) with
    | error r => rfl
    | ok r =>
      obtain ⟨hp, he⟩ := lookup_ok ht hl
      rw [hp, hg] at he
      cases he
  | some e =>
    rw [Path.place_join hn] at hg
    have hd : t.get? q.place = some .directory := by
      simpa using (parent_of_get? hg (by simp)).2
    have hr : t.Reaches (q.join ⟨n⟩) := ⟨q, n, rfl, hn, isDirectory_of_get? ht hup hq hd⟩
    rw [(hr.sees ht).entryAt?, Path.place_join hn, hg]

/-! ### Outcomes -/

/-- What stands at a path where a job set was written: its text, or nothing without jobs. -/
def entryOfJobs? (jobs : JobSet) : Option Entry :=
  (contentOfJobs? jobs).map .file

/-- What becomes of a place where jobs are written. -/
def outcomeOf (e? : Option Entry) (jobs : JobSet) : Outcome :=
  if e? = entryOfJobs? jobs then .unchanged
  else if jobs.isEmpty then .deleted
  else .written

theorem entryOfJobs?_of_isEmpty (h : jobs.isEmpty = true) : entryOfJobs? jobs = none := by
  simp [entryOfJobs?, contentOfJobs?, h]

theorem entryOfJobs?_eq_some (h : jobs.isEmpty = false) :
    entryOfJobs? jobs = some (.file (Utf8.encode jobs.text)) := by
  simp [entryOfJobs?, contentOfJobs?, h]

theorem outcomeOf_eq_written {e? : Option Entry} :
    outcomeOf e? jobs = .written ↔ jobs.isEmpty = false ∧ e? ≠ entryOfJobs? jobs := by
  rw [outcomeOf]
  by_cases he : e? = entryOfJobs? jobs
  · simp [he]
  · cases jobs.isEmpty <;> simp [he]

theorem outcomeOf_eq_unchanged {e? : Option Entry} :
    outcomeOf e? jobs = .unchanged ↔ e? = entryOfJobs? jobs := by
  rw [outcomeOf]
  by_cases he : e? = entryOfJobs? jobs
  · simp [he]
  · cases jobs.isEmpty <;> simp [he]

/-! ### Replacing a file -/

/-- Whether a path is that of a name joined to the path of a directory which ends in a name. -/
def HasParent (t : FileTree) (p : Path) : Prop :=
  ∃ (q : Path) (m n : Bytes), p = (q.join ⟨m⟩).join ⟨n⟩ ∧ isName m = true ∧ isName n = true ∧
    t.isDirectory (q.join ⟨m⟩) = true

theorem HasParent.reaches (h : t.HasParent p) : t.Reaches p := by
  obtain ⟨q, m, n, rfl, -, hn, hd⟩ := h
  exact ⟨_, n, rfl, hn, hd⟩

theorem HasParent.mono (ht : t.LinkFree) (ht' : t'.LinkFree) (hk : t.KeepsDirectories t')
    (h : t.HasParent p) : t'.HasParent p := by
  obtain ⟨q, m, n, rfl, hm, hn, hd⟩ := h
  exact ⟨q, m, n, rfl, hm, hn, isDirectory_mono ht ht' hk hd⟩

theorem HasParent.makeParent (ht : t.LinkFree) (h : t.HasParent p) (disk : Storage) :
    t.makeParent p disk = (.ok (), t) := by
  obtain ⟨q, m, n, rfl, hm, hn, hd⟩ := h
  have hp : ((q.join ⟨m⟩).join ⟨n⟩).parent? = some (q.join ⟨m⟩) :=
    Path.parent?_join hn (Path.endsInName_join hm q)
  simp only [FileTree.makeParent, hp, makeDirectories_of_isDirectory ht hm hd disk]
  rfl

/-- What it means that a failure changes nothing, except that a fault of the storage may tear the
file beside a file: a beginning of the new content is left there, or nothing. -/
structure Tears (t : FileTree) (p : Path) (c : Bytes) (e : Failure) (t' : FileTree) : Prop where
  linkFree : t'.LinkFree
  keeps : t.KeepsDirectories t'
  same : ∀ k, k ≠ (besides p).place → t'.get? k = t.get? k
  beside : t'.get? (besides p).place = t.get? (besides p).place ∨
    e.IsFault ∧ (t'.get? (besides p).place = none ∨
      ∃ n, t'.get? (besides p).place = some (.file (c.take n)))

theorem Tears.refl (ht : t.LinkFree) (p : Path) (c : Bytes) (e : Failure) : t.Tears p c e t :=
  ⟨ht, fun _ h => h, fun _ _ => rfl, .inl rfl⟩

/-- What is left where the new content was refused. -/
theorem tears_put (ht : t.LinkFree) (ha : t.Admits (besides p).place) (n : Nat) {e : Failure}
    (he : e.IsFault) : t.Tears p c e (t.put (besides p).place (.file (c.take n))) where
  linkFree := linkFree_put ht ha (by simp)
  keeps := keepsDirectories_put ha
  same k hk := by rw [get?_put ha, if_neg hk]
  beside := .inr ⟨he, .inr ⟨n, by rw [get?_put ha, if_pos rfl]⟩⟩

/-- What is left where the file was refused its place. -/
theorem tears_rename (ht : t.LinkFree) (ha : t.Admits (besides p).place) (disk : Storage)
    {e : Failure} (he : e.IsFault) : t.Tears p c e
      ((disk.removeFile (t.put (besides p).place (.file c)) (besides p)).toOption.getD
        (t.put (besides p).place (.file c))) := by
  have hput : t.Tears p c e (t.put (besides p).place (.file c)) := by
    have h := tears_put (c := c) ht ha c.length he
    rwa [List.take_length] at h
  cases hr : disk.removeFile (t.put (besides p).place (.file c)) (besides p) with
  | error r => exact hput
  | ok t' =>
    obtain ⟨l, hl, hd, ht'⟩ := removeFile_leads (Storage.of_grant hr)
    obtain rfl := eq_place hput.linkFree hl
    have hfree := (keepsWays_remove hd (by rw [hput.linkFree.linkAt?])).linkFree hput.linkFree
    change t.Tears p c e t'
    rw [ht']
    refine ⟨hfree, fun k hk => ?_, fun k hk => ?_, .inr ⟨he, .inl ?_⟩⟩
    · exact keepsDirectories_remove hd k (hput.keeps k hk)
    · exact (get?_remove hd k).trans (by rw [if_neg hk, hput.same k hk])
    · exact (get?_remove hd _).trans (if_pos rfl)

/-- A file that can be written beside another takes its place. -/
theorem rename_besides (ht : t.LinkFree) (hp : t.HasParent p)
    (hd : t.get? p.place ≠ some .directory) (hb : p.place ≠ (besides p).place) {t₁ : FileTree}
    (hw : t.writeFile (besides p) c = .ok t₁) :
    ∃ t', t₁.rename (besides p) p = .ok t' ∧ ∀ k, t'.get? k =
      if k = p.place then some (.file c) else if k = (besides p).place then none
      else t.get? k := by
  have hfrom := lookup_writeFile ht (endsInName_besides p) hw false
  obtain ⟨ha, rfl⟩ := writeFile_ok ht hw
  have hfree : (t.put (besides p).place (.file c)).LinkFree := linkFree_put ht ha (by simp)
  have hto := (hp.mono ht hfree (keepsDirectories_put ha)).reaches.resolve hfree false
  have hget : (t.put (besides p).place (.file c)).get? p.place = t.get? p.place := by
    rw [get?_put ha, if_neg hb]
  have hnd : (t.put (besides p).place (.file c)).get? (besides p).place ≠ some .directory := by
    simp [get?_put ha]
  have hrename : (t.put (besides p).place (.file c)).rename (besides p) p =
      .ok (((t.put (besides p).place (.file c)).remove (besides p).place).put p.place
        (.file c)) := by
    rw [rename, hfrom, hto, spot, hget]
    cases hg : t.get? p.place with
    | none => rfl
    | some e =>
      cases e with
      | file c' => rfl
      | directory => exact absurd hg hd
      | link target => rfl
  obtain ⟨-, -, ha', -⟩ := rename_ok hfree hrename
  refine ⟨_, hrename, fun k => ?_⟩
  rw [get?_put (admits_remove ha' hnd), get?_remove hnd, get?_put ha]
  split
  · rfl
  · split <;> rfl

/-- A file is replaced, or nothing is changed but what is beside it: the file beside it takes its
place wherever it can be written. -/
theorem replaceFile_cases (ht : t.LinkFree) (hp : t.HasParent p)
    (hd : t.get? p.place ≠ some .directory) (hb : p.place ≠ (besides p).place) (c : Bytes)
    (disk : Storage) :
    (∃ e t', t.replaceFile p c disk = (.error e, t') ∧ t.Tears p c e t') ∨
      ∃ t', t.replaceFile p c disk = (.ok (), t') ∧ ∀ k, t'.get? k =
        if k = p.place then some (.file c) else if k = (besides p).place then none
        else t.get? k := by
  rw [replaceFile, hp.makeParent ht disk]
  simp only
  rcases disk.writeFile_cases t (besides p) c with
    ⟨t₁, hw, hs⟩ | ⟨r, -, hs⟩ | ⟨fault, hs | ⟨n, t₁, hw, hs⟩⟩
  · obtain ⟨t', hrename, hget⟩ := rename_besides ht hp hd hb hw
    obtain ⟨ha, rfl⟩ := writeFile_ok ht hw
    simp only [hs, Storage.rename, hrename]
    rcases disk.grant_cases (t.put (besides p).place (.file c)) (.rename (besides p) p) (.ok t')
      with hg | ⟨fault, hg⟩
    · rw [hg]
      exact .inr ⟨t', rfl, hget⟩
    · rw [hg]
      exact .inl ⟨_, _, rfl, tears_rename ht ha disk ⟨p, fault, rfl⟩⟩
  · rw [hs]
    exact .inl ⟨_, t, rfl, .refl ht p c _⟩
  · rw [hs]
    exact .inl ⟨_, t, rfl, .refl ht p c _⟩
  · obtain ⟨ha, rfl⟩ := writeFile_ok ht hw
    rw [hs]
    exact .inl ⟨_, _, rfl, tears_put ht ha n ⟨_, fault, rfl⟩⟩

/-! ### Writing a file -/

/-- A file is removed, or nothing is changed. -/
theorem removeJobs_cases (ht : t.LinkFree) (hp : t.Sees p) (disk : Storage) :
    (∃ e, t.removeJobs p false disk = (.error e, t)) ∨
      ∃ t', t.removeJobs p false disk =
          (.ok (if t.get? p.place = none then .unchanged else .deleted), t') ∧
        ∀ k, t'.get? k = if k = p.place then none else t.get? k := by
  rw [removeJobs, hp.contains, Storage.removeFile, removeFile, hp]
  cases hg : t.get? p.place with
  | none =>
    refine .inr ⟨t, rfl, fun k => ?_⟩
    split
    · rename_i hk
      rw [hk, hg]
    · rfl
  | some e =>
    cases e with
    | directory => exact .inl ⟨_, rfl⟩
    | file c =>
      simp only [Option.isSome_some, Bool.not_true, Bool.false_eq_true, if_false]
      rcases disk.grant_cases t (.removeFile p) (.ok (t.remove p.place)) with hs | ⟨fault, hs⟩
      · rw [hs]
        exact .inr ⟨t.remove p.place, rfl, get?_remove (by simp [hg])⟩
      · rw [hs]
        exact .inl ⟨_, rfl⟩
    | link target => exact absurd hg (ht _ target)

/-- What it means that jobs are written with the outcome that what stood at their place decides, or
that they cannot be written and nothing is changed but what a new text of them tears. If they are
written they stand at their place, and what stood beside it is gone if they are a new text. -/
def Writes (t : FileTree) (p : Path) (jobs : JobSet) (r : Except Failure Outcome × FileTree) :
    Prop :=
  (∃ e t', r = (.error e, t') ∧ t.Tears p (Utf8.encode jobs.text) e t' ∧
    (t' = t ∨ outcomeOf (t.get? p.place) jobs = .written)) ∨
    ∃ t', r = (.ok (outcomeOf (t.get? p.place) jobs), t') ∧
      ∀ k, t'.get? k = if k = p.place then entryOfJobs? jobs
        else if outcomeOf (t.get? p.place) jobs = .written ∧ k = (besides p).place then none
        else t.get? k

theorem writes_error (ht : t.LinkFree) (p : Path) (jobs : JobSet) (e : Failure) :
    t.Writes p jobs (.error e, t) :=
  .inl ⟨e, t, rfl, .refl ht p _ e, .inl rfl⟩

theorem writes_of_isEmpty (ht : t.LinkFree) (hp : t.Sees p) (he : jobs.isEmpty = true)
    (disk : Storage) : t.Writes p jobs (t.writeJobs p jobs false disk) := by
  have hentry := entryOfJobs?_of_isEmpty he
  have hout : outcomeOf (t.get? p.place) jobs =
      if t.get? p.place = none then .unchanged else .deleted := by
    simp [outcomeOf, hentry, he]
  have hnot : outcomeOf (t.get? p.place) jobs ≠ .written := by simp [outcomeOf_eq_written, he]
  rw [writeJobs, if_pos he]
  rcases removeJobs_cases ht hp disk with ⟨e, hr⟩ | ⟨t', hr, hget⟩
  · rw [hr]
    exact writes_error ht p jobs e
  · exact .inr ⟨t', by rw [hr, hout], fun k => by simp [hget, hentry, hnot]⟩

theorem writes_of_same (ht : t.LinkFree) (hp : t.Reaches p) (he : jobs.isEmpty = false)
    (htext : jobs.render = .ok jobs.text) (hsame : t.get? p.place = entryOfJobs? jobs)
    (disk : Storage) : t.Writes p jobs (t.writeJobs p jobs false disk) := by
  have hfile : t.fileAt? p.place = some (Utf8.encode jobs.text) := by
    rw [fileAt?_eq_some_iff, hsame, entryOfJobs?_eq_some he]
  rw [writeJobs_unchanged ht hp he htext hfile]
  refine .inr ⟨t, by rw [outcomeOf_eq_unchanged.2 hsame], fun k => ?_⟩
  split
  · rename_i hk
    rw [hk, hsame]
  · rw [if_neg (by simp [outcomeOf_eq_written, hsame])]

theorem writes_of_other (ht : t.LinkFree) (hp : t.HasParent p) (hb : p.place ≠ (besides p).place)
    (he : jobs.isEmpty = false) (htext : jobs.render = .ok jobs.text)
    (hother : t.get? p.place ≠ entryOfJobs? jobs) (disk : Storage) :
    t.Writes p jobs (t.writeJobs p jobs false disk) := by
  have hs := hp.reaches.sees ht
  have hentry := entryOfJobs?_eq_some he
  rw [writeJobs, if_neg (by simp [he]), htext]
  cases hc : t.contentOf? p with
  | error e => exact writes_error ht p jobs e
  | ok old? =>
    have hd := hs.not_directory hc
    rw [hs.contentOf? ht hd, Except.ok.injEq] at hc
    subst hc
    have hfile : t.fileAt? p.place ≠ some (Utf8.encode jobs.text) := by
      rw [Ne, fileAt?_eq_some_iff, ← hentry]
      exact hother
    simp only [if_neg hfile, Bool.false_eq_true, if_false]
    have hout := outcomeOf_eq_written.2 ⟨he, hother⟩
    rcases replaceFile_cases ht hp hd hb (Utf8.encode jobs.text) disk with
      ⟨e, t', hr, htears⟩ | ⟨t', hr, hget⟩
    · exact .inl ⟨e, t', by rw [hr], htears, .inr hout⟩
    · exact .inr ⟨t', by rw [hr, hout], fun k => by simp [hget, hentry, hout]⟩

theorem writes_writeJobs (ht : t.LinkFree) (hp : t.HasParent p) (hb : p.place ≠ (besides p).place)
    (jobs : JobSet) (disk : Storage) : t.Writes p jobs (t.writeJobs p jobs false disk) := by
  cases he : jobs.isEmpty with
  | true => exact writes_of_isEmpty ht (hp.reaches.sees ht) he disk
  | false =>
    cases htext : jobs.render with
    | error e =>
      rw [writeJobs, if_neg (by simp [he]), htext]
      exact writes_error ht p jobs e
    | ok text =>
      obtain rfl := text_of_render htext
      by_cases hsame : t.get? p.place = entryOfJobs? jobs
      · exact writes_of_same ht hp.reaches he htext hsame disk
      · exact writes_of_other ht hp hb he htext hsame disk

/-! ### File after file -/

section

variable {fs : List Planned}

/-- What it means that files were written: each of them holds its jobs, and what stood beside those
of a new text is gone. All else is as it was. -/
structure Wrote (t : FileTree) (fs : List Planned) (t' : FileTree) : Prop where
  linkFree : t'.LinkFree
  keeps : t.KeepsDirectories t'
  rendered : ∀ f ∈ fs, f.jobs.isEmpty = false → f.jobs.render = .ok f.jobs.text
  place : ∀ f ∈ fs, t'.get? f.path.place = entryOfJobs? f.jobs
  other : ∀ k, (∀ f ∈ fs, k ≠ f.path.place) → t'.get? k =
    if ∃ f ∈ fs, outcomeOf (t.get? f.path.place) f.jobs = .written ∧ k = (besides f.path).place
    then none else t.get? k

theorem Wrote.nil (ht : t.LinkFree) : t.Wrote [] t :=
  ⟨ht, fun _ h => h, by simp, by simp, by simp⟩

theorem Wrote.fileAt? (h : t.Wrote fs t') (k : Location) (hk : ∀ f ∈ fs, k ≠ f.path.place) :
    t'.fileAt? k = if ∃ f ∈ fs, outcomeOf (t.get? f.path.place) f.jobs = .written ∧
      k = (besides f.path).place then none else t.fileAt? k := by
  rw [FileTree.fileAt?, h.other k hk]
  by_cases hgone : ∃ f ∈ fs, outcomeOf (t.get? f.path.place) f.jobs = .written ∧
      k = (besides f.path).place
  · rw [if_pos hgone, if_pos hgone]
  · rw [if_neg hgone, if_neg hgone, FileTree.fileAt?]

/-- Where a file was written there was no directory. -/
theorem Wrote.free (h : t.Wrote fs t') {f : Planned} (hf : f ∈ fs) :
    t.get? f.path.place ≠ some .directory := by
  intro hd
  have hget := h.place f hf
  rw [h.keeps _ hd, entryOfJobs?] at hget
  cases hc : contentOfJobs? f.jobs <;> simp [hc] at hget

/-- No directory is made where files are written. -/
theorem Wrote.directory (h : t.Wrote fs t') {k : Location} (hd : t'.get? k = some .directory) :
    t.get? k = some .directory := by
  by_cases hk : ∃ f ∈ fs, k = f.path.place
  · obtain ⟨f, hf, rfl⟩ := hk
    rw [h.place f hf, entryOfJobs?, Option.map_eq_some_iff] at hd
    obtain ⟨c, -, hc⟩ := hd
    cases hc
  · simp only [not_exists, not_and] at hk
    rw [h.other k hk] at hd
    split at hd
    · cases hd
    · exact hd

/-- What was written to the places of files that follow is not seen at them before. -/
theorem Wrote.get?_eq {t₁ : FileTree} {f g : Planned} (h : t.Wrote [f] t₁)
    (hne : f.path.place ≠ g.path.place) (hb : ∀ p, g.path.place ≠ (besides p).place) :
    t₁.get? g.path.place = t.get? g.path.place := by
  rw [h.other _ (by simpa using hne.symm), if_neg]
  rintro ⟨f, -, -, hp⟩
  exact hb f.path hp

theorem Wrote.cons {t₁ : FileTree} {f : Planned} (h₁ : t.Wrote [f] t₁) (h : t₁.Wrote fs t')
    (hne : ∀ g ∈ fs, f.path.place ≠ g.path.place)
    (hb : ∀ g ∈ f :: fs, ∀ p, g.path.place ≠ (besides p).place) : t.Wrote (f :: fs) t' := by
  have hsame : ∀ g ∈ fs, t₁.get? g.path.place = t.get? g.path.place := fun g hg =>
    h₁.get?_eq (hne g hg) (hb g (List.mem_cons_of_mem _ hg))
  refine ⟨h.linkFree, fun l hl => h.keeps l (h₁.keeps l hl),
    List.forall_mem_cons.2 ⟨h₁.rendered f List.mem_cons_self, h.rendered⟩, fun g hg => ?_,
    fun k hk => ?_⟩
  · rcases List.mem_cons.1 hg with rfl | hg
    · rw [h.other _ hne, if_neg, h₁.place g List.mem_cons_self]
      rintro ⟨g', -, -, hp⟩
      exact hb g List.mem_cons_self g'.path hp
    · exact h.place g hg
  · -- what is gone with the first file stays gone with the others
    have hfs : (∃ g ∈ fs, outcomeOf (t₁.get? g.path.place) g.jobs = .written ∧
          k = (besides g.path).place) ↔
        ∃ g ∈ fs, outcomeOf (t.get? g.path.place) g.jobs = .written ∧
          k = (besides g.path).place :=
      exists_congr fun g => and_congr_right fun hg => by rw [hsame g hg]
    have hkf : ∀ g ∈ [f], k ≠ g.path.place := by simpa using hk f List.mem_cons_self
    rw [h.other k fun g hg => hk g (List.mem_cons_of_mem _ hg), h₁.other k hkf]
    simp only [hfs, List.exists_mem_cons_iff, List.not_mem_nil, false_and, exists_false, or_false]
    by_cases hrest : ∃ g ∈ fs, outcomeOf (t.get? g.path.place) g.jobs = .written ∧
        k = (besides g.path).place
    · rw [if_pos hrest, if_pos (.inr hrest)]
    · rw [if_neg hrest]
      simp only [hrest, or_false]

/-- What is left where files were written and then one of them was refused. -/
def Stops (t : FileTree) (done : List Planned) (f : Planned) (e : Failure) (t' : FileTree) : Prop :=
  ∃ t₁, t.Wrote done t₁ ∧ t₁.Tears f.path (Utf8.encode f.jobs.text) e t' ∧
    (t' = t₁ ∨ outcomeOf (t.get? f.path.place) f.jobs = .written)

/-- Files are written one after the other, each with the outcome that the first tree decides, until
one of them cannot be written. -/
theorem writeAll_cases (ht : t.LinkFree) (hp : ∀ f ∈ fs, t.HasParent f.path)
    (hne : fs.Pairwise fun f g => f.path.place ≠ g.path.place)
    (hb : ∀ f ∈ fs, ∀ p, f.path.place ≠ (besides p).place) (disk : Storage) :
    (∃ t', writeAll false t fs disk =
        (.ok (fs.map fun f => (outcomeOf (t.get? f.path.place) f.jobs, f.path)), t') ∧
      t.Wrote fs t') ∨
    ∃ done f rest e t', fs = done ++ f :: rest ∧ writeAll false t fs disk = (.error e, t') ∧
      t.Stops done f e t' := by
  induction fs generalizing t with
  | nil => exact .inl ⟨t, rfl, .nil ht⟩
  | cons f fs ih =>
    obtain ⟨hnef, hne⟩ := List.pairwise_cons.1 hne
    rw [writeAll]
    rcases writes_writeJobs ht (hp f List.mem_cons_self) (hb f List.mem_cons_self f.path) f.jobs
      disk with ⟨e, t', hw, htears⟩ | ⟨t₁, hw, hget⟩
    · rw [hw]
      exact .inr ⟨[], f, fs, e, t', rfl, rfl, ⟨t, .nil ht, htears⟩⟩
    · have hsound := writeJobs_sound hw
      obtain ⟨ht₁, hk₁, -⟩ := writeJobs_ok ht hsound
      have hfirst : t.Wrote [f] t₁ :=
        ⟨ht₁, hk₁, by simpa using render_of_writeJobs hsound, by simp [hget],
          fun k hk => by simp [hget, hk f (by simp)]⟩
      have hsame : ∀ g ∈ fs, t₁.get? g.path.place = t.get? g.path.place := fun g hg =>
        hfirst.get?_eq (hnef g hg) (hb g (List.mem_cons_of_mem _ hg))
      simp only [hw]
      rcases ih ht₁ (fun g hg => (hp g (List.mem_cons_of_mem _ hg)).mono ht ht₁ hk₁) hne
        (fun g hg => hb g (List.mem_cons_of_mem _ hg)) with
        ⟨t', hrun, hrest⟩ | ⟨done, g, rest, e, t', rfl, hrun, t₂, hrest, htears⟩
      · rw [hrun]
        have hout : fs.map (fun g => (outcomeOf (t₁.get? g.path.place) g.jobs, g.path)) =
            fs.map fun g => (outcomeOf (t.get? g.path.place) g.jobs, g.path) :=
          List.map_congr_left fun g hg => by rw [hsame g hg]
        exact .inl ⟨t', by rw [hout, List.map_cons], hfirst.cons hrest hnef hb⟩
      · rw [hrun]
        have hwrote : t.Wrote (f :: done) t₂ :=
          hfirst.cons hrest (fun g hg => hnef g (List.mem_append_left _ hg))
            (fun a ha => hb a (List.mem_append_left (g :: rest) ha))
        rw [hsame g (by simp)] at htears
        exact .inr ⟨f :: done, g, rest, e, t', rfl, rfl, ⟨t₂, hwrote, htears⟩⟩

end

end JobConfig.FileTree
