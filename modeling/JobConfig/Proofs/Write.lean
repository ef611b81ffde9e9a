import JobConfig.Proofs.Plan
import JobConfig.Write

/-!
# What writing leaves

A file that is written holds its text, and one that shall hold no jobs is gone. The file beside it
that took the new content first is gone as well, whether it was there before or not. Nothing else
changes.
-/

namespace JobConfig.FileTree

variable {t t' : FileTree} {p : Path} {c : Bytes} {l k : Location} {jobs : JobSet} {o : Outcome}

/-! ### The file beside a file -/

theorem split_append_of_not_mem {bs : Bytes} (h : Path.slash ∉ bs) (as : Bytes) : ∃ ps m,
    Path.split as = ps ++ [m] ∧ Path.split (as ++ bs) = ps ++ [m ++ bs] := by
  induction as with
  | nil => exact ⟨[], [], rfl, by simp [Path.split_of_not_mem h]⟩
  | cons a as ih =>
    obtain ⟨ps, m, has, hs⟩ := ih
    rw [List.cons_append, Path.split, Path.split, has, hs]
    by_cases ha : a = Path.slash
    · exact ⟨[] :: ps, m, by simp [ha], by simp [ha]⟩
    · cases ps with
      | nil => exact ⟨[], a :: m, by simp [ha], by simp [ha]⟩
      | cons q ps => exact ⟨(a :: q) :: ps, m, by simp [ha], by simp [ha]⟩

/-- What a file is called on the way, behind its own name. -/
def temporarySuffix : Bytes :=
  Utf8.encode ".jobshard.tmp"

theorem isName_temporary {m : Bytes} (hm : Path.slash ∉ m) :
    Path.isName (m ++ temporarySuffix) = true := by
  have hlen : 2 < (m ++ temporarySuffix).length := by
    rw [List.length_append, show temporarySuffix.length = 13 by decide]
    omega
  refine Path.isName_iff.2 ⟨?_, ?_, ?_⟩
  · rw [Path.isBlank, Bool.or_eq_false_iff, beq_eq_false_iff_ne, beq_eq_false_iff_ne]
    constructor <;> intro h <;> simp [h] at hlen
  · intro h
    simp [h] at hlen
  · rw [List.mem_append, not_or]
    exact ⟨hm, by decide⟩

/-- The file beside a file has a name of its own. -/
theorem pieces_besides (p : Path) : ∃ ps m, (besides p).pieces = ps ++ [m ++ temporarySuffix] ∧
    Path.isName (m ++ temporarySuffix) = true := by
  obtain ⟨ps, m, -, hs⟩ := split_append_of_not_mem (show Path.slash ∉ temporarySuffix by decide)
    (Utf8.encode p.display)
  have hp : (besides p).pieces = ps ++ [m ++ temporarySuffix] := by
    rw [besides, Path.ofString, Path.pieces, Utf8.encode_append]
    exact hs
  have hslash : Path.slash ∉ m ++ temporarySuffix :=
    Path.not_mem_of_mem_pieces (p := besides p) (by simp [hp])
  exact ⟨ps, m, hp, isName_temporary fun h => hslash (List.mem_append_left _ h)⟩

/-- The file beside one whose path is a text is in the same directory. -/
theorem besides_join {q : Path} {n : Bytes} (hn : Path.isName n = true)
    (h : (q.join ⟨n⟩).IsText) : besides (q.join ⟨n⟩) = q.join ⟨n ++ temporarySuffix⟩ := by
  obtain ⟨s, hs⟩ := h
  have hbytes : (q.join ⟨n⟩).bytes ++ temporarySuffix = (q.join ⟨n ++ temporarySuffix⟩).bytes := by
    rw [Path.join_name hn, Path.join_name (isName_temporary (Path.isName_iff.1 hn).2.2)]
    split <;> simp
  rw [besides, hs, Path.display, Path.ofString, Path.ofString, Utf8.decodeLossy_encode,
    Utf8.encode_append]
  rw [hs] at hbytes
  exact congrArg Path.mk hbytes

theorem endsInName_besides (p : Path) : (besides p).EndsInName := by
  obtain ⟨ps, m, hp, hn⟩ := pieces_besides p
  exact ⟨ps, _, hp, hn⟩

theorem place_besides (p : Path) :
    ∃ l m, (besides p).place = l ++ [m ++ temporarySuffix] := by
  obtain ⟨ps, m, hp, hn⟩ := pieces_besides p
  exact ⟨_, m, Path.place_of_pieces hp hn⟩

/-- No job file is called as the file beside another. -/
theorem name_ne_temporary {q : Path} {n : Bytes} (hn : Path.isName n = true)
    (hq : (q.join ⟨n⟩).extension? = some jobExtension) (m : Bytes) : n ≠ m ++ temporarySuffix := by
  rintro rfl
  have hcut : Path.cutName (m ++ temporarySuffix) =
      (m ++ Utf8.encode ".jobshard", some (Utf8.encode "tmp")) := by
    have ht : m ++ temporarySuffix =
        (m ++ Utf8.encode ".jobshard") ++ Path.dot :: Utf8.encode "tmp" := by
      rw [List.append_assoc]
      rfl
    rw [ht]
    exact Path.cutName_append (by simp [show Utf8.encode ".jobshard" ≠ [] by decide]) (by decide)
  rw [Path.extension?, Path.fileName?_join hn, Option.bind_some, hcut] at hq
  exact absurd (Option.some.inj hq) (by decide)

theorem place_ne_temporary {q : Path} (hq : q.extension? = some jobExtension) (hr : t.Reaches q)
    (l : Location) (m : Bytes) : q.place ≠ l ++ [m ++ temporarySuffix] := by
  obtain ⟨d, n, rfl, hn, -⟩ := hr
  rw [Path.place_join hn]
  intro h
  have := congrArg List.getLast? h
  exact name_ne_temporary hn hq m (by simpa using this)

theorem place_besides_ne {q : Path} (hq : q.extension? = some jobExtension) (hr : t.Reaches q)
    (p : Path) : (besides p).place ≠ q.place := by
  obtain ⟨l, m, hl⟩ := place_besides p
  rw [hl]
  exact (place_ne_temporary hq hr l m).symm

/-! ### One file -/

/-- Whether a path leads to one location, if anywhere, and there is no link. -/
structure Aims (t : FileTree) (p : Path) (l : Location) : Prop where
  leads : ∀ follow k, t.leads follow p = some k → k = l
  noLink : t.linkAt? l = none

theorem LinkFree.aims (ht : t.LinkFree) (p : Path) : t.Aims p p.place where
  leads _ _ hk := eq_place ht hk
  noLink := by rw [ht.linkAt?]

theorem Aims.mono (h : t.Aims p l) (hw : t.KeepsWays t') : t'.Aims p l where
  leads follow k hk := h.leads follow k (by rwa [FileTree.leads, hw.links] at hk)
  noLink := by rw [hw.links, h.noLink]

theorem ReachesAt.aims (h : t.ReachesAt p l) : t.Aims p l where
  leads follow k hk := by
    rw [h.leads, Option.some.injEq] at hk
    exact hk.symm
  noLink := by
    obtain ⟨q, k, n, -, -, -, -, hno⟩ := h
    exact hno

theorem admits_remove (h : t.Admits l) {k : Location} (hk : t.get? k ≠ some .directory) :
    (t.remove k).Admits l := by
  obtain ⟨hn, hp, hd⟩ := h
  have hl : l ≠ [] := by
    rintro rfl
    simp at hn
  refine ⟨hn, keepsDirectories_remove hk _ hp, ?_⟩
  rw [← get?_of_ne_nil hl] at hd ⊢
  rw [get?_remove hk]
  split
  · simp
  · exact hd

theorem makeParent_extends (t : FileTree) (p : Path) (disk : Storage) :
    (t.makeParent p disk).2.Extends t := by
  rw [makeParent]
  split
  · exact .refl t
  · exact makeDirectories_extends t _ disk

/-- A file that was replaced holds the new content. -/
theorem replaceFile_ok (hp : t.Aims p l) (hb : t.Aims (besides p) k)
    (h : t.replaceFile p c = (.ok (), t')) : t.KeepsWays t' ∧ ∀ j, t'.fileAt? j =
      if j = l then some c else if j = k then none else t.fileAt? j := by
  have hext := makeParent_extends t p .sound
  rw [replaceFile] at h
  split at h
  · cases h
  · rename_i t₁ h₁
    rw [h₁] at hext
    rw [Storage.writeFile_sound] at h
    cases h₂ : t₁.writeFile (besides p) c with
    | error r =>
      rw [h₂] at h
      cases h
    | ok t₂ =>
      simp only [h₂, Storage.rename_sound] at h
      obtain ⟨k₁, hk₁, ha₁, rfl⟩ := writeFile_leads h₂
      obtain rfl := (hb.mono hext.keepsWays).leads _ _ hk₁
      have hput := keepsWays_put ha₁ (hb.mono hext.keepsWays).noLink (e := .file c) (by simp)
      have hway := hext.keepsWays.trans hput
      have hg : (t₁.put k₁ (.file c)).get? k₁ = some (.file c) := by rw [get?_put ha₁, if_pos rfl]
      have hnd : (t₁.put k₁ (.file c)).get? k₁ ≠ some .directory := by simp [hg]
      split at h
      · rename_i t₃ h₃
        cases h
        obtain ⟨k₂, e, l₂, hk₂, he, hl₂, ha₂, rfl⟩ := rename_leads h₃
        obtain rfl := (hb.mono hway).leads _ _ hk₂
        obtain rfl := (hp.mono hway).leads _ _ hl₂
        rw [hg, Option.some.injEq] at he
        subst he
        -- the file beside it was written and then removed: only its old content is lost
        have hremove := hway.trans (keepsWays_remove hnd (hb.mono hway).noLink)
        have ha₃ := admits_remove ha₂ hnd
        refine ⟨hremove.trans (keepsWays_put ha₃ (hp.mono hremove).noLink (by simp)), fun j => ?_⟩
        rw [fileAt?_put ha₃, fileAt?_remove hnd, fileAt?_put ha₁, hext.fileAt?]
        split
        · rfl
        · split <;> rfl
      · cases h

/-- What is at the place of a file after it was written: its text, or nothing without jobs. -/
def contentOfJobs? (jobs : JobSet) : Option Bytes :=
  if jobs.isEmpty then none else some (Utf8.encode jobs.text)

theorem fileAt?_eq_none_of_vacant (h : t.spot l = .vacant k) : t.fileAt? l = none := by
  rw [spot] at h
  split at h
  · cases h
  · rename_i hg
    rw [fileAt?, hg]

theorem removeJobs_ok (hp : t.Aims p l) (h : t.removeJobs p false = (.ok o, t')) :
    t.KeepsWays t' ∧ o ≠ .written ∧ (∀ k, k ≠ l → t'.fileAt? k = t.fileAt? k) ∧
      (t.ReachesAt p l → t'.fileAt? l = none) := by
  -- what is reached and not found is vacant
  have hvacant : ∀ follow, t.ReachesAt p l → (∀ l e, t.lookup follow p ≠ .ok (l, e)) →
      t.fileAt? l = none := by
    intro follow hr hno
    cases hs : t.spot l with
    | «at» j e => exact absurd (by rw [lookup, hr.resolve, hs]) (hno j e)
    | vacant j => exact fileAt?_eq_none_of_vacant hs
  rw [removeJobs] at h
  split at h
  · rename_i hc
    cases h
    refine ⟨.refl t, by simp, fun _ _ => rfl, fun hr => hvacant true hr ?_⟩
    intro l e hl
    simp [contains, hl, Except.isOk, Except.toBool] at hc
  · rw [Storage.removeFile_sound] at h
    split at h
    · rename_i hf
      cases hf
    · split at h
      · rename_i t₁ h₁
        cases h
        obtain ⟨l₁, hl₁, hd, rfl⟩ := removeFile_leads h₁
        obtain rfl := hp.leads _ _ hl₁
        refine ⟨keepsWays_remove hd hp.noLink, by simp, fun k hk => ?_, fun _ => ?_⟩
        · rw [fileAt?_remove hd, if_neg hk]
        · rw [fileAt?_remove hd, if_pos rfl]
      · rename_i h₁
        cases h
        refine ⟨.refl t, by simp, fun _ _ => rfl, fun hr => hvacant false hr ?_⟩
        intro l e hl
        rw [removeFile, hl] at h₁
        cases e <;> cases h₁
      · cases h

theorem readFile_of_contentOf? (h : t.contentOf? p = .ok (some c)) : t.readFile p = .ok c := by
  rw [contentOf?] at h
  split at h
  · rename_i c' hc
    cases h
    exact hc
  · cases h
  · cases h

theorem text_of_render {text : String} (h : jobs.render = .ok text) : text = jobs.text := by
  rw [JobSet.render] at h
  split at h
  · cases h
  · exact (Except.ok.inj h).symm

/-- What is done where writing a file succeeds: the file of an empty set is removed, one that has
its text already is left, and any other is replaced. -/
theorem writeJobs_ok_cases (h : t.writeJobs p jobs false = (.ok o, t')) :
    (jobs.isEmpty = true ∧ t.removeJobs p false = (.ok o, t')) ∨
    (jobs.isEmpty = false ∧ jobs.render = .ok jobs.text ∧
      (o = .unchanged ∧ t' = t ∧ t.readFile p = .ok (Utf8.encode jobs.text) ∨
        o = .written ∧ t.replaceFile p (Utf8.encode jobs.text) = (.ok (), t'))) := by
  rw [writeJobs] at h
  split at h
  · rename_i he
    exact .inl ⟨he, h⟩
  · rename_i he
    rw [Bool.not_eq_true] at he
    split at h
    · cases h
    · cases h
    · rename_i text old? htext hold
      obtain rfl := text_of_render htext
      refine .inr ⟨he, htext, ?_⟩
      split at h
      · rename_i hsame
        cases h
        exact .inl ⟨rfl, rfl, readFile_of_contentOf? (hsame ▸ hold)⟩
      · split at h
        · rename_i hf
          cases hf
        · split at h
          · rename_i t₁ h₁
            cases h
            exact .inr ⟨rfl, h₁⟩
          · cases h

/-- What writing a file leaves: its text at its location, nothing beside it if it was written, and
all else as it was. -/
theorem writeJobs_ok_of_aims (hp : t.Aims p l) (hb : t.Aims (besides p) k)
    (h : t.writeJobs p jobs false = (.ok o, t')) : t.KeepsWays t' ∧
      (∀ j, j ≠ l → t'.fileAt? j = if o = .written ∧ j = k then none else t.fileAt? j) ∧
      (t.ReachesAt p l → t'.fileAt? l = contentOfJobs? jobs) := by
  rw [contentOfJobs?]
  rcases writeJobs_ok_cases h with
    ⟨he, hremove⟩ | ⟨he, -, ⟨rfl, rfl, hread⟩ | ⟨rfl, hreplace⟩⟩
  · obtain ⟨hw, ho, hf, hgone⟩ := removeJobs_ok hp hremove
    refine ⟨hw, fun j hj => ?_, fun hr => ?_⟩
    · rw [hf j hj, if_neg (by simp [ho])]
    · rw [hgone hr, if_pos he]
  · refine ⟨.refl _, fun j _ => ?_, fun _ => ?_⟩
    · rw [if_neg (by simp)]
    · obtain ⟨l₁, hl₁, hf⟩ := readFile_leads hread
      rw [if_neg (by simp [he]), ← hp.leads _ _ hl₁, hf]
  · obtain ⟨hw, hf⟩ := replaceFile_ok hp hb hreplace
    refine ⟨hw, fun j hj => ?_, fun _ => ?_⟩
    · rw [hf, if_neg hj]
      simp
    · rw [hf, if_pos rfl, if_neg (by simp [he])]

/-- What writing a file leaves in a tree without links. -/
theorem writeJobs_ok (ht : t.LinkFree) (h : t.writeJobs p jobs false = (.ok o, t')) :
    t'.LinkFree ∧ t.KeepsDirectories t' ∧
      (∀ k, k ≠ p.place → t'.fileAt? k =
        if o = .written ∧ k = (besides p).place then none else t.fileAt? k) ∧
      (t.Reaches p → t'.fileAt? p.place = contentOfJobs? jobs) := by
  obtain ⟨hw, hf, hplace⟩ := writeJobs_ok_of_aims (ht.aims p) (ht.aims (besides p)) h
  exact ⟨hw.linkFree ht, hw.directories, hf, fun hr => hplace (hr.reachesAt ht)⟩

/-- A file that holds its text already is left as it is. -/
theorem writeJobs_unchanged (ht : t.LinkFree) (hr : t.Reaches p) (he : jobs.isEmpty = false)
    (htext : jobs.render = .ok jobs.text)
    (hc : t.fileAt? p.place = some (Utf8.encode jobs.text)) (dryRun : Bool) (disk : Storage) :
    t.writeJobs p jobs dryRun disk = (.ok .unchanged, t) := by
  simp [writeJobs, he, htext, contentOf?, readFile_reaches ht hr hc]

/-! ### File after file -/

section

variable {fs : List Planned} {os : List (Outcome × Path)} {f : Planned}

theorem writeAll_cons_ok {dryRun : Bool} (h : writeAll dryRun t (f :: fs) = (.ok os, t')) :
    ∃ o t₁ os₁, t.writeJobs f.path f.jobs dryRun = (.ok o, t₁) ∧
      writeAll dryRun t₁ fs = (.ok os₁, t') ∧ os = (o, f.path) :: os₁ := by
  rw [writeAll] at h
  split at h
  · cases h
  · rename_i o t₁ h₁
    split at h
    · cases h
    · rename_i os₁ t₂ h₂
      cases h
      exact ⟨o, t₁, os₁, h₁, h₂, rfl⟩

theorem Reaches.mono (ht : t.LinkFree) (ht' : t'.LinkFree) (h : t.KeepsDirectories t')
    (hp : t.Reaches p) : t'.Reaches p := by
  obtain ⟨q, n, rfl, hn, hq⟩ := hp
  exact ⟨q, n, rfl, hn, isDirectory_mono ht ht' h hq⟩

theorem mem_writeAll (h : writeAll false t fs = (.ok os, t')) {r : Outcome × Path} (hr : r ∈ os) :
    ∃ f ∈ fs, r.2 = f.path := by
  induction fs generalizing t os with
  | nil =>
    cases h
    cases hr
  | cons f fs ih =>
    obtain ⟨o, t₁, os₁, h₁, h₂, rfl⟩ := writeAll_cons_ok h
    rcases List.mem_cons.1 hr with rfl | hr
    · exact ⟨f, List.mem_cons_self, rfl⟩
    · obtain ⟨g, hg, hp⟩ := ih h₂ hr
      exact ⟨g, List.mem_cons_of_mem _ hg, hp⟩

section Aims

variable {goal : Path → Location} (haims : ∀ f ∈ fs, t.Aims f.path (goal f.path) ∧
  t.Aims (besides f.path) (goal (besides f.path)))

include haims

theorem writeAll_keepsWays (h : writeAll false t fs = (.ok os, t')) : t.KeepsWays t' := by
  induction fs generalizing t os with
  | nil =>
    cases h
    exact .refl _
  | cons f fs ih =>
    obtain ⟨o, t₁, os₁, h₁, h₂, rfl⟩ := writeAll_cons_ok h
    obtain ⟨hp, hb⟩ := haims f List.mem_cons_self
    have hw := (writeJobs_ok_of_aims hp hb h₁).1
    exact hw.trans (ih (fun g hg =>
      (haims g (List.mem_cons_of_mem _ hg)).imp (Aims.mono · hw) (Aims.mono · hw)) h₂)

/-- What is not at the location of a file stays as it is, unless it is beside one that was
written. -/
theorem fileAt?_writeAll_of_aims (h : writeAll false t fs = (.ok os, t'))
    (hl : ∀ f ∈ fs, l ≠ goal f.path) : t'.fileAt? l =
      if ∃ r ∈ os, r.1 = .written ∧ l = goal (besides r.2) then none else t.fileAt? l := by
  induction fs generalizing t os with
  | nil =>
    cases h
    simp
  | cons f fs ih =>
    obtain ⟨o, t₁, os₁, h₁, h₂, rfl⟩ := writeAll_cons_ok h
    obtain ⟨hp, hb⟩ := haims f List.mem_cons_self
    obtain ⟨hw, hf, -⟩ := writeJobs_ok_of_aims hp hb h₁
    have hrest : ∀ g ∈ fs, t₁.Aims g.path (goal g.path) ∧
        t₁.Aims (besides g.path) (goal (besides g.path)) := fun g hg =>
      (haims g (List.mem_cons_of_mem _ hg)).imp (Aims.mono · hw) (Aims.mono · hw)
    -- once the file beside the first one is gone, the others leave it so
    rw [ih hrest h₂ fun g hg => hl g (List.mem_cons_of_mem _ hg), hf l (hl f List.mem_cons_self)]
    simp only [List.exists_mem_cons_iff]
    by_cases hos : ∃ r ∈ os₁, r.1 = .written ∧ l = goal (besides r.2)
    · rw [if_pos hos, if_pos (.inr hos)]
    · rw [if_neg hos]
      simp only [hos, or_false]

/-- Each file that is written is left with its text, if no other one has its location. -/
theorem fileAt?_goal_writeAll (h : writeAll false t fs = (.ok os, t'))
    (hreach : ∀ f ∈ fs, t.ReachesAt f.path (goal f.path))
    (hsame : ∀ f ∈ fs, ∀ g ∈ fs, goal f.path = goal g.path → f = g)
    (hbeside : ∀ f ∈ fs, ∀ g ∈ fs, goal f.path ≠ goal (besides g.path))
    (hf : f ∈ fs) : t'.fileAt? (goal f.path) = contentOfJobs? f.jobs := by
  induction fs generalizing t os with
  | nil => cases hf
  | cons g fs ih =>
    obtain ⟨o, t₁, os₁, h₁, h₂, rfl⟩ := writeAll_cons_ok h
    obtain ⟨hp, hb⟩ := haims g List.mem_cons_self
    obtain ⟨hw, -, hgoal⟩ := writeJobs_ok_of_aims hp hb h₁
    have hmem : ∀ {f}, f ∈ fs → f ∈ g :: fs := List.mem_cons_of_mem _
    have hrest : ∀ f ∈ fs, t₁.Aims f.path (goal f.path) ∧
        t₁.Aims (besides f.path) (goal (besides f.path)) := fun f hf =>
      (haims f (hmem hf)).imp (Aims.mono · hw) (Aims.mono · hw)
    by_cases hfs : f ∈ fs
    · exact ih hrest h₂ (fun f hf => (hreach f (hmem hf)).mono hw)
        (fun f hf g hg => hsame f (hmem hf) g (hmem hg))
        (fun f hf g hg => hbeside f (hmem hf) g (hmem hg)) hfs
    · -- the file is written first, and none of the others touches it
      obtain rfl : f = g := (List.mem_cons.1 hf).resolve_right hfs
      have hother : ∀ e ∈ fs, goal f.path ≠ goal e.path := fun e he hp =>
        hfs (hsame f hf e (hmem he) hp ▸ he)
      rw [fileAt?_writeAll_of_aims hrest h₂ hother, if_neg, hgoal (hreach f hf)]
      rintro ⟨r, hr, -, hp⟩
      obtain ⟨e, he, hre⟩ := mem_writeAll h₂ hr
      exact hbeside f hf e (hmem he) (hre ▸ hp)

end Aims

section LinkFree

variable (ht : t.LinkFree)

include ht

theorem LinkFree.aims_all (fs : List Planned) : ∀ f ∈ fs, t.Aims f.path f.path.place ∧
    t.Aims (besides f.path) (besides f.path).place :=
  fun f _ => ⟨ht.aims f.path, ht.aims (besides f.path)⟩

theorem writeAll_linkFree (h : writeAll false t fs = (.ok os, t')) :
    t'.LinkFree ∧ t.KeepsDirectories t' := by
  have hw := writeAll_keepsWays (ht.aims_all fs) h
  exact ⟨hw.linkFree ht, hw.directories⟩

/-- What is not at the place of a file stays as it is, unless it is beside one that was written. -/
theorem fileAt?_writeAll (h : writeAll false t fs = (.ok os, t'))
    (hl : ∀ f ∈ fs, l ≠ f.path.place) : t'.fileAt? l =
      if ∃ r ∈ os, r.1 = .written ∧ l = (besides r.2).place then none else t.fileAt? l :=
  fileAt?_writeAll_of_aims (ht.aims_all fs) h hl

/-- Each file that is written is left with its text, if no other one has its place. -/
theorem fileAt?_place_writeAll (h : writeAll false t fs = (.ok os, t'))
    (hreach : ∀ f ∈ fs, t.Reaches f.path)
    (hsame : ∀ f ∈ fs, ∀ g ∈ fs, f.path.place = g.path.place → f = g)
    (hbeside : ∀ f ∈ fs, ∀ g ∈ fs, f.path.place ≠ (besides g.path).place)
    (hf : f ∈ fs) : t'.fileAt? f.path.place = contentOfJobs? f.jobs :=
  fileAt?_goal_writeAll (ht.aims_all fs) h (fun f hf => (hreach f hf).reachesAt ht) hsame hbeside hf

end LinkFree

/-- Where all files hold their text already, writing changes nothing. -/
theorem writeAll_unchanged (ht : t.LinkFree) (h : ∀ f ∈ fs, t.Reaches f.path ∧
      f.jobs.isEmpty = false ∧ f.jobs.render = .ok f.jobs.text ∧
      t.fileAt? f.path.place = some (Utf8.encode f.jobs.text))
    (dryRun : Bool) (disk : Storage) :
    writeAll dryRun t fs disk = (.ok (fs.map fun f => (.unchanged, f.path)), t) := by
  induction fs with
  | nil => rfl
  | cons f fs ih =>
    obtain ⟨hr, he, htext, hc⟩ := h f List.mem_cons_self
    rw [writeAll, writeJobs_unchanged ht hr he htext hc]
    simp only [ih fun g hg => h g (List.mem_cons_of_mem _ hg), List.map_cons]

theorem render_of_writeJobs (h : t.writeJobs p jobs false = (.ok o, t'))
    (he : jobs.isEmpty = false) : jobs.render = .ok jobs.text := by
  rcases writeJobs_ok_cases h with ⟨hempty, -⟩ | ⟨-, htext, -⟩
  · rw [he] at hempty
    cases hempty
  · exact htext

/-- Files that could be written had a text if they have jobs. -/
theorem render_of_writeAll (h : writeAll false t fs = (.ok os, t')) (hf : f ∈ fs)
    (he : f.jobs.isEmpty = false) : f.jobs.render = .ok f.jobs.text := by
  induction fs generalizing t os with
  | nil => cases hf
  | cons g fs ih =>
    obtain ⟨o, t₁, os₁, h₁, h₂, -⟩ := writeAll_cons_ok h
    rcases List.mem_cons.1 hf with rfl | hf
    · exact render_of_writeJobs h₁ he
    · exact ih h₂ hf

end

end JobConfig.FileTree
