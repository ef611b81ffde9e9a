import JobConfig.Proofs.Tree.Resolve
import JobConfig.Proofs.Tree.Storage

/-!
# Operations on trees

What an operation leaves at each location of the tree, if the file system does not refuse it. Making
directories adds directories and nothing else.
-/

namespace JobConfig.FileTree

open JobConfig.Path (slash isName placeFrom)

variable {t t' t'' : FileTree} {p q : Path} {l k : Location} {c : Bytes} {e : Entry}
  {disk : Storage}

theorem admits_of_get? (h : t.get? l = some e) (he : e ≠ .directory) : t.Admits l := by
  have hl : l ≠ [] := by
    rintro rfl
    rw [get?_root, Option.some.injEq] at h
    exact he h.symm
  obtain ⟨hn, hp⟩ := parent_of_get? h hl
  refine ⟨hn, hp, ?_⟩
  rw [← get?_of_ne_nil hl, h]
  simpa using he

theorem linkFree_put (ht : t.LinkFree) (h : t.Admits l) (he : ∀ target, e ≠ .link target) :
    (t.put l e).LinkFree := by
  intro k target
  rw [get?_put h]
  split
  · simpa using he target
  · exact ht k target

theorem fileAt?_put (h : t.Admits l) (k : Location) :
    (t.put l (.file c)).fileAt? k = if k = l then some c else t.fileAt? k := by
  rw [fileAt?, get?_put h]
  by_cases hk : k = l
  · rw [if_pos hk, if_pos hk]
  · rw [if_neg hk, if_neg hk, fileAt?]

theorem fileAt?_remove (h : t.get? l ≠ some .directory) (k : Location) :
    (t.remove l).fileAt? k = if k = l then none else t.fileAt? k := by
  rw [fileAt?, get?_remove h]
  by_cases hk : k = l
  · rw [if_pos hk, if_pos hk]
  · rw [if_neg hk, if_neg hk, fileAt?]

/-! ### Reading and writing files -/

theorem readFile_leads (h : t.readFile p = .ok c) :
    ∃ l, t.leads true p = some l ∧ t.fileAt? l = some c := by
  rw [readFile] at h
  split at h
  · rename_i hl
    cases h
    obtain ⟨hp, hg⟩ := leads_of_lookup hl
    exact ⟨_, hp, fileAt?_eq_some_iff.2 hg⟩
  · cases h
  · cases h

theorem writeFile_leads (h : t.writeFile p c = .ok t') :
    ∃ l, t.leads true p = some l ∧ t.Admits l ∧ t' = t.put l (.file c) := by
  rw [writeFile] at h
  split at h
  · cases h
  · rename_i l e hd hr
    cases h
    obtain ⟨hp, hg⟩ := leads_of_resolve hr
    exact ⟨l, hp, admits_of_get? hg hd, rfl⟩
  · rename_i l hr
    cases h
    obtain ⟨hp, -, ha⟩ := leads_of_resolve hr
    exact ⟨l, hp, ha, rfl⟩
  · cases h

theorem removeFile_leads (h : t.removeFile p = .ok t') :
    ∃ l, t.leads false p = some l ∧ t.get? l ≠ some .directory ∧ t' = t.remove l := by
  rw [removeFile] at h
  split at h
  · cases h
  · rename_i l e hd hr
    cases h
    obtain ⟨hp, hg⟩ := leads_of_lookup hr
    refine ⟨l, hp, fun hg' => ?_, rfl⟩
    rw [hg, Option.some.injEq] at hg'
    exact hd hg'
  · cases h

theorem rename_leads (h : t.rename p q = .ok t') : ∃ l e k, t.leads false p = some l ∧
    t.get? l = some e ∧ t.leads false q = some k ∧ t.Admits k ∧ t' = (t.remove l).put k e := by
  rw [rename] at h
  split at h
  · cases h
  · cases h
  · cases h
  · rename_i l e k f hd hl hr
    cases h
    obtain ⟨hp, he⟩ := leads_of_lookup hl
    obtain ⟨hq, hf⟩ := leads_of_resolve hr
    exact ⟨l, e, k, hp, he, hq, admits_of_get? hf hd, rfl⟩
  · rename_i l e k hl hr
    cases h
    obtain ⟨hp, he⟩ := leads_of_lookup hl
    obtain ⟨hq, -, ha⟩ := leads_of_resolve hr
    exact ⟨l, e, k, hp, he, hq, ha, rfl⟩

theorem eq_place (ht : t.LinkFree) {follow : Bool} (h : t.leads follow p = some l) :
    l = p.place := by
  rw [leads_linkFree ht, Option.some.injEq] at h
  exact h.symm

theorem writeFile_ok (ht : t.LinkFree) (h : t.writeFile p c = .ok t') :
    t.Admits p.place ∧ t' = t.put p.place (.file c) := by
  obtain ⟨l, hp, ha, rfl⟩ := writeFile_leads h
  obtain rfl := eq_place ht hp
  exact ⟨ha, rfl⟩

theorem rename_ok (ht : t.LinkFree) (h : t.rename p q = .ok t') :
    ∃ e, t.get? p.place = some e ∧ t.Admits q.place ∧ t' = (t.remove p.place).put q.place e := by
  obtain ⟨l, e, k, hp, he, hq, ha, rfl⟩ := rename_leads h
  obtain rfl := eq_place ht hp
  obtain rfl := eq_place ht hq
  exact ⟨e, he, ha, rfl⟩

/-! ### Making directories -/

/-- Whether a tree is another one with directories added. -/
def Extends (t' t : FileTree) : Prop :=
  ∀ l, t'.get? l = t.get? l ∨ t.get? l = none ∧ t'.get? l = some .directory

theorem Extends.refl (t : FileTree) : t.Extends t := fun _ => .inl rfl

theorem Extends.trans (h' : t''.Extends t') (h : t'.Extends t) : t''.Extends t := by
  intro l
  rcases h' l with h' | ⟨hn, hd⟩
  · rw [h']
    exact h l
  · refine .inr ⟨?_, hd⟩
    rcases h l with h | ⟨hn', -⟩
    · rw [← h, hn]
    · exact hn'

theorem Extends.fileAt? (h : t'.Extends t) (l : Location) : t'.fileAt? l = t.fileAt? l := by
  rcases h l with h | ⟨hn, hd⟩
  · rw [FileTree.fileAt?, FileTree.fileAt?, h]
  · rw [FileTree.fileAt?, FileTree.fileAt?, hn, hd]

theorem Extends.linkFree (h : t'.Extends t) (ht : t.LinkFree) : t'.LinkFree := by
  intro l target
  rcases h l with h | ⟨-, hd⟩
  · rw [h]
    exact ht l target
  · simp [hd]

/-- Whether all directories of a tree are directories of another. -/
def KeepsDirectories (t t' : FileTree) : Prop :=
  ∀ l, t.get? l = some .directory → t'.get? l = some .directory

theorem Extends.keepsDirectories (h : t'.Extends t) : t.KeepsDirectories t' := by
  intro l hl
  rcases h l with h | ⟨-, hd⟩
  · rw [h, hl]
  · exact hd

theorem keepsDirectories_put (h : t.Admits l) : t.KeepsDirectories (t.put l e) := by
  intro k hk
  rw [get?_put h]
  split
  · rename_i hkl
    subst hkl
    obtain ⟨hn, -, hd⟩ := h
    have hk0 : k ≠ [] := by
      rintro rfl
      simp at hn
    rw [get?_of_ne_nil hk0] at hk
    exact absurd hk hd
  · exact hk

theorem keepsDirectories_remove (h : t.get? l ≠ some .directory) :
    t.KeepsDirectories (t.remove l) := by
  intro k hk
  rw [get?_remove h]
  split
  · rename_i hkl
    exact absurd (hkl ▸ hk) h
  · exact hk

theorem extends_put_directory (h : t.Admits l) (hl : t.get? l = none) :
    (t.put l .directory).Extends t := by
  intro k
  rw [get?_put h]
  split
  · rename_i hkl
    exact .inr ⟨hkl ▸ hl, rfl⟩
  · exact .inl rfl

theorem walk_mono (ht : t.LinkFree) (h : t.KeepsDirectories t') {ps : List Bytes}
    (hw : t.walk l ps = .ok (.at k .directory)) : t'.walk l ps = .ok (.at k .directory) := by
  induction ps generalizing l with
  | nil => exact hw
  | cons n ps ih =>
    have hn := enters_of_walk ht hw
    have hn' : t'.Enters l n := hn.imp_right (Or.imp_right (h _))
    rw [walk_cons hn] at hw
    rw [walk_cons hn', ih hw]

theorem isDirectory_mono (ht : t.LinkFree) (ht' : t'.LinkFree) (h : t.KeepsDirectories t')
    (hp : t.isDirectory p = true) : t'.isDirectory p = true := by
  obtain ⟨hb, hw⟩ := (isDirectory_iff_walk ht).1 hp
  exact (isDirectory_iff_walk ht').2 ⟨hb, walk_mono ht h hw⟩

/-- A file that was written is there, if its path ends in a name. -/
theorem lookup_writeFile (ht : t.LinkFree) (hp : p.EndsInName) (h : t.writeFile p c = .ok t')
    (follow : Bool) : t'.lookup follow p = .ok (p.place, .file c) := by
  obtain ⟨ha, rfl⟩ := writeFile_ok ht h
  have ht' : (t.put p.place (.file c)).LinkFree := linkFree_put ht ha (by simp)
  obtain ⟨ps, n, hps, hn⟩ := hp
  obtain ⟨s, hr⟩ : ∃ s, t.resolve true p = .ok s := by
    rw [writeFile] at h
    cases hr : t.resolve true p with
    | error r => simp [hr] at h
    | ok s => exact ⟨s, rfl⟩
  obtain ⟨hs, -⟩ := fits_resolve ht hr
  rw [resolve_eq_walk ht] at hr
  split at hr
  · cases hr
  · rename_i hb
    rw [hps, walk_concat_iff ht hn] at hr
    obtain ⟨k, hk, rfl⟩ := hr
    rw [spot_location] at hs
    have hput : (t.put p.place (.file c)).get? p.place = some (.file c) := by
      rw [get?_put ha, if_pos rfl]
    have hk' := walk_mono ht (keepsDirectories_put (e := .file c) ha) hk
    rw [lookup, resolve_eq_walk ht', if_neg hb, hps, (walk_concat_iff ht' hn).2 ⟨k, hk', rfl⟩, hs,
      spot, hput]

theorem makeDirectory_ok (h : t.makeDirectory p = .ok t') : t'.Extends t := by
  rw [makeDirectory] at h
  split at h
  · cases h
  · rename_i hr
    cases h
    obtain ⟨-, hn, ha⟩ := leads_of_resolve hr
    exact extends_put_directory ha hn
  · cases h

theorem ensureDirectory_ok (h : t.ensureDirectory p disk = .ok t') : t'.Extends t := by
  rw [ensureDirectory] at h
  split at h
  · split at h
    · cases h
      exact .refl t
    · cases h
  · exact makeDirectory_ok (Storage.of_grant h)

theorem ensureAll_extends (t : FileTree) (ps : List Path) (disk : Storage) :
    (t.ensureAll ps disk).2.Extends t := by
  induction ps generalizing t with
  | nil => exact .refl t
  | cons p ps ih =>
    rw [ensureAll]
    split
    · rename_i h
      exact ensureDirectory_ok h
    · have hps := ih t
      split
      · rename_i h
        simpa [h] using hps
      · rename_i t₁ h
        have ht₁ : t₁.Extends t := by simpa [h] using hps
        split
        · rename_i h'
          exact (ensureDirectory_ok h').trans ht₁
        · exact ht₁
    · exact .refl t

/-- Making directories adds directories, also where it fails. -/
theorem makeDirectories_extends (t : FileTree) (p : Path) (disk : Storage) :
    (t.makeDirectories p disk).2.Extends t :=
  ensureAll_extends t _ disk

theorem extends_of_makeDirectories {r : Except Refusal Unit}
    (h : t.makeDirectories p disk = (r, t')) : t'.Extends t := by
  simpa [h] using makeDirectories_extends t p disk

section Join

variable {n : Bytes}

theorem ancestors_join (hn : isName n = true) (p : Path) (fuel : Nat) :
    ∃ ps, ancestors (fuel + 1) (p.join ⟨n⟩) = p.join ⟨n⟩ :: ps := by
  have hp : ((p.join ⟨n⟩).parent?).isSome = true := by
    rw [Path.parent?, Path.components_join hn, List.getLast?_concat]
    rfl
  obtain ⟨q, hq⟩ := Option.isSome_iff_exists.1 hp
  rw [ancestors, if_neg (Path.join_bytes_ne_nil hn p), hq]
  exact ⟨_, rfl⟩

/-- Where a directory is, there is nothing to make. -/
theorem makeDirectories_of_isDirectory (ht : t.LinkFree) (hn : isName n = true)
    (h : t.isDirectory (p.join ⟨n⟩) = true) (disk : Storage) :
    t.makeDirectories (p.join ⟨n⟩) disk = (.ok (), t) := by
  obtain ⟨ps, hps⟩ := ancestors_join hn p (p.join ⟨n⟩).components.length
  have hr := (isDirectory_iff_resolve ht false).1 h
  have hm : disk.makeDirectory t (p.join ⟨n⟩) = .error .alreadyExists := by
    rw [Storage.makeDirectory, makeDirectory, (Path.endsInName_join hn p).dropSlashes, hr]
    rfl
  have he : t.ensureDirectory (p.join ⟨n⟩) disk = .ok t := by
    rw [ensureDirectory, hm]
    simp [h]
  rw [makeDirectories, hps, ensureAll, he]

end Join

end JobConfig.FileTree
